import RunCache.Proofs.Cache.Contents
import RunCache.Proofs.Cache.Files
import RunCache.Proofs.Cache.Holding

/-! # The directory of a run

    After a run has been written below a directory that did not hold it,
    what is in its directory is what has been written.

    * **`Run.IsPlain`**: runs as a scan makes them, under plain names.
    * **`Run.file_names`**: where their files lie. -/

namespace RunCache

open Disk (Grows)

namespace Run

/-- A run as a scan makes it: its descriptor lies in its directory, its test results lie below, and
    its names have no empty segments. -/
structure IsPlain (r : Run) : Prop where
  job : IsName r.job
  id : '/' ∉ r.id.toList
  descriptor : r.descriptorPath = some (ObjectName.ofDescriptor r.job r.id)
  segments : ∀ p ∈ r.paths, "" ∉ Text.segments p
  results : ∀ p ∈ r.resultPaths, ObjectName.isTestResult p = true ∧
    ∃ file more, Text.segments p = ObjectName.logsRoot :: r.job :: r.id :: file :: more

/-- The names that lead to the directory of a run. -/
def directory (r : Run) : List String := [ObjectName.logsRoot, r.job, r.id]

variable {r : Run} {root : Path} {d : Descriptor} {f : Path × ByteArray} {bytes : String → ByteArray}

theorem IsPlain.segments_descriptor (h : r.IsPlain) :
    Text.segments (ObjectName.ofDescriptor r.job r.id) =
      r.directory ++ [ObjectName.descriptorFile] :=
  ObjectName.segments_ofDescriptor h.job.2.2.2 h.id

theorem IsPlain.descriptor_mem (h : r.IsPlain) : ObjectName.ofDescriptor r.job r.id ∈ r.paths := by
  simp [paths, h.descriptor]

theorem IsPlain.isName_directory (h : r.IsPlain)
    (hstays : ∀ p ∈ r.paths, ObjectName.staysInside p = true) : ∀ s ∈ r.directory, IsName s := by
  intro s hs
  have hsteps : s ∈ ObjectName.steps (ObjectName.ofDescriptor r.job r.id) := by
    rw [ObjectName.steps_eq_segments (h.segments _ h.descriptor_mem), h.segments_descriptor]
    exact List.mem_append_left _ hs
  exact .of_mem_steps (hstays _ h.descriptor_mem) hsteps

/-- Every file of a plain run lies some names below the cache: those of its object, that of the copy
    in its directory, or some in the by-name index. -/
theorem IsPlain.file_names (h : r.IsPlain)
    (hstays : ∀ p ∈ r.paths, ObjectName.staysInside p = true)
    (hf : f ∈ r.files root d (gathered bytes r.paths [])) :
    ∃ segs, (∀ s ∈ segs, IsName s) ∧ f.1.isAbsolute = root.isAbsolute ∧
      f.1.names = root.names ++ segs ∧
      ((∃ p ∈ r.paths, segs = Text.segments p ∧ f.2 = bytes p) ∨
        segs = r.directory ++ [CachePath.copyFile] ∨
        ∃ more, segs = CachePath.indexRoot :: more) := by
  have hsteps : ∀ p ∈ r.paths, ObjectName.steps p = Text.segments p :=
    fun p hp => ObjectName.steps_eq_segments (h.segments p hp)
  have hnames : ∀ p ∈ r.paths, ∀ s ∈ Text.segments p, IsName s := by
    intro p hp s hs
    rw [← hsteps p hp] at hs
    exact .of_mem_steps (hstays p hp) hs
  cases mem_files_iff.mp hf with
  | @object p b hmem =>
    obtain ⟨hp, rfl⟩ := mem_gathered_iff.mp hmem
    refine ⟨Text.segments p, hnames p hp, ?_, ?_, .inl ⟨p, hp, rfl, rfl⟩⟩
    · rw [CachePath.ofObject_eq, hsteps p hp, Path.isAbsolute_foldl_join (hnames p hp)]
    · rw [CachePath.ofObject_eq, hsteps p hp, Path.names_foldl_join (hnames p hp)]
  | @copy p b hmem hpath =>
    rw [h.descriptor, Option.getD_some] at hpath
    subst hpath
    have hp := h.descriptor_mem
    -- The copy stands beside the descriptor.
    have hobject : (CachePath.ofObject root (ObjectName.ofDescriptor r.job r.id)).names =
        (root.names ++ r.directory) ++ [ObjectName.descriptorFile] := by
      rw [CachePath.ofObject_eq, hsteps _ hp, Path.names_foldl_join (hnames _ hp),
        h.segments_descriptor, List.append_assoc]
    obtain ⟨habs, hcopy⟩ := Path.names_withFileName hobject CachePath.isName_descriptorFile
      CachePath.isName_copyFile
    refine ⟨r.directory ++ [CachePath.copyFile], ?_, ?_, ?_, .inr (.inl rfl)⟩
    · intro s hs
      rcases List.mem_append.mp hs with hs | hs
      · exact h.isName_directory hstays s hs
      · rw [List.mem_singleton.mp hs]
        exact CachePath.isName_copyFile
    · rw [habs, CachePath.ofObject_eq, hsteps _ hp, Path.isAbsolute_foldl_join (hnames _ hp)]
    · rw [hcopy, List.append_assoc]
  | @entry label hlabel hname _ =>
    have hindex : ∀ s ∈ [CachePath.indexRoot, r.job, label, d.name, CachePath.copyFile], IsName s :=
      fun s hs => CachePath.isName_of_mem_indexEntry h.job hlabel hname hs
    refine ⟨_, hindex, ?_, ?_, .inr (.inr ⟨_, rfl⟩)⟩
    · rw [CachePath.ofIndexEntry_eq, Path.isAbsolute_foldl_join hindex]
    · rw [CachePath.ofIndexEntry_eq, Path.names_foldl_join hindex]

/-- Neither the copy of a descriptor nor anything in the by-name index is an object of a plain
    run. -/
theorem IsPlain.segments_ne (h : r.IsPlain) {p : String} (hp : p ∈ r.paths) :
    Text.segments p ≠ r.directory ++ [CachePath.copyFile] ∧
      ∀ more, Text.segments p ≠ CachePath.indexRoot :: more := by
  -- Objects lie below the logs, entries of the index do not.
  have hlogs : ObjectName.logsRoot ≠ CachePath.indexRoot := by decide
  rcases List.mem_append.mp hp with hdesc | hresult
  · have hp' : p = ObjectName.ofDescriptor r.job r.id := by simpa [h.descriptor] using hdesc
    rw [hp', h.segments_descriptor]
    refine ⟨fun heq => ?_, fun more heq => hlogs (List.cons.inj heq).1⟩
    have hfile := (List.append_inj' heq rfl).2
    exact absurd hfile (by decide)
  · obtain ⟨htest, file, more, hsegs⟩ := h.results p hresult
    refine ⟨fun heq => ?_, fun more' heq => hlogs (List.cons.inj (hsegs.symm.trans heq)).1⟩
    rw [ObjectName.isTestResult_of_segments heq (by decide) (by decide)] at htest
    cases htest

/-! ## After writing -/

/-- A plain run and the disks before and after it has been written with some bytes for its paths. -/
structure Stored (root : Path) (r : Run) (d : Descriptor) (bytes : String → ByteArray)
    (before after : Disk) : Prop where
  plain : r.IsPlain
  stays : ∀ p ∈ r.paths, ObjectName.staysInside p = true
  start : before.IsTree
  tree : after.IsTree
  grows : Grows (Writing.dirPlaces before (r.files root d (gathered bytes r.paths [])))
    (Writing.filePlaces before (r.files root d (gathered bytes r.paths []))) before after
  holds : ∀ f ∈ r.files root d (gathered bytes r.paths []),
    after.Holds (r.files root d (gathered bytes r.paths [])) f.1

namespace Stored

variable {before after : Disk} {p : String} {rel : List String}

theorem isName_segments (h : Stored root r d bytes before after) (hp : p ∈ r.paths) :
    ∀ s ∈ Text.segments p, IsName s := by
  intro s hs
  rw [← ObjectName.steps_eq_segments (h.plain.segments p hp)] at hs
  exact .of_mem_steps (h.stays p hp) hs

theorem ofObject_eq (h : Stored root r d bytes before after) (hp : p ∈ r.paths) :
    CachePath.ofObject root p = (Text.segments p).foldl Path.join root := by
  rw [CachePath.ofObject_eq, ObjectName.steps_eq_segments (h.plain.segments p hp)]

/-- Each object is found under its name, with its bytes. -/
theorem stat_object (h : Stored root r d bytes before after) (hp : p ∈ r.paths) :
    ∃ time, after.stat true (CachePath.ofObject root p) =
      .ok (after.place root ++ Text.segments p, .file (bytes p) time) := by
  have hplace : after.place (CachePath.ofObject root p) = after.place root ++ Text.segments p := by
    rw [h.ofObject_eq hp, Disk.place_foldl_join (h.isName_segments hp)]
  have hfile : (CachePath.ofObject root p, bytes p) ∈ r.files root d (gathered bytes r.paths []) :=
    mem_files_iff.mpr (.object (mem_gathered_iff.mpr ⟨hp, rfl⟩))
  obtain ⟨e, he, loc, time, hstat, hstat'⟩ := h.holds _ hfile
  have hloc := (h.tree.stat_ok hstat).1
  have hloc' := (h.tree.stat_ok hstat').1
  rw [hplace] at hloc
  obtain ⟨segs, hsegs, habs, hnames, hshape⟩ := h.plain.file_names h.stays he
  rw [Disk.place_of_names hsegs after habs hnames, hloc] at hloc'
  have heq : Text.segments p = segs := List.append_cancel_left hloc'
  obtain ⟨hcopy, hindex⟩ := h.plain.segments_ne hp
  rcases hshape with ⟨q, _, rfl, hbytes⟩ | rfl | ⟨more, rfl⟩
  · have hpq : p = q := by
      rw [← Text.joined_segments p, heq, Text.joined_segments]
    exact ⟨time, by rw [hstat, hbytes, hloc, hpq]⟩
  · exact absurd heq hcopy
  · exact absurd heq (hindex more)

/-- A new file in the directory of the run is an object of it or the copy of its descriptor. -/
theorem file_below (h : Stored root r d bytes before after) {b : ByteArray} {time : Int}
    (hnone : before.get? (before.place root ++ (r.directory ++ rel)) = none)
    (hget : after.get? (before.place root ++ (r.directory ++ rel)) = some (.file b time)) :
    (∃ p ∈ r.paths, Text.segments p = r.directory ++ rel) ∨ rel = [CachePath.copyFile] := by
  rcases h.grows.file_before hget with hold | ⟨⟨f, hf, hloc⟩, _⟩
  · rw [hnone] at hold
    cases hold
  · obtain ⟨segs, hsegs, habs, hnames, hshape⟩ := h.plain.file_names h.stays hf
    rw [Disk.place_of_names hsegs before habs hnames] at hloc
    have heq : r.directory ++ rel = segs := List.append_cancel_left hloc
    rcases hshape with ⟨p, hp, rfl, _⟩ | rfl | ⟨more, rfl⟩
    · exact .inl ⟨p, hp, heq.symm⟩
    · exact .inr (List.append_cancel_left heq)
    · exact absurd (List.cons.inj heq).1 (by decide)

end Stored

end Run

end RunCache
