import RunCache.Bucket.Memory
import RunCache.Proofs.Cache.Apart
import RunCache.Proofs.Cache.CleanUp
import RunCache.Proofs.Cache.Named

/-! # The footprint of a write

    A write that succeeds leaves the files of the run, the copy of its
    descriptor and its entry in the by-name index, and nothing else of the
    disk is changed.  Copy and entry both hold the descriptor in its one
    written form: of all files of the run only they are called as copies
    are, so no object is ever put in their place.

    * **`Disk.Footprint`**: a disk after some files have been written.
    * **`Writing.Wrote.footprint`**: writing files leaves just that.
    * **`Run.copyFile_holds`**: a file that is called as copies are holds
      the descriptor.
    * **`Run.write_footprint`**: what a write that succeeds leaves. -/

namespace RunCache

open ObjectName (steps)

/-! ## Footprints -/

/-- Paths on the way to another one. -/
def Path.IsAbove (q p : Path) : Prop := ∃ dir, p.parent? = some dir ∧ q ∈ dir.ancestors

/-- A disk after files have been written under some paths: the files are there, whatever else was
    there is as it was, and whatever else is new is a directory on the way to one of the files. -/
structure Disk.Footprint (targets : List Path) (now : Int) (d d' : Disk) : Prop where
  home : d'.home = d.home
  written : ∀ p ∈ targets, ∃ bytes, d'.get? (d.place p) = some (.file bytes now)
  kept : ∀ loc e, d.get? loc = some e → (∀ p ∈ targets, loc ≠ d.place p) → d'.get? loc = some e
  new : ∀ loc e, d.get? loc = none → d'.get? loc = some e →
    (∃ p ∈ targets, loc = d.place p) ∨
      (e = .dir false ∧ ∃ p ∈ targets, ∃ q : Path, q.IsAbove p ∧ loc = d.place q)

/-- Only which paths there are counts. -/
theorem Disk.Footprint.congr {targets targets' : List Path} {now : Int} {d d' : Disk}
    (h : Disk.Footprint targets now d d') (hsame : ∀ p, p ∈ targets ↔ p ∈ targets') :
    Disk.Footprint targets' now d d' where
  home := h.home
  written p hp := h.written p ((hsame p).mpr hp)
  kept loc e hget hnot := h.kept loc e hget fun p hp => hnot p ((hsame p).mp hp)
  new loc e hnone hget := by
    rcases h.new loc e hnone hget with ⟨p, hp, hloc⟩ | ⟨he, p, hp, habove⟩
    · exact .inl ⟨p, (hsame p).mp hp, hloc⟩
    · exact .inr ⟨he, p, (hsame p).mp hp, habove⟩

/-- Writing files leaves their footprint. -/
theorem Writing.Wrote.footprint {files : List (Path × ByteArray)} {now : Int} {d d' : Disk}
    (h : Writing.Wrote files now d d') : Disk.Footprint (files.map (·.1)) now d d' where
  home := h.grows.home
  written p hp := by
    obtain ⟨f, hf, rfl⟩ := List.mem_map.mp hp
    cases hlast : lastAt? (Writing.places d files) (d.place f.1) with
    | none =>
      exact absurd rfl (lastAt_eq_none_iff.mp hlast _ (Writing.mem_places.mpr ⟨f, hf, rfl⟩))
    | some bytes => exact ⟨bytes, h.written _ bytes hlast⟩
  kept loc e hget hnot := by
    refine h.grows.kept hget ?_
    rintro ⟨f, hf, hloc⟩
    exact hnot f.1 (List.mem_map_of_mem hf) hloc
  new loc e hnone hget := by
    rcases h.grows.new hnone with hnew | ⟨⟨f, hf, dir, hdir, q, hq, hloc⟩, hmade⟩ |
        ⟨⟨f, hf, hloc⟩, _⟩
    · rw [hnew] at hget
      cases hget
    · rw [hmade] at hget
      exact .inr ⟨(Option.some.inj hget).symm, f.1, List.mem_map_of_mem hf, q, ⟨dir, hdir, hq⟩,
        hloc⟩
    · exact .inl ⟨f.1, List.mem_map_of_mem hf, hloc⟩

/-! ## Labels and names that are plain -/

/-- A text that is neither empty nor a dot nor two dots, and holds no slash of either kind. -/
def CachePath.IsPlain (s : String) : Prop :=
  s ≠ "" ∧ s ≠ "." ∧ s ≠ ".." ∧ '/' ∉ s.toList ∧ '\\' ∉ s.toList

theorem CachePath.isOneDirectory_iff {s : String} : isOneDirectory s = true ↔ IsPlain s := by
  simp only [isOneDirectory, IsPlain, ne_eq, Bool.and_eq_true, Bool.not_eq_true',
    String.isEmpty_eq_false_iff, decide_eq_true_eq, List.any_eq_false, Bool.or_eq_true, not_or]
  constructor
  · rintro ⟨⟨⟨hne, hdot⟩, hup⟩, hslash⟩
    exact ⟨hne, hdot, hup, fun hmem => (hslash _ hmem).1 rfl, fun hmem => (hslash _ hmem).2 rfl⟩
  · rintro ⟨hne, hdot, hup, hslash, hback⟩
    exact ⟨⟨⟨hne, hdot⟩, hup⟩, fun c hc => ⟨fun h => hslash (h ▸ hc), fun h => hback (h ▸ hc)⟩⟩

namespace Run

variable {store : Store} {root : Path} {r r' : Run} {w w' : World} {d : Descriptor}
  {contents : Fields ByteArray} {disk : Disk}

/-! ## The files of a run by their paths -/

/-- The path of the copy of a descriptor. -/
def copyPath (root : Path) (path : String) : Path :=
  (CachePath.ofObject root path).withFileName CachePath.copyFile

/-- The paths under which a run is written. -/
def targetPaths (root : Path) (r : Run) (path : String) (entry : Option Path) : List Path :=
  r.paths.map (CachePath.ofObject root) ++ copyPath root path :: entry.toList

/-- They are the paths of its files. -/
theorem mem_targetPaths {path : String} {f : String → ByteArray} {p : Path}
    (hdesc : r.descriptorPath = some path) :
    p ∈ (r.files root d (gathered f r.paths [])).map (·.1) ↔
      p ∈ r.targetPaths root path (indexPlace? root r.job d) := by
  have hmem : path ∈ r.paths := by simp [paths, hdesc]
  simp only [targetPaths, List.mem_append, List.mem_cons, List.mem_map,
    Option.mem_toList]
  constructor
  · rintro ⟨g, hg, rfl⟩
    cases mem_files_iff.mp hg with
    | @object q bytes h => exact .inl ⟨q, (mem_gathered_iff.mp h).1, rfl⟩
    | @copy q bytes h hq =>
      rw [hdesc, Option.getD_some] at hq
      exact .inr (.inl (by rw [hq, copyPath]))
    | @entry label hlabel hname h =>
      exact .inr (.inr (indexPlace_eq_some_iff.mpr ⟨label, h, hlabel, hname, rfl⟩))
  · rintro (⟨q, hq, rfl⟩ | rfl | hentry)
    · exact ⟨_, mem_files_iff.mpr (.object (mem_gathered_iff.mpr ⟨hq, rfl⟩)), rfl⟩
    · exact ⟨_, mem_files_iff.mpr (.copy (mem_gathered_iff.mpr ⟨hmem, rfl⟩)
        (by rw [hdesc, Option.getD_some])), rfl⟩
    · obtain ⟨label, hlabel, hone, hname, rfl⟩ := indexPlace_eq_some_iff.mp hentry
      exact ⟨_, mem_files_iff.mpr (.entry hone hname hlabel), rfl⟩

/-! ## Files that are called as copies are -/

/-- Whatever is written for a recorded run to a file that is called as copies are is the descriptor:
    objects are called otherwise. -/
theorem bytes_of_copyFile {init : List String} {f : Path × ByteArray} (h : r.IsRecorded)
    (hstays : ∀ p ∈ r.paths, ObjectName.staysInside p = true)
    (hcontents : ∀ e ∈ contents, e.1 ∈ r.paths) (hf : f ∈ r.files root d contents)
    (hplace : disk.place f.1 = disk.place root ++ (init ++ [CachePath.copyFile])) :
    f.2 = d.render := by
  cases mem_files_iff.mp hf with
  | @object p bytes hmem =>
    have hp := hcontents _ hmem
    rw [CachePath.place_ofObject (hstays p hp)] at hplace
    exact absurd (List.append_cancel_left hplace) (h.steps_ne_copy hp init)
  | copy => rfl
  | entry => rfl

/-- So once a run has been written, such a file holds the descriptor. -/
theorem copyFile_holds {init : List String} {target : Path} {now : Int} {disk' : Disk}
    (h : r.IsRecorded) (hstays : ∀ p ∈ r.paths, ObjectName.staysInside p = true)
    (hcontents : ∀ e ∈ contents, e.1 ∈ r.paths)
    (hwrote : Writing.Wrote (r.files root d contents) now disk disk')
    (hmem : (target, d.render) ∈ r.files root d contents)
    (hplace : disk.place target = disk.place root ++ (init ++ [CachePath.copyFile])) :
    disk'.readFile target = .ok d.render := by
  have hlast : lastAt? (Writing.places disk (r.files root d contents)) (disk.place target) =
      some d.render := by
    refine lastAt_of_same (Writing.mem_places.mpr ⟨_, hmem, rfl⟩) fun c hc => ?_
    obtain ⟨f, hf, heq⟩ := Writing.mem_places.mp hc
    obtain ⟨hloc, rfl⟩ := Prod.mk.inj heq
    exact bytes_of_copyFile h hstays hcontents hf (hloc.trans hplace)
  have hread := hwrote.readFile hmem hlast
  exact hread

/-! ## What has been read -/

/-- A run that has read nothing yet begins by reading its descriptor. -/
theorem descriptor_read {r₁ : Run} {w₁ : World} (hr : r.origin = .bucket [])
    (h : r.descriptor store w = (.ok d, r₁, w₁)) :
    ∃ path bytes, r.descriptorPath = some path ∧ (w.read store path).1 = .ok bytes ∧
      parseDescriptor bytes = .ok d := by
  unfold Run.descriptor at h
  split at h
  · cases h
  · next path hpath =>
    split at h
    · cases h
    · next bytes r₂ w₂ hcontent =>
      obtain ⟨hparse, _⟩ := Prod.mk.inj h
      refine ⟨path, bytes, hpath, ?_, hparse⟩
      unfold content at hcontent
      split at hcontent
      · cases hcontent
      · rw [hr] at hcontent
        simp only [bucketContent, Fields.get?, List.find?_nil, Option.map_none] at hcontent
        split at hcontent
        · cases hcontent
        · next hread =>
          rw [hread]
          exact congrArg _ (Except.ok.inj (Prod.mk.inj hcontent).1)

theorem gather_descriptor {w₁ : World} (h : r.gather store root w = (.ok (d, contents), r', w₁)) :
    ∃ r₂ w₂, r.descriptor store w = (.ok d, r₂, w₂) := by
  unfold gather at h
  split at h
  · cases h
  · next d₂ r₂ w₂ hdesc =>
    split at h
    · cases h
    · split at h
      · cases h
      · obtain ⟨rfl, _⟩ := Prod.mk.inj (Except.ok.inj (Prod.mk.inj h).1)
        exact ⟨r₂, w₂, hdesc⟩

/-- **A write has exactly its footprint.** Once a run that a scan has found is written, the copy
    beside the file of its descriptor holds what has been read of the descriptor, in its one written
    form. There is an entry in the by-name index just where the descriptor has the label and the
    label and the name are plain, and it holds the same. Whatever else was there before is
    unchanged, and whatever else is new is a directory on the way to one of these files or those of
    the objects. -/
theorem write_footprint {o : ScanOptions} {job : String} {w₀ : World} {written : Written}
    (hjob : IsName job) (hscan : r ∈ scannedRuns (scan store o job w₀).1) (hd : w.disk.IsTree)
    (h : r.write store root w = (.ok written, r', w')) :
    ∃ path bytes d, r.descriptorPath = some path ∧ (w.read store path).1 = .ok bytes ∧
      parseDescriptor bytes = .ok d ∧
      w'.disk.readFile (copyPath root path) = .ok d.render ∧
      (∀ entry, written.byName = some entry ↔ ∃ label, d.analysisLabel = some label ∧
        CachePath.IsPlain label ∧ CachePath.IsPlain d.name ∧
        entry = CachePath.ofIndexEntry root job label d.name) ∧
      (∀ entry, written.byName = some entry → w'.disk.readFile entry = .ok d.render) ∧
      Disk.Footprint (r.targetPaths root path written.byName) w.now w.disk w'.disk := by
  have hgroups := scannedRuns_groupsInto store o job w₀
  have hrecord := hgroups.records r hscan
  have hrecorded := isRecorded_of_groups hgroups hscan
  obtain rfl : r.job = job := by rw [hrecord]; rfl
  have hr : r.origin = .bucket [] := by rw [hrecord]; rfl
  obtain ⟨d, contents, w₁, hgather, hcontents, hstays, rfl, hwrote⟩ := write_gathered hr hd h
  obtain ⟨r₂, w₂, hdescriptor⟩ := gather_descriptor hgather
  obtain ⟨path, bytes, hpath, hread, hparse⟩ := descriptor_read hr hdescriptor
  -- What has been gathered are the paths of the run, each with the bytes it remembers by then.
  have hmem : ∀ e, e ∈ contents ↔ e.1 ∈ r.paths ∧ e.2 = r'.known e.1 := by
    intro e
    rw [hcontents]
    exact mem_gathered_iff
  have hpaths : ∀ e ∈ contents, e.1 ∈ r.paths := fun e he => ((hmem e).mp he).1
  have hdesc : path ∈ r.paths := by simp [paths, hpath]
  refine ⟨path, bytes, d, hpath, hread, hparse, ?_, fun entry => ?_, fun entry hentry => ?_, ?_⟩
  · obtain ⟨p, init, id, hp, hsteps⟩ := hrecorded.descriptor
    obtain rfl : p = path := Option.some.inj (hp.symm.trans hpath)
    have hsteps : steps p = (init ++ [id]) ++ [ObjectName.descriptorFile] := by
      rw [hsteps, List.append_assoc]
      rfl
    have hcopy : (copyPath root p, d.render) ∈ r.files root d contents :=
      mem_files_iff.mpr (.copy ((hmem (p, r'.known p)).mpr ⟨hdesc, rfl⟩)
        (by rw [hpath, Option.getD_some]))
    exact copyFile_holds hrecorded hstays hpaths hwrote hcopy
      (CachePath.place_copy (hstays p hdesc) hsteps w.disk root)
  · simp only [indexPlace_eq_some_iff, CachePath.isOneDirectory_iff]
  · obtain ⟨label, hlabel, hone, hname, rfl⟩ := indexPlace_eq_some_iff.mp hentry
    have hplace := CachePath.place_ofIndexEntry (Path.head_ne_slash hjob.2.2.2)
      (by rw [steps_of_isName hjob]; simpa using hjob) hone hname w.disk root
    have hend : CachePath.indexNames r.job label d.name =
        (CachePath.indexRoot :: (steps r.job ++ [label, d.name])) ++ [CachePath.copyFile] := by
      simp [CachePath.indexNames]
    exact copyFile_holds hrecorded hstays hpaths hwrote
      (mem_files_iff.mpr (.entry hone hname hlabel)) (hplace.trans (by rw [hend]))
  · refine hwrote.footprint.congr fun p => ?_
    rw [hcontents]
    exact mem_targetPaths hpath

/-- A run with an entry in the by-name index has been found and is written. -/
theorem write_footprint_labelled :
    ∃ r r' w' written entry path, ∃ d : Descriptor,
      r ∈ scannedRuns (scan labelledRun.store {} "job" { disk := {} }).1 ∧
      r.write labelledRun.store ⟨"/work"⟩ { disk := {} } = (.ok written, r', w') ∧
      written.byName = some entry ∧ w'.disk.readFile entry = .ok d.render ∧
      w'.disk.readFile (copyPath ⟨"/work"⟩ path) = .ok d.render ∧
      Disk.Footprint (r.targetPaths ⟨"/work"⟩ path (some entry)) 0 {} w'.disk := by
  generalize hw : ({ disk := {} } : World) = w
  generalize hruns : scannedRuns (scan labelledRun.store {} "job" w).1 = runs
  have hone : runs.length = 1 := by
    subst hruns hw
    decide +kernel
  have hindexed : (runs.all fun r =>
      (r.write labelledRun.store ⟨"/work"⟩ w).1.toOption.any (·.byName.isSome)) = true := by
    subst hruns hw
    decide +kernel
  obtain ⟨r, rfl⟩ := List.length_eq_one_iff.mp hone
  rw [List.all_cons, List.all_nil, Bool.and_true] at hindexed
  have hmem : r ∈ scannedRuns (scan labelledRun.store {} "job" w).1 := by rw [hruns]; simp
  have hd : w.disk.IsTree := by rw [← hw]; exact Disk.IsTree.empty
  cases hwrite : r.write labelledRun.store ⟨"/work"⟩ w with
  | mk result rest =>
    obtain ⟨r', w'⟩ := rest
    rw [hwrite] at hindexed
    cases result with
    | error e => cases hindexed
    | ok written =>
      obtain ⟨entry, hentry⟩ := Option.isSome_iff_exists.mp hindexed
      obtain ⟨path, _, d, _, _, _, hcopy, _, hholds, hfoot⟩ :=
        write_footprint (by decide) hmem hd hwrite
      rw [hentry] at hfoot
      subst hw
      exact ⟨r, r', w', written, entry, path, d, by simp, hwrite, hentry, hholds entry hentry,
        hcopy, hfoot⟩

end Run

end RunCache
