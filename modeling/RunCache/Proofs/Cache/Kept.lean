import RunCache.Proofs.Cache.Contents
import RunCache.Proofs.Cache.Files
import RunCache.Proofs.Cache.Holding
import RunCache.Proofs.Scan.Served

/-! # Runs of a bucket in the cache

    What is written for a run of a bucket whose objects stay is known
    beforehand, whichever calls fail.

    * **`Run.writes`**: the files of a run, by the objects of the bucket.
    * **`Run.write_cases`**: a write fails before the first of them, or it
      writes them, as far as the disk allows.
    * **`Run.IsCached`**: a disk holds all files of a run. -/

namespace RunCache

namespace Run

variable {store : Store} {m : Memory} {root : Path} {r r' : Run} {w w' : World}

/-! ## What a run of a bucket remembers -/

/-- A run remembers nothing but what the objects of a bucket hold. -/
def Knows (m : Memory) (r : Run) : Prop :=
  ∀ path bytes, r.memo.get? path = some bytes → bytes = m.bytes path

theorem content_knows (hstore : store.Serves m) (path : String) (r : Run) (w : World)
    (hr : r.Knows m) : (r.content store path w).2.1.Knows m := by
  unfold content
  split
  · exact hr
  · split
    · next memo horigin =>
      unfold bucketContent
      split
      · exact hr
      · split
        · exact hr
        · next bytes w' hread =>
          intro key b hget
          have hmemo : r.memo = memo := by rw [Run.memo, horigin]
          have hget : (memo.insert path bytes).get? key = some b := hget
          rw [Fields.get_insert] at hget
          by_cases hkey : path = key
          · rw [if_pos hkey] at hget
            rw [← Option.some.inj hget, ← hkey]
            exact hstore.reads w path bytes (World.outcome_of_call hread)
          · rw [if_neg hkey, ← hmemo] at hget
            exact hr key b hget
    · exact hr

theorem gathered_congr {f g : String → ByteArray} {paths : List String}
    (h : ∀ p ∈ paths, f p = g p) (contents : Fields ByteArray) :
    gathered f paths contents = gathered g paths contents := by
  induction paths generalizing contents with
  | nil => rfl
  | cons path rest ih =>
    show gathered f rest (contents.insert path (f path)) =
      gathered g rest (contents.insert path (g path))
    rw [h path (by simp)]
    exact ih (fun p hp => h p (List.mem_cons_of_mem _ hp)) _

/-! ## What is written for a run -/

/-- The files of a run, by the objects of a bucket; none where its descriptor cannot be read. -/
def writes (root : Path) (m : Memory) (r : Run) : List (Path × ByteArray) :=
  match r.descriptorPath.map fun path => parseDescriptor (m.bytes path) with
  | some (.ok d) => r.files root d (gathered m.bytes r.paths [])
  | _ => []

theorem mem_writes_iff {f : Path × ByteArray} :
    f ∈ r.writes root m ↔ ∃ path d, r.descriptorPath = some path ∧
      parseDescriptor (m.bytes path) = .ok d ∧
      IsFile root r d (gathered m.bytes r.paths []) f := by
  unfold writes
  cases r.descriptorPath with
  | none => simp
  | some path =>
    cases hparse : parseDescriptor (m.bytes path) with
    | error e => simp [hparse]
    | ok d => simp [hparse, mem_files_iff]

/-- What has been gathered for a run of a bucket is what its objects hold. -/
theorem gather_bytes {d : Descriptor} {contents : Fields ByteArray} (hstore : store.Serves m)
    (hr : r.origin = .bucket []) (h : r.gather store root w = (.ok (d, contents), r', w')) :
    (∃ path, r.descriptorPath = some path ∧ parseDescriptor (m.bytes path) = .ok d) ∧
      contents = gathered m.bytes r.paths [] := by
  have hstart : r.Knows m := by
    intro key b hget
    rw [Run.memo, hr] at hget
    cases hget
  have hknows := gather_invariant (P := fun r _ => r.Knows m)
    (fun path r w => content_knows hstore path r w) (w := w) root hstart
  rw [h] at hknows
  obtain ⟨⟨path, hpath, hparse⟩, hcontents, hall, _⟩ := gather_ok hr h
  -- Every path has been read, and what is remembered is what the objects hold.
  have hbytes : ∀ p ∈ r.paths, r'.known p = m.bytes p := by
    intro p hp
    obtain ⟨b, hget⟩ := Option.isSome_iff_exists.mp (hall p hp).2
    rw [known, hget, Option.getD_some]
    exact hknows p b hget
  rw [gathered_congr hbytes] at hcontents
  rw [hbytes path (by simp [paths, hpath])] at hparse
  exact ⟨⟨path, hpath, hparse⟩, hcontents⟩

/-- The files made of what has been gathered are those that the objects make. -/
theorem gather_writes {d : Descriptor} {contents : Fields ByteArray} (hstore : store.Serves m)
    (hr : r.origin = .bucket []) (h : r.gather store root w = (.ok (d, contents), r', w')) :
    r.files root d contents = r.writes root m ∧ r.writes root m ≠ [] ∧
      ∀ p ∈ r.paths, ObjectName.staysInside p = true := by
  obtain ⟨⟨path, hpath, hparse⟩, hcontents⟩ := gather_bytes hstore hr h
  have hmem : path ∈ r.paths := by simp [paths, hpath]
  have hfiles : r.writes root m = r.files root d contents := by
    rw [writes, hpath, Option.map_some, hparse, hcontents]
  refine ⟨hfiles.symm, ?_, fun p hp => ?_⟩
  · have hobject : (CachePath.ofObject root path, m.bytes path) ∈ r.writes root m := by
      rw [hfiles, mem_files_iff, hcontents]
      exact .object (mem_gathered_iff.mpr ⟨hmem, rfl⟩)
    exact List.ne_nil_of_mem hobject
  · have hentry : (p, m.bytes p) ∈ contents := by
      rw [hcontents]
      exact mem_gathered_iff.mpr ⟨hp, rfl⟩
    exact staysInside_of_escaping (gather_stays h) hentry

/-- Writing a run fails before its first file, or it comes to write what its objects make, and then
    it succeeds just where all these files could be written. -/
theorem write_cases {result : Except Error Written} (hstore : store.Serves m)
    (hr : r.origin = .bucket []) (h : r.write store root w = (result, r', w')) :
    (∃ e, result = .error e ∧ w'.disk = w.disk) ∨
      (r.writes root m ≠ [] ∧ (∀ p ∈ r.paths, ObjectName.staysInside p = true) ∧
        ((∃ e, result = .error e ∧
            writeAll w.disk w.now (r.writes root m) = (.error e, w'.disk)) ∨
          ∃ written, result = .ok written ∧
            writeAll w.disk w.now (r.writes root m) = (.ok (), w'.disk))) := by
  rcases hgather : r.gather store root w with ⟨gathered, r₁, w₁⟩
  cases gathered with
  | error e =>
    rw [write_eq, hgather] at h
    obtain ⟨rfl, _, rfl⟩ := by simpa using h
    exact .inl ⟨e, rfl, (gather_leaves hgather).1⟩
  | ok gathered =>
    obtain ⟨d, contents⟩ := gathered
    obtain ⟨hfiles, hne, hstays⟩ := gather_writes hstore hr hgather
    -- Every file is known before the first one is written, so the failure is one of `writeAll`.
    rcases hwrite : writeAll w.disk w.now (r.files root d contents) with ⟨written, disk⟩
    rw [write_of_gather hgather hwrite] at h
    rw [hfiles] at hwrite
    obtain ⟨rfl, hrest⟩ := Prod.mk.inj h
    obtain ⟨_, rfl⟩ := Prod.mk.inj hrest
    refine .inr ⟨hne, hstays, ?_⟩
    cases written with
    | error e => exact .inl ⟨e, rfl, hwrite⟩
    | ok u => exact .inr ⟨_, rfl, hwrite⟩

/-- Every file of a run whose names stay inside lies below the cache. -/
theorem writes_isRooted (hroot : root.IsRooted) (hjob : IsName r.job)
    (hstays : ∀ p ∈ r.paths, ObjectName.staysInside p = true) :
    ∀ f ∈ r.writes root m, f.1.IsRooted := by
  intro f hf
  obtain ⟨path, d, _, _, hfile⟩ := mem_writes_iff.mp hf
  refine files_isRooted hroot hjob ?_ f (mem_files_iff.mpr hfile)
  rw [escaping?, List.find?_eq_none]
  intro p hp
  obtain ⟨⟨_, bytes⟩, he, rfl⟩ := List.mem_map.mp hp
  simpa using hstays _ (mem_gathered_iff.mp he).1

/-! ## Runs that are cached -/

/-- A disk holds all files of a run. Where runs share a file, it has what some of them put there. -/
structure IsCached (root : Path) (m : Memory) (runs : List Run) (d : Disk) (r : Run) : Prop where
  writes : r.writes root m ≠ []
  holds : ∀ f ∈ r.writes root m, d.Holds (runs.flatMap (Run.writes root m)) f.1

/-- Files that are held stay held while a run is written, and then those of the run are held. -/
theorem write_holds {files : List (Path × ByteArray)} {written : Written} (hstore : store.Serves m)
    (hr : r.origin = .bucket []) (hsub : r.writes root m ⊆ files)
    (h : r.write store root w = (.ok written, r', w')) :
    r.writes root m ≠ [] ∧ (∀ p ∈ r.paths, ObjectName.staysInside p = true) ∧
      (∀ p, w.disk.Holds files p → w'.disk.Holds files p) ∧
      ∀ f ∈ r.writes root m, w'.disk.Holds files f.1 := by
  rcases write_cases hstore hr h with ⟨e, he, _⟩ | ⟨hne, hstays, ⟨e, he, _⟩ | ⟨_, _, hall⟩⟩
  · cases he
  · cases he
  · obtain ⟨x, hfiles, hdisk⟩ := writeAll_ok hall
    refine ⟨hne, hstays, fun p hp => ?_, ?_⟩
    · have hkept := Writing.files_keep w.now (x := Writing.mk w.disk []) hp hsub
      rw [hfiles] at hkept
      rwa [hdisk]
    · rw [hdisk]
      exact Writing.files_hold hfiles hsub

end Run

end RunCache
