import RunCache.Proofs.Cache.Contents
import RunCache.Proofs.Cache.Files
import RunCache.Proofs.Scan.Records

/-! # The files of a run, from the cache on

    The names that lead from the cache to the files of a run do not depend
    on where the cache is.

    * **`Run.IsRecorded`**: runs as a scan makes them, under whatever names.
    * **`Run.IsListed`**: those whose objects lie below their job.
    * **`Run.below`**: the files of a run by the names that lead to them.
    * **`Run.map_place_files`**: these names lead there from the place of
      the cache. -/

namespace RunCache

open ObjectName (steps)

namespace Run

/-! ## Runs that are listed -/

/-- A run as a scan makes it, whatever the store lists: its objects are told by the ends of their
    names. -/
structure IsRecorded (r : Run) : Prop where
  descriptor : ∃ p init id, r.descriptorPath = some p ∧
    steps p = init ++ [id, ObjectName.descriptorFile]
  results : ∀ p ∈ r.resultPaths, ObjectName.isTestResult p = true

/-- A run that some objects hold is recorded. -/
theorem isRecorded_of_groups {o : ScanOptions} {now : Int} {job : String} {xs : List Listed}
    {runs : List Run} {r : Run} (h : GroupsInto o now job xs runs) (hr : r ∈ runs) :
    r.IsRecorded := by
  have hrecord := h.records r hr
  refine ⟨?_, fun p hp => ?_⟩
  · obtain ⟨x, hx, hdesc⟩ := (h.ids r.id).mp ⟨r, hr, rfl⟩
    obtain ⟨p, hp⟩ : ∃ p, r.descriptorPath = some p := by
      rw [← Option.isSome_iff_exists, hrecord]
      simpa [ScanOptions.record] using ⟨x, hx, hdesc⟩
    obtain ⟨y, _, rfl, _, hkind, _⟩ := ScanOptions.listed_descriptorPath (hrecord ▸ hp)
    obtain ⟨hid, init, hsegs⟩ := ObjectKind.ofName_eq_descriptor hkind
    refine ⟨y.name, init.filter (!·.isEmpty), r.id, hp, ?_⟩
    -- Neither the id nor the file is empty, so both are steps.
    have hfile : ObjectName.descriptorFile.isEmpty = false := by decide
    rw [steps, hsegs, List.filter_append]
    simp [hid, hfile]
  · rw [hrecord] at hp
    obtain ⟨x, hx, rfl⟩ := List.mem_map.mp hp
    have hcounts := (List.mem_filter.mp hx).2
    obtain ⟨_, hkind, _⟩ := of_decide_eq_true hcounts
    exact (ObjectKind.ofName_eq_result hkind).1

/-- No object of a recorded run is called as copies of descriptors are. -/
theorem IsRecorded.steps_ne_copy {r : Run} {p : String} (h : r.IsRecorded) (hp : p ∈ r.paths)
    (init : List String) : steps p ≠ init ++ [CachePath.copyFile] := by
  intro heq
  rcases List.mem_append.mp hp with hdesc | hresult
  · obtain ⟨q, init', id, hq, hsteps⟩ := h.descriptor
    have hpq : q = p := Option.some.inj (hq.symm.trans (Option.mem_toList.mp hdesc))
    have hfile : (init' ++ [id]) ++ [ObjectName.descriptorFile] = init ++ [CachePath.copyFile] := by
      rw [← heq, ← hpq, hsteps, List.append_assoc]
      rfl
    exact absurd (List.append_inj' hfile rfl).2 (by decide)
  · have hend := ObjectName.endsWith_of_isTestResult (h.results p hresult) heq
    exact absurd hend (by decide)

/-- A run as a scan of its job makes it: its objects lie below the job, and are told by the ends of
    their names. -/
structure IsListed (r : Run) : Prop where
  below : ∀ p ∈ r.paths, ∃ tail, steps p = ObjectName.logsRoot :: (steps r.job ++ tail)
  descriptor : ∃ p init id, r.descriptorPath = some p ∧
    steps p = init ++ [id, ObjectName.descriptorFile]
  results : ∀ p ∈ r.resultPaths, ObjectName.isTestResult p = true

/-- A run that some objects inside the query for a job hold is listed. -/
theorem isListed_of_groups {o : ScanOptions} {now : Int} {job : String} {offset : Option String}
    {xs : List Listed} {runs : List Run} {r : Run} (h : GroupsInto o now job xs runs)
    (hadmits : ∀ x ∈ xs, Query.admits ⟨ObjectName.ofJob job, offset⟩ x.name = true)
    (hr : r ∈ runs) : r.job = job ∧ r.IsListed := by
  have hrecord := h.records r hr
  have hjob : r.job = job := by rw [hrecord]; rfl
  obtain ⟨hdesc, hresults⟩ := isRecorded_of_groups h hr
  refine ⟨hjob, fun p hp => ?_, hdesc, hresults⟩
  rw [hrecord] at hp
  obtain ⟨x, hx, rfl, _⟩ := ScanOptions.listed_paths hp
  obtain ⟨tail, htail⟩ := ObjectName.steps_of_admits (hadmits x hx)
  exact ⟨tail, by rw [htail, hjob]⟩

/-- A run that a scan has found is listed. -/
theorem isListed_of_scanned {store : Store} {o : ScanOptions} {job : String} {w : World} {r : Run}
    (hstore : store.ListsInside) (hr : r ∈ scannedRuns (scan store o job w).1) :
    r.job = job ∧ r.IsListed :=
  isListed_of_groups (scannedRuns_groupsInto store o job w)
    (fun _ hx => admits_of_mem_listedBefore hstore hx) hr

namespace IsListed

variable {r : Run} {p : String}

theorem job_isName (h : r.IsListed) (hstays : ∀ p ∈ r.paths, ObjectName.staysInside p = true) :
    ∀ s ∈ steps r.job, IsName s := by
  obtain ⟨p, _, _, hdesc, _⟩ := h.descriptor
  have hp : p ∈ r.paths := by simp [paths, hdesc]
  obtain ⟨tail, htail⟩ := h.below p hp
  intro s hs
  refine .of_mem_steps (hstays p hp) ?_
  rw [htail]
  exact List.mem_cons_of_mem _ (List.mem_append_left _ hs)

/-- No object of a listed run is called as copies of descriptors are. -/
theorem steps_ne_copy (h : r.IsListed) (hp : p ∈ r.paths) (init : List String) :
    steps p ≠ init ++ [CachePath.copyFile] :=
  IsRecorded.steps_ne_copy ⟨h.descriptor, h.results⟩ hp init

end IsListed

/-! ## Files by the names that lead to them -/

/-- The names that lead from the cache to the entry of a descriptor in the by-name index. -/
def indexNames? (job : String) (d : Descriptor) : Option (List String) :=
  match d.analysisLabel with
  | some label =>
    if CachePath.isOneDirectory label && CachePath.isOneDirectory d.name then
      some (CachePath.indexNames job label d.name)
    else none
  | none => none

/-- The files of an object and of the copy beside a descriptor, from the cache on. -/
def belowOf (descriptorPath : String) (normalized : ByteArray) (path : String)
    (bytes : ByteArray) : List (List String × ByteArray) :=
  (steps path, bytes) ::
    if path = descriptorPath then [((steps path).dropLast ++ [CachePath.copyFile], normalized)]
    else []

/-- The files of a run, by the names that lead to them from the cache. -/
def below (r : Run) (d : Descriptor) (contents : Fields ByteArray) :
    List (List String × ByteArray) :=
  contents.flatMap (fun e => belowOf (r.descriptorPath.getD "") d.render e.1 e.2) ++
    (indexNames? r.job d).toList.map fun names => (names, d.render)

variable {r : Run} {root : Path} {d : Descriptor} {contents : Fields ByteArray}

theorem map_place_indexPlace {job : String} (hhead : job.toList.head? ≠ some '/')
    (hjob : ∀ s ∈ steps job, IsName s) (disk : Disk) (root : Path) (d : Descriptor) :
    (indexPlace? root job d).map disk.place =
      (indexNames? job d).map fun names => disk.place root ++ names := by
  unfold indexPlace? indexNames?
  cases d.analysisLabel with
  | none => rfl
  | some label =>
    by_cases hplain : (CachePath.isOneDirectory label && CachePath.isOneDirectory d.name) = true
    · obtain ⟨hlabel, hname⟩ := Bool.and_eq_true_iff.mp hplain
      simp only [hplain, if_true, Option.map_some]
      rw [CachePath.place_ofIndexEntry hhead hjob hlabel hname]
    · simp [hplain]

/-- The files of a run lie where their names lead from the place of the cache. -/
theorem map_place_files (h : r.IsListed) (hhead : r.job.toList.head? ≠ some '/')
    (hstays : ∀ p ∈ r.paths, ObjectName.staysInside p = true)
    (hcontents : ∀ e ∈ contents, e.1 ∈ r.paths) (disk : Disk) (root : Path) :
    (r.files root d contents).map (fun f => (disk.place f.1, f.2)) =
      (r.below d contents).map fun f => (disk.place root ++ f.1, f.2) := by
  rw [files, below, List.map_append, List.map_append, List.map_flatMap, List.map_flatMap]
  refine congrArg₂ (· ++ ·) ?_ ?_
  · refine List.flatMap_congr fun e he => ?_
    have hin := hstays e.1 (hcontents e he)
    unfold filesOf belowOf
    rw [List.map_cons, List.map_cons, CachePath.place_ofObject hin]
    by_cases hdesc : e.1 = r.descriptorPath.getD ""
    · obtain ⟨p, init, id, hp, hsteps⟩ := h.descriptor
      have hpath : e.1 = p := by rw [hdesc, hp, Option.getD_some]
      have hsteps : steps e.1 = (init ++ [id]) ++ [ObjectName.descriptorFile] := by
        rw [hpath, hsteps, List.append_assoc]
        rfl
      rw [if_pos hdesc, if_pos hdesc, List.map_singleton, List.map_singleton,
        CachePath.place_copy hin hsteps, hsteps, List.dropLast_concat]
    · rw [if_neg hdesc, if_neg hdesc]
      rfl
  · have hindex := map_place_indexPlace hhead (h.job_isName hstays) disk root d
    rw [List.map_map, List.map_map]
    revert hindex
    cases indexPlace? root r.job d <;> cases indexNames? r.job d <;> simp

end Run

end RunCache
