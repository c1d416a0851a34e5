import RunCache.Proofs.Cache.Below
import RunCache.Proofs.Cache.Filling
import RunCache.Proofs.Cache.Kept

/-! # The files of runs by their names

    What is written for runs of a job with a plain name can be told by names
    from the cache on, the same for every cache.

    * **`Run.IsInside`**: such runs.
    * **`Run.keeps`**: the files of a run by the names that lead to them.
    * **`Run.writes_eq_targets`**: these are the files that are written.
    * **`Run.lastAt_object`**: where each object has a file of its own, that
      file holds it last. -/

namespace RunCache

open ObjectName (steps)

namespace Run

variable {r : Run} {m : Memory} {root : Path} {d : Descriptor} {contents : Fields ByteArray}
  {p : String} {f : List String × ByteArray}

/-- A run as a scan of a job with a plain name makes it, whose objects stay inside the cache. -/
structure IsInside (r : Run) : Prop where
  listed : r.IsListed
  job : IsName r.job
  below : ∀ p ∈ r.paths, ∃ tail, tail ≠ [] ∧ steps p = ObjectName.logsRoot :: r.job :: tail
  stays : ∀ p ∈ r.paths, ObjectName.staysInside p = true

theorem steps_of_isName {s : String} (hs : IsName s) : steps s = [s] := by
  rw [steps, Text.segments_of_no_slash hs.2.2.2]
  simp [hs.1]

/-! ## Paths and names -/

/-- The entry of a descriptor in the by-name index is where its names lead to. -/
theorem indexPlace_eq {job : String} (hjob : IsName job) (root : Path) (d : Descriptor) :
    indexPlace? root job d = (indexNames? job d).map fun names => names.foldl Path.join root := by
  unfold indexPlace? indexNames?
  cases d.analysisLabel with
  | none => rfl
  | some label =>
    simp only
    split
    · rw [CachePath.ofIndexEntry_eq, CachePath.indexNames, steps_of_isName hjob]
      rfl
    · rfl

/-- The files of a run are those that their names lead to. -/
theorem files_eq_targets (h : r.IsInside) (hcontents : ∀ e ∈ contents, e.1 ∈ r.paths) :
    r.files root d contents = targets root (r.below d contents) := by
  rw [files, below, targets_append]
  refine congrArg₂ (· ++ ·) ?_ ?_
  · rw [targets, List.map_flatMap]
    refine List.flatMap_congr fun e he => ?_
    unfold filesOf belowOf
    rw [List.map_cons, CachePath.ofObject_eq]
    refine congrArg _ ?_
    by_cases hdesc : e.1 = r.descriptorPath.getD ""
    · obtain ⟨q, init, id, hq, hsteps⟩ := h.listed.descriptor
      have hpath : e.1 = q := by rw [hdesc, hq, Option.getD_some]
      have hsteps : steps e.1 = (init ++ [id]) ++ [ObjectName.descriptorFile] := by
        rw [hpath, hsteps, List.append_assoc]
        rfl
      have hnames : ∀ s ∈ (init ++ [id]) ++ [ObjectName.descriptorFile], IsName s := by
        rw [← hsteps]
        exact fun s hs => .of_mem_steps (h.stays e.1 (hcontents e he)) hs
      rw [if_pos hdesc, if_pos hdesc, List.map_singleton, hsteps,
        Path.withFileName_concat hnames (by simp), List.dropLast_concat]
    · rw [if_neg hdesc, if_neg hdesc]
      rfl
  · rw [indexPlace_eq h.job, targets, List.map_map, Option.toList_map, List.map_map]
    rfl

/-- The descriptor of a run, by the objects of a bucket, if it can be read. -/
def parsed? (m : Memory) (r : Run) : Option Descriptor :=
  r.descriptorPath.bind fun path => (parseDescriptor (m.bytes path)).toOption

theorem parsed_eq_some_iff : r.parsed? m = some d ↔
    ∃ path, r.descriptorPath = some path ∧ parseDescriptor (m.bytes path) = .ok d := by
  unfold parsed?
  rw [Option.bind_eq_some_iff]
  refine exists_congr fun path => and_congr_right fun _ => ?_
  cases parseDescriptor (m.bytes path) <;> simp [Except.toOption]

/-- The files of a run by the names that lead to them, by the objects of a bucket; none where its
    descriptor cannot be read. -/
def keeps (m : Memory) (r : Run) : List (List String × ByteArray) :=
  (r.parsed? m).elim [] fun d => r.below d (gathered m.bytes r.paths [])

/-- Whether a run has an entry in the by-name index. -/
def isIndexed (m : Memory) (r : Run) : Bool :=
  (r.parsed? m).any fun d => (indexNames? r.job d).isSome

theorem keeps_of_parsed (h : r.parsed? m = some d) :
    r.keeps m = r.below d (gathered m.bytes r.paths []) := by
  rw [keeps, h]
  rfl

/-- What is written for a run is what its names lead to. -/
theorem writes_eq_targets (h : r.IsInside) (root : Path) (m : Memory) :
    r.writes root m = targets root (r.keeps m) := by
  cases hparsed : r.parsed? m with
  | some d =>
    obtain ⟨path, hpath, hparse⟩ := parsed_eq_some_iff.mp hparsed
    rw [keeps_of_parsed hparsed, writes, hpath, Option.map_some, hparse]
    exact files_eq_targets h fun e he => (mem_gathered_iff.mp he).1
  | none =>
    have hnone : r.writes root m = [] := by
      unfold writes
      split
      · next d heq =>
        obtain ⟨path, hpath, hparse⟩ := Option.map_eq_some_iff.mp heq
        rw [parsed_eq_some_iff.mpr ⟨path, hpath, hparse⟩] at hparsed
        cases hparsed
      · rfl
    rw [hnone, keeps, hparsed]
    rfl

theorem isSome_indexPlace {job : String} :
    (indexPlace? root job d).isSome = (indexNames? job d).isSome := by
  unfold indexPlace? indexNames?
  cases d.analysisLabel with
  | none => rfl
  | some label =>
    simp only
    split <;> rfl

theorem indexNames_eq_some {job : String} {names : List String}
    (h : indexNames? job d = some names) : ∃ label, d.analysisLabel = some label ∧
      CachePath.isOneDirectory label = true ∧ CachePath.isOneDirectory d.name = true ∧
      names = CachePath.indexNames job label d.name := by
  unfold indexNames? at h
  split at h
  · next label heq =>
    split at h
    · next hinside =>
      obtain ⟨hlabel, hname⟩ := Bool.and_eq_true_iff.mp hinside
      exact ⟨label, heq, hlabel, hname, (Option.some.inj h).symm⟩
    · cases h
  · cases h

/-! ## What the files are -/

namespace IsInside

theorem isName_of_mem_steps (h : r.IsInside) (hp : p ∈ r.paths) : ∀ s ∈ steps p, IsName s :=
  fun _ hs => .of_mem_steps (h.stays p hp) hs

/-- A file of a run is that of an object, a copy of a descriptor, or an entry of the by-name
    index. -/
theorem mem_keeps (h : r.IsInside) (hf : f ∈ r.keeps m) :
    (∃ p ∈ r.paths, f = (steps p, m.bytes p)) ∨
      (∃ init, f.1 = ObjectName.logsRoot :: r.job :: (init ++ [CachePath.copyFile]) ∧
        ∀ s ∈ init, IsName s) ∨
      ∃ more, f.1 = CachePath.indexRoot :: more ∧ ∀ s ∈ more, IsName s := by
  cases hparsed : r.parsed? m with
  | none =>
    rw [keeps, hparsed] at hf
    cases hf
  | some d =>
    rw [keeps_of_parsed hparsed] at hf
    rcases List.mem_append.mp hf with hf | hf
    · -- The file of an object, or the copy beside it.
      obtain ⟨e, he, hf⟩ := List.mem_flatMap.mp hf
      obtain ⟨hmem, hbytes⟩ := mem_gathered_iff.mp he
      rcases List.mem_cons.mp hf with rfl | hf
      · exact .inl ⟨e.1, hmem, by rw [hbytes]⟩
      · split at hf
        · obtain rfl := List.mem_singleton.mp hf
          obtain ⟨tail, hne, htail⟩ := h.below e.1 hmem
          refine .inr (.inl ⟨tail.dropLast, ?_, fun s hs => h.isName_of_mem_steps hmem s ?_⟩)
          · rw [htail, List.dropLast_cons_of_ne_nil (by simp), List.dropLast_cons_of_ne_nil hne]
            rfl
          · rw [htail]
            exact List.mem_cons_of_mem _ (List.mem_cons_of_mem _ (List.dropLast_subset _ hs))
        · cases hf
    · obtain ⟨names, hnames, rfl⟩ := List.mem_map.mp hf
      obtain ⟨label, _, hlabel, hone, rfl⟩ := indexNames_eq_some (Option.mem_toList.mp hnames)
      refine .inr (.inr ⟨_, rfl, fun s hs => ?_⟩)
      rw [steps_of_isName h.job] at hs
      exact CachePath.isName_of_mem_indexEntry h.job hlabel hone
        (List.mem_cons_of_mem _ hs)

theorem names_of_mem_keeps (h : r.IsInside) (hf : f ∈ r.keeps m) :
    f.1 ≠ [] ∧ ∀ s ∈ f.1, IsName s := by
  rcases h.mem_keeps hf with ⟨p, hp, rfl⟩ | ⟨init, hinit, hnames⟩ | ⟨more, hmore, hnames⟩
  · obtain ⟨tail, _, htail⟩ := h.below p hp
    refine ⟨?_, h.isName_of_mem_steps hp⟩
    simp only
    rw [htail]
    simp
  · rw [hinit]
    refine ⟨by simp, fun s hs => ?_⟩
    rcases List.mem_cons.mp hs with rfl | hs
    · exact CachePath.isName_logsRoot
    · rcases List.mem_cons.mp hs with rfl | hs
      · exact h.job
      rcases List.mem_append.mp hs with hs | hs
      · exact hnames s hs
      · rw [List.mem_singleton.mp hs]
        exact CachePath.isName_copyFile
  · rw [hmore]
    refine ⟨by simp, fun s hs => ?_⟩
    rcases List.mem_cons.mp hs with rfl | hs
    · exact CachePath.isName_indexRoot
    · exact hnames s hs

/-- What a run has among the logs lies below its job. -/
theorem below_job_of_mem_keeps (h : r.IsInside) (hf : f ∈ r.keeps m)
    (hlogs : f.1.head? = some ObjectName.logsRoot) :
    ∃ rel, rel ≠ [] ∧ f.1 = ObjectName.logsRoot :: r.job :: rel := by
  rcases h.mem_keeps hf with ⟨p, hp, rfl⟩ | ⟨init, hinit, _⟩ | ⟨more, hmore, _⟩
  · exact h.below p hp
  · exact ⟨_, by simp, hinit⟩
  · rw [hmore] at hlogs
    exact absurd (Option.some.inj hlogs) (by decide)

/-- What a run has in the by-name index is the entry of its descriptor. -/
theorem entry_of_mem_keeps (h : r.IsInside) (hf : f ∈ r.keeps m)
    (hindex : f.1.head? = some CachePath.indexRoot) :
    ∃ d, r.parsed? m = some d ∧ indexNames? r.job d = some f.1 ∧ f.2 = d.render := by
  cases hparsed : r.parsed? m with
  | none =>
    rw [keeps, hparsed] at hf
    cases hf
  | some d =>
    refine ⟨d, rfl, ?_⟩
    rw [keeps_of_parsed hparsed] at hf
    rcases List.mem_append.mp hf with hf | hf
    · -- Objects and copies lie among the logs.
      obtain ⟨e, he, hf⟩ := List.mem_flatMap.mp hf
      obtain ⟨tail, hne, htail⟩ := h.below e.1 (mem_gathered_iff.mp he).1
      have hlogs : f.1.head? = some ObjectName.logsRoot := by
        rcases List.mem_cons.mp hf with rfl | hf
        · exact congrArg List.head? htail
        · split at hf
          · obtain rfl := List.mem_singleton.mp hf
            rw [htail, List.dropLast_cons_of_ne_nil (by simp)]
            rfl
          · cases hf
      rw [hlogs] at hindex
      exact absurd (Option.some.inj hindex) (by decide)
    · obtain ⟨names, hnames, rfl⟩ := List.mem_map.mp hf
      exact ⟨Option.mem_toList.mp hnames, rfl⟩

/-- The entry of a descriptor that can be read is among the files of the run. -/
theorem entry_mem_keeps {names : List String} (hparsed : r.parsed? m = some d)
    (hnames : indexNames? r.job d = some names) : (names, d.render) ∈ r.keeps m := by
  rw [keeps_of_parsed hparsed, Run.below, hnames]
  exact List.mem_append_right _ (by simp)

/-- Each object of a run whose descriptor can be read is among its files. -/
theorem object_mem_keeps (hparsed : r.parsed? m = some d) (hp : p ∈ r.paths) :
    (steps p, m.bytes p) ∈ r.keeps m := by
  rw [keeps_of_parsed hparsed, Run.below]
  refine List.mem_append_left _ (List.mem_flatMap.mpr ⟨(p, m.bytes p), ?_, List.mem_cons_self⟩)
  exact mem_gathered_iff.mpr ⟨hp, rfl⟩

end IsInside

/-! ## Runs together -/

variable {runs : List Run}

/-- Where objects are named without empty segments, the file of each holds it last. -/
theorem lastAt_object (hinside : ∀ r ∈ runs, r.IsInside)
    (hsegs : ∀ r ∈ runs, ∀ p ∈ r.paths, "" ∉ Text.segments p) (hr : r ∈ runs)
    (hparsed : r.parsed? m = some d) (hp : p ∈ r.paths) :
    lastAt? (runs.flatMap (Run.keeps m)) (steps p) = some (m.bytes p) := by
  cases hlast : lastAt? (runs.flatMap (Run.keeps m)) (steps p) with
  | none =>
    refine absurd rfl (lastAt_eq_none_iff.mp hlast (steps p, m.bytes p) ?_)
    exact List.mem_flatMap.mpr ⟨r, hr, IsInside.object_mem_keeps hparsed hp⟩
  | some bytes =>
    -- Whatever is written to this file is the object itself.
    obtain ⟨t, ht, hmem⟩ := List.mem_flatMap.mp (mem_of_lastAt hlast)
    rcases (hinside t ht).mem_keeps hmem with ⟨q, hq, heq⟩ | ⟨init, hinit, _⟩ | ⟨more, hmore, _⟩
    · obtain ⟨hsteps, rfl⟩ := Prod.mk.inj heq
      rw [ObjectName.steps_eq_segments (hsegs r hr p hp),
        ObjectName.steps_eq_segments (hsegs t ht q hq)] at hsteps
      have hname := congrArg Text.joined hsteps
      rw [Text.joined_segments, Text.joined_segments] at hname
      rw [hname]
    · exact absurd hinit
        ((hinside r hr).listed.steps_ne_copy hp (ObjectName.logsRoot :: t.job :: init))
    · obtain ⟨tail, _, htail⟩ := (hinside r hr).below p hp
      have hhead := (List.cons.inj (htail.symm.trans hmore)).1
      exact absurd hhead (by decide)

/-- A file among the logs is that of an object, or it is called as nothing that belongs to a run. -/
theorem kind_of_kept (hinside : ∀ r ∈ runs, r.IsInside)
    (hsegs : ∀ r ∈ runs, ∀ p ∈ r.paths, "" ∉ Text.segments p) {names : List String}
    {bytes : ByteArray} (hlast : lastAt? (runs.flatMap (Run.keeps m)) names = some bytes)
    (hlogs : names.head? = some ObjectName.logsRoot) :
    (∃ r ∈ runs, Text.joined names ∈ r.paths) ∨
      ObjectKind.ofName (Text.joined names) = .other := by
  obtain ⟨r, hr, hmem⟩ := List.mem_flatMap.mp (mem_of_lastAt hlast)
  obtain ⟨hne, hnames⟩ := (hinside r hr).names_of_mem_keeps hmem
  have hsegments := Text.segments_joined hne fun s hs => (hnames s hs).2.2.2
  rcases (hinside r hr).mem_keeps hmem with ⟨p, hp, heq⟩ | ⟨init, hinit, _⟩ | ⟨more, hmore, _⟩
  · refine .inl ⟨r, hr, ?_⟩
    rwa [(Prod.mk.inj heq).1, ObjectName.steps_eq_segments (hsegs r hr p hp),
      Text.joined_segments]
  · -- A copy is neither a descriptor nor a test result.
    have hlast : Text.segments (Text.joined names) =
        (ObjectName.logsRoot :: r.job :: init) ++ [CachePath.copyFile] := by
      rw [hsegments]
      exact hinit
    exact .inr (ObjectKind.ofName_of_last hlast (by decide) (by decide) (by decide))
  · have hmore : names = CachePath.indexRoot :: more := hmore
    rw [hmore] at hlogs
    exact absurd (Option.some.inj hlogs) (by decide)

end Run

end RunCache
