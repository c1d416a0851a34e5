import RunCache.Proofs.Cache.Place
import RunCache.Proofs.Cache.RunOrder
import RunCache.Proofs.Disk.Length
import RunCache.Proofs.Disk.Parents
import RunCache.Proofs.Disk.Walk

/-! # The newest of the cached runs

    Where all runs in the directory of a job have numbers as their ids, the
    newest one is the one of the greatest number, in whatever order the
    disk lists the directory and whatever else it holds.

    * **`Disk.HoldsRun`**: a run in the directory of a job.
    * **`Disk.LeadsTo.isFile_iff`**: which files are found below a
      directory.
    * **`mem_cachedIds`**, **`holdsRun_of_newest`**: which runs are found,
      and that the newest is one of them.
    * **`newest_is_greatest`**: their order, and the newest of them.
    * **`newest_not_found`**: a run under a path that is too long. -/

namespace RunCache

variable {d : Disk} {root jobDir : Path} {job id : String} {loc : Location}

/-! ## Runs on a disk -/

/-- A run in the directory of a job, which lies at a location: a directory with the file of a
    descriptor in it, under a path that the system takes. -/
structure Disk.HoldsRun (d : Disk) (jobDir : Path) (loc : Location) (id : String) : Prop where
  dir : ∃ closed, d.get? (loc ++ [id]) = some (.dir closed)
  file : ∃ content modified,
    d.get? (loc ++ [id, ObjectName.descriptorFile]) = some (.file content modified)
  taken : Disk.accept ((jobDir.join id).join ObjectName.descriptorFile) = .ok ()

/-- Two ids are numbers, the first of them no greater than the second. -/
def RunId.IsAtMost (a b : String) : Prop :=
  ∃ m n, RunId.number? a = some m ∧ RunId.number? b = some n ∧ m ≤ n

theorem RunId.isAtMost_iff {a b : String} (ha : (RunId.number? a).isSome)
    (hb : (RunId.number? b).isSome) : RunId.IsAtMost a b ↔ RunId.order a b ≠ .gt := by
  obtain ⟨m, hm⟩ := Option.isSome_iff_exists.mp ha
  obtain ⟨n, hn⟩ := Option.isSome_iff_exists.mp hb
  rw [RunId.order_numbers_ne_gt hm hn]
  constructor
  · intro h
    obtain ⟨m', n', hm', hn', hle⟩ := h
    rw [hm] at hm'
    rw [hn] at hn'
    obtain rfl := Option.some.inj hm'
    obtain rfl := Option.some.inj hn'
    exact hle
  · intro hle
    exact ⟨m, n, hm, hn, hle⟩

/-- Numbers are in order among themselves. -/
theorem RunId.coheres_of_numbers {p : String → Prop} (h : ∀ id, p id → (RunId.number? id).isSome) :
    RunId.Coheres p := by
  apply RunId.Separates.coheres
  intro a t b _ ht _ _ hnone
  have hsome := h t ht
  rw [hnone] at hsome
  cases hsome

/-! ## Files below a directory -/

namespace Disk

/-- A path of names below a directory leads to a file just where there is one, if the system takes
    the path. -/
theorem LeadsTo.isFile_iff {s : String} (h : d.LeadsTo root loc) (segs : List String)
    (hsegs : ∀ t ∈ segs, IsName t) (hs : IsName s) :
    d.isFile ((segs.foldl Path.join root).join s) = true ↔
      accept ((segs.foldl Path.join root).join s) = .ok () ∧
        ∃ content modified, d.get? (loc ++ (segs ++ [s])) = some (.file content modified) := by
  have hall : ∀ t ∈ segs ++ [s], IsName t := by
    intro t ht
    rcases List.mem_append.mp ht with ht | ht
    · exact hsegs t ht
    · rw [List.mem_singleton.mp ht]
      exact hs
  have hne : segs ++ [s] ≠ [] := by simp
  have hpath : (segs.foldl Path.join root).join s = (segs ++ [s]).foldl Path.join root := by
    rw [List.foldl_append]
    rfl
  -- The path goes on from the directory by plain names, so it is looked up below it.
  have habs := Path.isAbsolute_foldl_join (p := root) hall
  have hsteps := steps_foldl_join hall root
  constructor
  · intro hfile
    obtain ⟨l, content, modified, hstat⟩ := stat_of_isFile hfile
    refine ⟨accept_of_locate (locate_of_stat hstat), content, modified, ?_⟩
    rw [hpath] at hstat
    exact (h.get_of_stat hne hall habs hsteps hstat).2
  · intro hboth
    obtain ⟨haccept, content, modified, hget⟩ := hboth
    have hslash : ((segs.foldl Path.join root).join s).endsWithSlash = true →
        (Entry.file content modified).isDir = true := by
      intro hslash
      rw [Path.endsWithSlash_join hs] at hslash
      cases hslash
    rw [hpath] at haccept hslash ⊢
    unfold isFile
    rw [h.stat_below hne hall habs hsteps haccept hslash hget true]
    rfl

end Disk

/-! ## The runs that are found -/

/-- The entries that count as runs are the runs in the directory. -/
theorem isCachedRun_iff {e : Entry} (h : d.LeadsTo jobDir loc) (hid : IsName id)
    (hget : d.get? (loc ++ [id]) = some e) :
    isCachedRun d jobDir (id, e) = true ↔ d.HoldsRun jobDir loc id := by
  have hfile := h.isFile_iff [id] (by simpa using hid) CachePath.isName_descriptorFile
  unfold isCachedRun
  rw [Bool.and_eq_true]
  constructor
  · intro hboth
    obtain ⟨closed, rfl⟩ := Entry.eq_dir_of_isDir hboth.1
    obtain ⟨htaken, hcontent⟩ := hfile.mp hboth.2
    exact ⟨⟨closed, hget⟩, hcontent, htaken⟩
  · intro hholds
    obtain ⟨closed, hdir⟩ := hholds.dir
    rw [hget] at hdir
    obtain rfl := Option.some.inj hdir
    exact ⟨rfl, hfile.mpr ⟨hholds.taken, hholds.file⟩⟩

/-- In a tree the directory of a job lies where its names lead. -/
theorem Disk.IsTree.leadsTo_ofJob (hd : d.IsTree) (hjob : IsName job)
    (hdir : d.isDir (CachePath.ofJob root job) = true) :
    d.LeadsTo (CachePath.ofJob root job) (d.place root ++ [ObjectName.logsRoot, job]) := by
  have hleads := Disk.LeadsTo.of_isTree hd hdir
  rwa [CachePath.ofJob_eq, Disk.place_foldl_join (CachePath.isName_of_mem_job hjob),
    ← CachePath.ofJob_eq] at hleads

theorem cachedIds_ok (h : d.LeadsTo (CachePath.ofJob root job) loc) :
    cachedIds d root job = .ok ((((d.children loc).filter
      (isCachedRun d (CachePath.ofJob root job))).map (·.1)).mergeSort RunId.le) := by
  obtain ⟨closed, _, hstat⟩ := h.found
  have hread : d.readDir (CachePath.ofJob root job) = .ok (d.children loc) := by
    unfold Disk.readDir
    rw [hstat]
  unfold cachedIds
  simp only [h.isDir, hread, Bool.not_true, Bool.false_eq_true, if_false]

/-- Each run in the directory of a job is found, and found once. -/
theorem mem_cachedIds (h : d.LeadsTo (CachePath.ofJob root job) loc)
    (hnames : ∀ name e, d.get? (loc ++ [name]) = some e → IsName name) :
    ∃ ids, cachedIds d root job = .ok ids ∧ ids.Nodup ∧
      ∀ id, id ∈ ids ↔ d.HoldsRun (CachePath.ofJob root job) loc id := by
  refine ⟨_, cachedIds_ok h, ?_, ?_⟩
  · rw [(List.mergeSort_perm _ _).nodup_iff]
    exact List.pairwise_map.mpr ((Disk.children_pairwise h.tree.once).filter _)
  · intro id
    rw [List.mem_mergeSort, List.mem_map]
    constructor
    · intro hmem
      obtain ⟨⟨name, e⟩, hchild, rfl⟩ := hmem
      obtain ⟨hchild, hcached⟩ := List.mem_filter.mp hchild
      have hget := (Disk.mem_children h.tree.once).mp hchild
      exact (isCachedRun_iff h (hnames name e hget) hget).mp hcached
    · intro hholds
      obtain ⟨closed, hget⟩ := hholds.dir
      refine ⟨(id, .dir closed), List.mem_filter.mpr ⟨?_, ?_⟩, rfl⟩
      · exact (Disk.mem_children h.tree.once).mpr hget
      · exact (isCachedRun_iff h (hnames id _ hget) hget).mpr hholds

/-! ## The newest of them -/

/-- Where there is a newest run there is a directory of the job. -/
theorem isDir_of_newest {newest : String} (h : newestCached? d root job = .ok (some newest)) :
    d.isDir (CachePath.ofJob root job) = true := by
  cases hdir : d.isDir (CachePath.ofJob root job) with
  | true => rfl
  | false =>
    have hids : cachedIds d root job = .ok [] := by simp [cachedIds, hdir]
    rw [newestCached?, hids] at h
    cases h

theorem holdsRun_of_newest {newest : String} (h : d.LeadsTo (CachePath.ofJob root job) loc)
    (hnames : ∀ name e, d.get? (loc ++ [name]) = some e → IsName name)
    (hmark : newestCached? d root job = .ok (some newest)) :
    d.HoldsRun (CachePath.ofJob root job) loc newest := by
  obtain ⟨ids, hids, _, hmem⟩ := mem_cachedIds h hnames
  rw [newestCached?, hids] at hmark
  exact (hmem newest).mp (List.mem_of_getLast? (Except.ok.inj hmark))

/-- Where all runs in the directory of a job have numbers as their ids, the cached ids are exactly
    theirs, each once and in the order of the numbers, and the newest of them is one of the greatest
    number; there is none just where the directory holds no run.  The order in which the disk lists
    the directory is any, and so is what else the directory, whose entries have plain names, and the
    rest of the disk hold. -/
theorem newest_is_greatest (h : d.LeadsTo (CachePath.ofJob root job) loc)
    (hnames : ∀ name e, d.get? (loc ++ [name]) = some e → IsName name)
    (hnumbers : ∀ id, d.HoldsRun (CachePath.ofJob root job) loc id → (RunId.number? id).isSome) :
    ∃ ids mark, cachedIds d root job = .ok ids ∧ ids.Nodup ∧
      (∀ id, id ∈ ids ↔ d.HoldsRun (CachePath.ofJob root job) loc id) ∧
      ids.Pairwise RunId.IsAtMost ∧
      newestCached? d root job = .ok mark ∧
      (mark = none ↔ ∀ id, ¬ d.HoldsRun (CachePath.ofJob root job) loc id) ∧
      ∀ newest, mark = some newest → d.HoldsRun (CachePath.ofJob root job) loc newest ∧
        ∀ id, d.HoldsRun (CachePath.ofJob root job) loc id → RunId.IsAtMost id newest := by
  obtain ⟨ids, hids, hnodup, hmem⟩ := mem_cachedIds h hnames
  have hnumber : ∀ id ∈ ids, (RunId.number? id).isSome :=
    fun id hid => hnumbers id ((hmem id).mp hid)
  have hcoheres : RunId.Coheres (· ∈ ids) := RunId.coheres_of_numbers hnumber
  have hmark : newestCached? d root job = .ok ids.getLast? := by
    rw [newestCached?, hids]
    rfl
  refine ⟨ids, ids.getLast?, hids, hnodup, hmem, ?_, hmark, ?_, ?_⟩
  · -- The ids come out of a sort by an order that is one on numbers.
    have hsorted : ids.Pairwise fun a b => RunId.order a b ≠ .gt := by
      obtain ⟨unsorted, rfl⟩ := exists_mergeSort_of_cachedIds hids
      exact hcoheres.sorted fun id hid => List.mem_mergeSort.mpr hid
    apply hsorted.imp_of_mem
    intro a b ha hb hle
    exact (RunId.isAtMost_iff (hnumber a ha) (hnumber b hb)).mpr hle
  · rw [List.getLast?_eq_none_iff, List.eq_nil_iff_forall_not_mem]
    apply forall_congr'
    intro id
    rw [hmem]
  · -- The last of ids that are in order has all others before it.
    intro newest hlast
    have hnewest : newest ∈ ids := List.mem_of_getLast? hlast
    refine ⟨(hmem newest).mp hnewest, ?_⟩
    intro id hid
    have hid := (hmem id).mpr hid
    rw [RunId.isAtMost_iff (hnumber id hid) (hnumber newest hnewest)]
    exact newestCached_newest hids hcoheres (hlast ▸ hmark) id hid

/-- A directory of a job with three runs, a directory and a file that are none, and a run of another
    job beside it. -/
def threeRuns : Disk where
  entries :=
    [(["w", "logs", "job", "10"], .dir false),
     (["w", "logs", "job", "notes"], .file "n".toUTF8 0),
     (["w", "logs", "job", "latest"], .dir false),
     (["w"], .dir false), (["w", "logs"], .dir false), (["w", "logs", "job"], .dir false),
     (["w", "logs", "job", "007"], .dir false),
     (["w", "logs", "job", "+9"], .dir false),
     (["w", "logs", "job", "+9", "prowjob.json"], .file "c".toUTF8 0),
     (["w", "logs", "job", "10", "prowjob.json"], .file "a".toUTF8 0),
     (["w", "logs", "job", "007", "prowjob.json"], .file "b".toUTF8 0),
     (["w", "logs", "other"], .dir false), (["w", "logs", "other", "99"], .dir false),
     (["w", "logs", "other", "99", "prowjob.json"], .file "d".toUTF8 0)]

/-- Of three runs in no order, with zeros in front of one and a plus sign before another, the newest
    is 10. -/
theorem newest_is_greatest_three : newestCached? threeRuns ⟨"/w"⟩ "job" = .ok (some "10") := by
  have hleads : threeRuns.LeadsTo (CachePath.ofJob ⟨"/w"⟩ "job") ["w", "logs", "job"] :=
    ⟨.of_entries rfl (by decide +kernel) (by decide +kernel), false, rfl, rfl⟩
  have hentry : ∀ name e, threeRuns.get? (["w", "logs", "job"] ++ [name]) = some e →
      (["w", "logs", "job"] ++ [name], e) ∈ threeRuns.entries :=
    fun name e hget => Disk.mem_of_get (by simp) hget
  have hnames : ∀ name e, threeRuns.get? (["w", "logs", "job"] ++ [name]) = some e →
      IsName name := by
    intro name e hget
    have hall : ∀ x ∈ threeRuns.entries, ∀ s ∈ x.1, IsName s := by decide +kernel
    exact hall _ (hentry name e hget) name (by simp)
  have hruns : ∀ id, threeRuns.HoldsRun (CachePath.ofJob ⟨"/w"⟩ "job") ["w", "logs", "job"] id →
      id ∈ ["10", "007", "+9"] := by
    intro id hholds
    obtain ⟨closed, hdir⟩ := hholds.dir
    obtain ⟨content, modified, hfile⟩ := hholds.file
    have hall : ∀ x ∈ threeRuns.entries, x.2.isDir = true → ["w", "logs", "job"] <+: x.1 →
        (threeRuns.get? (x.1 ++ ["prowjob.json"])).isSome = true →
        x.1.drop 3 ∈ [["10"], ["007"], ["+9"]] := by decide +kernel
    have hdrop := hall _ (hentry id _ hdir) rfl (List.prefix_append _ _) (by
      show (threeRuns.get? (["w", "logs", "job"] ++ [id, ObjectName.descriptorFile])).isSome = true
      rw [hfile]
      rfl)
    simpa using hdrop
  have hten : threeRuns.HoldsRun (CachePath.ofJob ⟨"/w"⟩ "job") ["w", "logs", "job"] "10" :=
    ⟨⟨false, rfl⟩, ⟨_, _, rfl⟩, rfl⟩
  obtain ⟨_, mark, _, _, _, _, hmark, hnone, hgreatest⟩ := newest_is_greatest hleads hnames
    (fun id hholds => (by decide : ∀ id ∈ ["10", "007", "+9"], (RunId.number? id).isSome) id
      (hruns id hholds))
  cases mark with
  | none => exact absurd hten (hnone.mp rfl "10")
  | some newest =>
    obtain ⟨hholds, hmost⟩ := hgreatest newest rfl
    obtain ⟨m, n, hm, hn, hle⟩ := hmost "10" hten
    -- The other two are smaller than 10.
    have hsmaller : ∀ id ∈ ["10", "007", "+9"], id = "10" ∨ RunId.order "10" id = .gt := by decide
    rcases hsmaller newest (hruns newest hholds) with rfl | hgt
    · exact hmark
    · exact absurd hgt ((RunId.order_numbers_ne_gt hm hn).mpr hle)

/-! ### A path that is too long -/

namespace TooLong

/-- A directory of a job with one run. -/
def oneRun : Disk where
  entries :=
    [(["w"], .dir false), (["w", "logs"], .dir false), (["w", "logs", "job"], .dir false),
     (["w", "logs", "job", "1"], .dir false),
     (["w", "logs", "job", "1", "prowjob.json"], .file "a".toUTF8 0)]

variable {n : Nat}

/-- The directory of the job is found by its path, if the system takes that. -/
theorem leadsTo_ofJob (hn : n ≠ 0) (h : n + 10 < Disk.pathLimit) :
    oneRun.LeadsTo (CachePath.ofJob (TooLong.root n) "job") ["w", "logs", "job"] := by
  have htree : oneRun.IsTree := .of_entries (by decide) (by decide) (by decide)
  have hsize : (Text.joined [ObjectName.logsRoot, "job"]).utf8ByteSize = 8 := by decide
  have hshort : n + 2 + (Text.joined [ObjectName.logsRoot, "job"]).utf8ByteSize <
      Disk.pathLimit := by omega
  rw [CachePath.ofJob_eq]
  exact leadsTo htree hn (by simp) (by decide) hshort ⟨false, rfl⟩

/-- The path of the descriptor is longer than that of the directory. -/
theorem accept_descriptor (hn : n ≠ 0) (hroot : n + 2 < Disk.pathLimit)
    (hlong : Disk.pathLimit ≤ n + 25) :
    Disk.accept
        (((CachePath.ofJob (TooLong.root n) "job").join "1").join ObjectName.descriptorFile) =
      .error .nameTooLong := by
  have hsize : (Text.joined [ObjectName.logsRoot, "job", "1",
      ObjectName.descriptorFile]).utf8ByteSize = 23 := by decide
  have hsegs : ∀ s ∈ [ObjectName.logsRoot, "job", "1", ObjectName.descriptorFile],
      IsName s ∧ '\x00' ∉ s.toList := by decide
  rw [CachePath.descriptor_eq, accept_eq hn hroot (by simp) hsegs, hsize, if_neg (by omega)]

end TooLong

/-- A run with a number as its id and a descriptor is not found in a directory of a job whose path
    the system takes, since the path of the descriptor is too long. -/
theorem newest_not_found :
    TooLong.oneRun.LeadsTo (CachePath.ofJob (TooLong.root 4078) "job") ["w", "logs", "job"] ∧
      (∀ name e, TooLong.oneRun.get? (["w", "logs", "job"] ++ [name]) = some e → name = "1") ∧
      RunId.number? "1" = some 1 ∧
      TooLong.oneRun.get? ["w", "logs", "job", "1"] = some (.dir false) ∧
      TooLong.oneRun.get? ["w", "logs", "job", "1", "prowjob.json"] =
        some (.file "a".toUTF8 0) ∧
      cachedIds TooLong.oneRun (TooLong.root 4078) "job" = .ok [] ∧
      newestCached? TooLong.oneRun (TooLong.root 4078) "job" = .ok none := by
  have hn : 4078 ≠ 0 := by decide
  have hleads := TooLong.leadsTo_ofJob hn (by decide)
  have hone : ∀ name e, TooLong.oneRun.get? (["w", "logs", "job"] ++ [name]) = some e →
      name = "1" := by
    intro name e hget
    have hall : ∀ x ∈ TooLong.oneRun.entries, ["w", "logs", "job"] <+: x.1 → x.1.length = 4 →
        x.1 = ["w", "logs", "job", "1"] := by decide
    simpa using hall _ (Disk.mem_of_get (by simp) hget) (List.prefix_append _ _) rfl
  have hnames : ∀ name e, TooLong.oneRun.get? (["w", "logs", "job"] ++ [name]) = some e →
      IsName name := by
    intro name e hget
    rw [hone name e hget]
    decide
  obtain ⟨ids, hids, _, hmem⟩ := mem_cachedIds hleads hnames
  have hempty : ids = [] := by
    rw [List.eq_nil_iff_forall_not_mem]
    intro id hid
    have hholds := (hmem id).mp hid
    obtain ⟨closed, hdir⟩ := hholds.dir
    obtain rfl := hone id _ hdir
    have htaken := hholds.taken
    rw [TooLong.accept_descriptor hn (by decide) (by decide)] at htaken
    cases htaken
  subst hempty
  refine ⟨hleads, hone, by decide, rfl, rfl, hids, ?_⟩
  rw [newestCached?, hids]
  rfl

end RunCache
