import Mathlib.Data.List.Nodup
import RunCache.Proofs.Cache.Below
import RunCache.Proofs.Cache.Written

/-! # Files that lie apart

    Empty segments of a name do not count for the place of its object, so
    two objects of a run may share a file, and only the later one is kept.
    Where no two do, all files of the run lie apart, and writing it loses
    nothing.

    * **`Run.below_nodup`**: no two files of the run are at one place.
    * **`Run.Fetched`**: what a run remembers has been fetched.
    * **`Run.written_run_complete`**: what a write that succeeds leaves.
    * **`Run.shared_file_loses`**: what is lost where two objects share a
      file. -/

namespace RunCache

open ObjectName (steps)

namespace Run

variable {store : Store} {root : Path} {r r' : Run} {w w' : World} {d : Descriptor}
  {contents : Fields ByteArray}

/-! ## Places of files -/

/-- Objects of a run are kept in different files if their names differ by more than empty
    segments. -/
def KeptApart (r : Run) : Prop := ∀ p ∈ r.paths, ∀ q ∈ r.paths, steps p = steps q → p = q

theorem mem_belowOf {descriptorPath path : String} {normalized bytes : ByteArray}
    {names : List String} (h : names ∈ (belowOf descriptorPath normalized path bytes).map (·.1)) :
    names = steps path ∨
      (path = descriptorPath ∧ names = (steps path).dropLast ++ [CachePath.copyFile]) := by
  rcases List.mem_cons.mp h with hobject | hcopy
  · exact .inl hobject
  · split at hcopy
    · next hpath => exact .inr ⟨hpath, List.mem_singleton.mp hcopy⟩
    · cases hcopy

/-- The copy of a descriptor lies in the logs, as the descriptor does. -/
theorem IsListed.copy_head (h : r.IsListed) {p : String} (hp : p ∈ r.paths)
    (hdesc : p = r.descriptorPath.getD "") :
    ∃ more, (steps p).dropLast ++ [CachePath.copyFile] = ObjectName.logsRoot :: more := by
  obtain ⟨tail, htail⟩ := h.below p hp
  obtain ⟨q, init, id, hq, hsteps⟩ := h.descriptor
  have hpq : p = q := by rw [hdesc, hq, Option.getD_some]
  rw [← hpq] at hsteps
  -- The file is the last step and the id stands before it, so the first step stays.
  have hinit : (steps p).dropLast = init ++ [id] := by
    rw [hsteps, List.append_cons, List.dropLast_concat]
  rw [htail] at hsteps
  cases init with
  | nil =>
    obtain ⟨rfl, _⟩ := List.cons.inj hsteps
    exact ⟨_, by rw [hinit]; rfl⟩
  | cons s init =>
    obtain ⟨rfl, _⟩ := List.cons.inj hsteps
    exact ⟨_, by rw [hinit]; rfl⟩

/-- No two files of a run whose objects are kept apart have the same names. -/
theorem below_nodup (h : r.IsListed) (hapart : r.KeptApart) (hsorted : contents.Sorted)
    (hcontents : ∀ e ∈ contents, e.1 ∈ r.paths) : ((r.below d contents).map (·.1)).Nodup := by
  rw [below, List.map_append, List.nodup_append, List.map_flatMap]
  refine ⟨List.nodup_flatMap.mpr ⟨fun e he => ?_, ?_⟩, ?_, ?_⟩
  · -- An object is not called as the copy is.
    have hcopy := h.steps_ne_copy (hcontents e he) (steps e.1).dropLast
    unfold belowOf
    split
    · simpa using hcopy
    · simp
  · refine List.Pairwise.imp_of_mem (fun {a b} ha hb hlt => ?_) hsorted
    intro names hna hnb
    have hpa := hcontents a ha
    have hpb := hcontents b hb
    rcases mem_belowOf hna with rfl | ⟨hda, rfl⟩
    · rcases mem_belowOf hnb with hsame | ⟨_, hcopy⟩
      · exact absurd (hapart _ hpa _ hpb hsame) (ne_of_lt hlt)
      · exact h.steps_ne_copy hpa _ hcopy
    · rcases mem_belowOf hnb with hcopy | ⟨hdb, _⟩
      · exact h.steps_ne_copy hpb _ hcopy.symm
      · exact absurd (hda.trans hdb.symm) (ne_of_lt hlt)
  · cases indexNames? r.job d <;> simp
  · -- Objects and copies lie below the logs, entries of the index do not.
    intro names hnames index hindex heq
    subst heq
    have hhead : ∃ more, names = ObjectName.logsRoot :: more := by
      obtain ⟨e, he, hmem⟩ := List.mem_flatMap.mp hnames
      rcases mem_belowOf hmem with rfl | ⟨hdesc, rfl⟩
      · obtain ⟨tail, htail⟩ := h.below e.1 (hcontents e he)
        exact ⟨_, htail⟩
      · exact h.copy_head (hcontents e he) hdesc
    obtain ⟨more, hmore⟩ := hhead
    obtain ⟨_, hmem, rfl⟩ := List.mem_map.mp hindex
    obtain ⟨names', hnames', rfl⟩ := List.mem_map.mp hmem
    unfold indexNames? at hnames'
    split at hnames'
    · split at hnames'
      · obtain rfl := Option.some.inj (Option.mem_toList.mp hnames')
        exact absurd (List.cons.inj hmore).1 (by decide)
      · cases hnames'
    · cases hnames'

/-! ## What has been fetched -/

/-- What a run remembers for a path is what the store once answered to a read of it. -/
def Fetched (store : Store) (r : Run) : Prop :=
  ∀ path bytes, r.memo.get? path = some bytes →
    ∃ v : World, (store.read v path).outcome = some (.ok bytes)

theorem content_fetched (path : String) (r : Run) (w : World) (h : r.Fetched store) :
    (r.content store path w).2.1.Fetched store := by
  unfold content
  split
  · exact h
  · split
    · next memo horigin =>
      unfold bucketContent
      split
      · exact h
      · split
        · exact h
        · next bytes w₁ hread =>
          intro key b hget
          have hmemo : r.memo = memo := by rw [Run.memo, horigin]
          have hget : (memo.insert path bytes).get? key = some b := hget
          rw [Fields.get_insert] at hget
          by_cases hkey : path = key
          · rw [if_pos hkey] at hget
            exact ⟨w, by rw [← hkey, World.outcome_of_call hread, Option.some.inj hget]⟩
          · rw [if_neg hkey, ← hmemo] at hget
            exact h key b hget
    · exact h

theorem gather_fetched (h : Run.Fetched store r) (root : Path) (w : World) :
    (r.gather store root w).2.1.Fetched store :=
  gather_invariant (P := fun r _ => r.Fetched store)
    (fun path r w h => content_fetched path r w h) root h

/-! ## After writing -/

/-- A write that succeeds has written the files of the contents it has gathered, all of them under
    names that stay inside the cache. -/
theorem write_gathered {memo : Fields ByteArray} {written : Written}
    (hr : r.origin = .bucket memo) (hd : w.disk.IsTree)
    (h : r.write store root w = (.ok written, r', w')) :
    ∃ d contents w₁, r.gather store root w = (.ok (d, contents), r', w₁) ∧
      contents = gathered r'.known r.paths [] ∧
      (∀ p ∈ r.paths, ObjectName.staysInside p = true) ∧
      written = ⟨(r.files root d contents).length, indexPlace? root r.job d⟩ ∧
      Writing.Wrote (r.files root d contents) w.now w.disk w'.disk := by
  obtain ⟨d, contents, w₁, hgather, hwrite, _, hwritten⟩ := write_ok h
  obtain ⟨_, hcontents, _, _⟩ := gather_ok hr hgather
  refine ⟨d, contents, w₁, hgather, hcontents, fun p hp => ?_, hwritten, writeAll_written hd hwrite⟩
  have hentry : (p, r'.known p) ∈ contents := by
    rw [hcontents]
    exact mem_gathered_iff.mpr ⟨hp, rfl⟩
  exact staysInside_of_escaping (gather_stays hgather) hentry

/-- Of a run that had read nothing before, all the contents have been fetched. -/
theorem write_wrote {written : Written} (hr : r.origin = .bucket []) (hd : w.disk.IsTree)
    (h : r.write store root w = (.ok written, r', w')) :
    ∃ d contents, (∀ v, r'.contents store v = (.ok contents, r', v)) ∧
      contents = gathered r'.known r.paths [] ∧
      (∀ p ∈ r.paths, ObjectName.staysInside p = true ∧
        ∃ v : World, (store.read v p).outcome = some (.ok (r'.known p))) ∧
      written = ⟨(r.files root d contents).length, indexPlace? root r.job d⟩ ∧
      Writing.Wrote (r.files root d contents) w.now w.disk w'.disk := by
  obtain ⟨d, contents, w₁, hgather, hcontents, hstays, hwritten, hwrote⟩ := write_gathered hr hd h
  obtain ⟨⟨path, hpath, _⟩, _, hall, memo, hbucket⟩ := gather_ok hr hgather
  have hstart : r.Fetched store := by
    intro path bytes hget
    rw [Run.memo, hr] at hget
    cases hget
  have hfetched := gather_fetched hstart root w
  rw [hgather] at hfetched
  obtain ⟨_, _, origin, hrun⟩ := gather_leaves hgather
  have hpaths : r'.paths = r.paths := by rw [hrun]; rfl
  refine ⟨d, contents, fun v => ?_, hcontents, fun p hp => ⟨hstays p hp, ?_⟩, hwritten, hwrote⟩
  · have hdesc : r'.descriptorPath.isSome := by rw [hrun]; simp [hpath]
    rw [contents_known hbucket hdesc (by rw [hpaths]; exact hall), hpaths, ← hcontents]
  · obtain ⟨b, hget⟩ := Option.isSome_iff_exists.mp (hall p hp).2
    obtain ⟨v, hv⟩ := hfetched p b hget
    exact ⟨v, by rw [hv, known, hget, Option.getD_some]⟩

/-- **Writing a run loses nothing where no two of its objects share a file.** Once it has been
    written, the file of every path holds the bytes that were fetched for it, and the count is that
    of the files which the write has made or made anew. -/
theorem written_run_complete {o : ScanOptions} {job : String} {w₀ : World} {written : Written}
    (hstore : store.ListsInside) (hjob : job.toList.head? ≠ some '/')
    (hscan : r ∈ scannedRuns (scan store o job w₀).1) (hapart : r.KeptApart) (hd : w.disk.IsTree)
    (h : r.write store root w = (.ok written, r', w')) :
    (∃ contents, (∀ v, r'.contents store v = (.ok contents, r', v)) ∧
      (∀ p, p ∈ contents.map (·.1) ↔ p ∈ r.paths) ∧
      ∀ e ∈ contents, (∃ v, (store.read v e.1).outcome = some (.ok e.2)) ∧
        w'.disk.readFile (CachePath.ofObject root e.1) = .ok e.2) ∧
    ∃ places : List Location, places.Nodup ∧ written.files = places.length ∧
      (∀ loc ∈ places, ∃ bytes, w'.disk.get? loc = some (.file bytes w.now)) ∧
      ∀ loc bytes time, w'.disk.get? loc = some (.file bytes time) →
        loc ∈ places ∨ w.disk.get? loc = some (.file bytes time) := by
  obtain ⟨rfl, hlisted⟩ := isListed_of_scanned hstore hscan
  have horigin : r.origin = .bucket [] := by
    rw [(scannedRuns_groupsInto store o r.job w₀).records r hscan]
    rfl
  obtain ⟨d, contents, hknown, hcontents, hall, rfl, hwrote⟩ := write_wrote horigin hd h
  have hmem : ∀ e, e ∈ contents ↔ e.1 ∈ r.paths ∧ e.2 = r'.known e.1 := by
    intro e
    rw [hcontents]
    exact mem_gathered_iff
  have hpaths : ∀ e ∈ contents, e.1 ∈ r.paths := fun e he => ((hmem e).mp he).1
  -- The places of the files are their names from the cache on, so no two are the same.
  have hnd : ((Writing.places w.disk (r.files root d contents)).map (·.1)).Nodup := by
    have hsorted : contents.Sorted := hcontents ▸ sorted_gathered _ _ Fields.sorted_nil
    rw [Writing.places, map_place_files hlisted hjob (fun p hp => (hall p hp).1) hpaths,
      List.map_map]
    have hbelow := (below_nodup (d := d) hlisted hapart hsorted hpaths).map
      (f := (w.disk.place root ++ ·)) fun _ _ heq => List.append_cancel_left heq
    rwa [List.map_map] at hbelow
  have hlast : ∀ f ∈ r.files root d contents,
      lastAt? (Writing.places w.disk (r.files root d contents)) (w.disk.place f.1) = some f.2 :=
    fun f hf => lastAt_of_nodup hnd (Writing.mem_places.mpr ⟨f, hf, rfl⟩)
  refine ⟨⟨contents, hknown, fun p => ?_, fun e he => ⟨?_, ?_⟩⟩,
    _, hnd, by simp [Writing.places], ?_, ?_⟩
  · constructor
    · intro hp
      obtain ⟨e, he, rfl⟩ := List.mem_map.mp hp
      exact hpaths e he
    · intro hp
      exact List.mem_map.mpr ⟨(p, r'.known p), (hmem _).mpr ⟨hp, rfl⟩, rfl⟩
  · obtain ⟨hp, hbytes⟩ := (hmem e).mp he
    rw [hbytes]
    exact (hall _ hp).2
  · have hobject : (CachePath.ofObject root e.1, e.2) ∈ r.files root d contents :=
      mem_files_iff.mpr (.object he)
    have hread := hwrote.readFile hobject (hlast _ hobject)
    exact hread
  · intro loc hloc
    obtain ⟨_, he, rfl⟩ := List.mem_map.mp hloc
    obtain ⟨f, hf, rfl⟩ := Writing.mem_places.mp he
    exact ⟨f.2, hwrote.written _ _ (hlast f hf)⟩
  · intro loc bytes time hfile
    rcases hwrote.grows.file_before hfile with hold | ⟨⟨f, hf, rfl⟩, _⟩
    · exact .inr hold
    · exact .inl (List.mem_map_of_mem (f := (·.1)) (Writing.mem_places.mpr ⟨f, hf, rfl⟩))

/-- A bucket with a run all of whose objects are kept apart. -/
def apartRun : Memory where
  objects :=
    [("logs/job/1/artifacts/junit.xml", ⟨"<testsuites/>".toUTF8, 0⟩),
     ("logs/job/1/prowjob.json", ⟨"\x7b\x7d".toUTF8, 0⟩)]

/-- Its two objects and the copy of its descriptor are three files. -/
theorem written_run_complete_apart :
    ∃ r r' w' written, ∃ places : List Location,
      r ∈ scannedRuns (scan apartRun.store {} "job" { disk := {} }).1 ∧
      r.write apartRun.store ⟨"/work"⟩ { disk := {} } = (.ok written, r', w') ∧
      written.files = 3 ∧ places.Nodup ∧ written.files = places.length := by
  generalize hw : ({ disk := {} } : World) = w
  generalize hruns : scannedRuns (scan apartRun.store {} "job" w).1 = runs
  have hone : runs.length = 1 := by
    subst hruns hw
    decide +kernel
  have hfits : (runs.all fun r =>
      (r.paths.all fun p => r.paths.all fun q => steps p ≠ steps q || p = q) &&
        (r.write apartRun.store ⟨"/work"⟩ w).1.toOption.map (·.files) = some 3) = true := by
    subst hruns hw
    decide +kernel
  obtain ⟨r, rfl⟩ := List.length_eq_one_iff.mp hone
  simp only [List.all_cons, List.all_nil, Bool.and_true, Bool.and_eq_true, decide_eq_true_eq,
    List.all_eq_true, Bool.or_eq_true] at hfits
  obtain ⟨hdiffer, hfiles⟩ := hfits
  have hapart : r.KeptApart := fun p hp q hq hsame =>
    (hdiffer p hp q hq).resolve_left fun hne => hne hsame
  have hmem : r ∈ scannedRuns (scan apartRun.store {} "job" w).1 := by rw [hruns]; simp
  cases hwrite : r.write apartRun.store ⟨"/work"⟩ w with
  | mk result rest =>
    obtain ⟨r', w'⟩ := rest
    rw [hwrite] at hfiles
    cases result with
    | error e => cases hfiles
    | ok written =>
      obtain ⟨_, places, hnd, hcount, _⟩ := written_run_complete apartRun.store_listsInside
        (by decide) hmem hapart (by rw [← hw]; exact Disk.IsTree.empty) hwrite
      exact ⟨r, r', w', written, places, by simp, hwrite, Option.some.inj hfiles, hnd, hcount⟩

/-! ## Objects that share a file -/

/-- Where two objects of a run share a file and differ in their bytes, a write that succeeds has
    lost one of them. -/
theorem shared_file_loses {p q : String} {written : Written} (hr : r.origin = .bucket [])
    (hd : w.disk.IsTree) (hp : p ∈ r.paths) (hq : q ∈ r.paths) (hsteps : steps p = steps q)
    (hbytes : r'.known p ≠ r'.known q) (h : r.write store root w = (.ok written, r', w')) :
    ∃ contents, (∀ v, r'.contents store v = (.ok contents, r', v)) ∧
      ∃ e ∈ contents, w'.disk.readFile (CachePath.ofObject root e.1) ≠ .ok e.2 := by
  obtain ⟨_, contents, hknown, hcontents, _, _, _⟩ := write_wrote hr hd h
  refine ⟨contents, hknown, ?_⟩
  have hmem : ∀ k ∈ r.paths, (k, r'.known k) ∈ contents := by
    intro k hk
    rw [hcontents]
    exact mem_gathered_iff.mpr ⟨hk, rfl⟩
  have hfile : CachePath.ofObject root p = CachePath.ofObject root q := by
    rw [CachePath.ofObject_eq, CachePath.ofObject_eq, hsteps]
  -- One file cannot hold the bytes of both.
  by_contra hall
  have hkept : ∀ k ∈ r.paths,
      w'.disk.readFile (CachePath.ofObject root k) = .ok (r'.known k) := fun k hk =>
    not_not.mp fun hne => hall ⟨_, hmem k hk, hne⟩
  have hboth := hkept p hp
  rw [hfile, hkept q hq] at hboth
  exact hbytes (Except.ok.inj hboth).symm

/-- A bucket with a run two of whose test results differ by an empty segment only. -/
def doubledRun : Memory where
  objects :=
    [("logs/job/1/artifacts//junit.xml", ⟨"two".toUTF8, 0⟩),
     ("logs/job/1/artifacts/junit.xml", ⟨"one".toUTF8, 0⟩),
     ("logs/job/1/prowjob.json", ⟨"\x7b\x7d".toUTF8, 0⟩)]

/-- Writing it succeeds, and the file of one of its paths does not hold what was fetched. -/
theorem doubled_run_loses :
    ∃ r r' w' written contents e,
      r ∈ scannedRuns (scan doubledRun.store {} "job" { disk := {} }).1 ∧
      r.write doubledRun.store ⟨"/work"⟩ { disk := {} } = (.ok written, r', w') ∧
      (∀ v, r'.contents doubledRun.store v = (.ok contents, r', v)) ∧ e ∈ contents ∧
      w'.disk.readFile (CachePath.ofObject ⟨"/work"⟩ e.1) ≠ .ok e.2 := by
  generalize hw : ({ disk := {} } : World) = w
  generalize hruns : scannedRuns (scan doubledRun.store {} "job" w).1 = runs
  have hone : runs.length = 1 := by
    subst hruns hw
    decide +kernel
  have hfits : (runs.all fun r =>
      r.paths.contains "logs/job/1/artifacts//junit.xml" &&
        r.paths.contains "logs/job/1/artifacts/junit.xml" &&
        (r.write doubledRun.store ⟨"/work"⟩ w).1.isOk &&
        (r.write doubledRun.store ⟨"/work"⟩ w).2.1.known "logs/job/1/artifacts//junit.xml" ≠
          (r.write doubledRun.store ⟨"/work"⟩ w).2.1.known "logs/job/1/artifacts/junit.xml") =
      true := by
    subst hruns hw
    decide +kernel
  obtain ⟨r, rfl⟩ := List.length_eq_one_iff.mp hone
  simp only [List.all_cons, List.all_nil, Bool.and_true, Bool.and_eq_true, decide_eq_true_eq,
    List.contains_eq_mem] at hfits
  obtain ⟨⟨⟨hp, hq⟩, hok⟩, hbytes⟩ := hfits
  have hmem : r ∈ scannedRuns (scan doubledRun.store {} "job" w).1 := by rw [hruns]; simp
  have horigin : r.origin = .bucket [] := by
    rw [(scannedRuns_groupsInto doubledRun.store {} "job" w).records r hmem]
    rfl
  cases hwrite : r.write doubledRun.store ⟨"/work"⟩ w with
  | mk result rest =>
    obtain ⟨r', w'⟩ := rest
    rw [hwrite] at hok hbytes
    cases result with
    | error e => cases hok
    | ok written =>
      obtain ⟨contents, hknown, e, he, hlost⟩ := shared_file_loses horigin
        (by rw [← hw]; exact Disk.IsTree.empty) hp hq (by decide) hbytes hwrite
      exact ⟨r, r', w', written, contents, e, by simp, hwrite, hknown, he, hlost⟩

end Run

end RunCache
