import Mathlib.Data.List.Flatten
import Mathlib.Data.List.Nodup
import RunCache.Cache.Pass
import RunCache.Proofs.Cache.ReadOnce
import RunCache.Proofs.Scan.Records

/-! # A pass follows its scan

    A pass writes the runs of its scan in turn, up to the first that fails.
    Which errors end it, and in which order they count, is said here for
    every store and every signal.

    * **`InTurn`**: runs written one after the other.
    * **`InTurn.keeps`**: what each write keeps, they keep.
    * **`writeRuns_inTurn`**, **`writeRuns_ok`**: the loop of a pass.
    * **`InTurn.hasRead`**: what it reads.
    * **`pass_follows_scan`**: whole passes. -/

namespace RunCache

open World (HasRead)

variable {store : Store} {root : Path} {w w' w'' : World} {runs : List Run}

/-! ## Runs written in turn -/

/-- Runs that have been written one after the other, each in the world that the one before has left,
    and what the writes have told. -/
inductive InTurn (store : Store) (root : Path) : List Run → World → List Written → World → Prop
  | nil (w : World) : InTurn store root [] w [] w
  | cons {r r' : Run} {runs : List Run} {w w₁ w₂ : World} {told : Written} {more : List Written}
      (h : r.write store root w = (.ok told, r', w₁)) (hrest : InTurn store root runs w₁ more w₂) :
      InTurn store root (r :: runs) w (told :: more) w₂

/-- How many of some writes have made an entry in the by-name index. -/
def entryCount (told : List Written) : Nat := (told.filter (·.byName.isSome)).length

theorem entryCount_cons (t : Written) (told : List Written) :
    entryCount (t :: told) = t.byName.toList.length + entryCount told := by
  unfold entryCount
  cases hname : t.byName with
  | none => simp [hname]
  | some entry =>
    simp [hname]
    omega

/-- The loop writes runs in turn. It ends behind the last one, with the counts, or at the first that
    fails, with its error. -/
theorem writeRuns_inTurn {s : Summary} {result : Except Error Summary}
    (h : writeRuns store root runs s w = (result, w')) :
    ∃ done rest told w₂, runs = done ++ rest ∧ InTurn store root done w told w₂ ∧
      ((rest = [] ∧ w' = w₂ ∧ result =
          .ok ⟨s.discovered, s.cached + done.length, s.indexed + entryCount told⟩) ∨
        ∃ r more e r', rest = r :: more ∧ r.write store root w₂ = (.error e, r', w') ∧
          result = .error e) := by
  induction runs generalizing s w with
  | nil =>
    obtain ⟨rfl, rfl⟩ := Prod.mk.inj h
    exact ⟨[], [], [], w, rfl, .nil w, .inl ⟨rfl, rfl, rfl⟩⟩
  | cons r runs ih =>
    unfold writeRuns at h
    split at h
    · next e r' w₁ hwrite =>
      obtain ⟨rfl, rfl⟩ := Prod.mk.inj h
      exact ⟨[], r :: runs, [], w, rfl, .nil w, .inr ⟨r, runs, e, r', rfl, hwrite, rfl⟩⟩
    · next t r' w₁ hwrite =>
      obtain ⟨done, rest, told, w₂, rfl, hturn, hend⟩ := ih h
      refine ⟨r :: done, rest, t :: told, w₂, rfl, .cons hwrite hturn, ?_⟩
      rcases hend with ⟨hrest, hw, hresult⟩ | hfailed
      · refine .inl ⟨hrest, hw, ?_⟩
        rw [hresult, entryCount_cons, List.length_cons]
        simp only [Except.ok.injEq, Summary.mk.injEq, true_and]
        omega
      · exact .inr hfailed

/-- A loop that succeeds has written all its runs in turn. -/
theorem writeRuns_ok {s s' : Summary} (h : writeRuns store root runs s w = (.ok s', w')) :
    ∃ told, InTurn store root runs w told w' := by
  obtain ⟨done, rest, told, w₂, rfl, hturn, hend⟩ := writeRuns_inTurn h
  rcases hend with ⟨rfl, rfl, _⟩ | ⟨_, _, _, _, _, _, hresult⟩
  · rw [List.append_nil]
    exact ⟨told, hturn⟩
  · cases hresult

/-- What holds of the disk and is kept by every write of a run, runs written in turn keep. -/
theorem InTurn.keeps {P : Disk → Prop} {told : List Written} (h : InTurn store root runs w told w')
    (hstart : P w.disk)
    (hrun : ∀ r ∈ runs, ∀ v written r' v', P v.disk →
      r.write store root v = (written, r', v') → P v'.disk) : P w'.disk := by
  induction h with
  | nil w => exact hstart
  | @cons r r' runs w w₁ w₂ told more hwrite _ ih =>
    have hfirst := hrun r List.mem_cons_self w _ _ _ hstart hwrite
    exact ih hfirst fun s hs => hrun s (List.mem_cons_of_mem r hs)

/-- So does the loop, whether it ends behind the last run or at one that fails. -/
theorem writeRuns_keeps {P : Disk → Prop} {s : Summary} {result : Except Error Summary}
    (hstart : P w.disk)
    (hrun : ∀ r ∈ runs, ∀ v written r' v', P v.disk →
      r.write store root v = (written, r', v') → P v'.disk)
    (h : writeRuns store root runs s w = (result, w')) : P w'.disk := by
  obtain ⟨done, rest, told, w₂, rfl, hturn, hend⟩ := writeRuns_inTurn h
  have hdone : P w₂.disk := hturn.keeps hstart fun r hr => hrun r (List.mem_append_left _ hr)
  rcases hend with ⟨_, rfl, _⟩ | ⟨r, more, e, r', rfl, hwrite, _⟩
  · exact hdone
  · exact hrun r (by simp) w₂ _ _ _ hdone hwrite

/-- Runs of a bucket that are written in turn are read path by path, in their order. -/
theorem InTurn.hasRead {told : List Written} (h : InTurn store root runs w told w')
    (hruns : ∀ r ∈ runs, r.origin = .bucket []) :
    ∃ names, names.Sublist (runs.flatMap Run.paths) ∧ HasRead names w w' := by
  induction h with
  | nil w => exact ⟨[], List.nil_sublist _, .refl w⟩
  | @cons r r' runs w w₁ w₂ told more hwrite _ ih =>
    obtain ⟨names, hsub, hread⟩ :=
      Run.write_hasRead store (hruns r (by simp)) root w
    rw [hwrite] at hread
    obtain ⟨names', hsub', hread'⟩ := ih fun s hs => hruns s (List.mem_cons_of_mem r hs)
    refine ⟨names ++ names', ?_, hread.trans hread'⟩
    rw [List.flatMap_cons]
    exact hsub.append hsub'

/-! ## Names that are listed once -/

/-- Where each name is listed once, the paths of all runs are different. -/
theorem GroupsInto.paths_nodup {o : ScanOptions} {now : Int} {job : String} {xs : List Listed}
    (h : GroupsInto o now job xs runs) (hnames : (xs.map (·.name)).Nodup) :
    (runs.flatMap Run.paths).Nodup := by
  rw [List.nodup_flatMap]
  constructor
  · intro r hr
    rw [h.records r hr, Run.paths, List.nodup_append]
    refine ⟨?_, ?_, ?_⟩
    · cases (o.record now job xs r.id).descriptorPath <;> simp
    · exact hnames.sublist (List.filter_sublist.map _)
    · -- A descriptor is no test result.
      rintro p hp q hq rfl
      obtain ⟨x, _, rfl, _, hkind, _⟩ :=
        ScanOptions.listed_descriptorPath (Option.mem_toList.mp hp)
      obtain ⟨y, hy, hname⟩ := List.mem_map.mp hq
      obtain ⟨_, hkind', _⟩ := of_decide_eq_true (List.mem_filter.mp hy).2
      rw [hname, hkind] at hkind'
      cases hkind'
  · refine List.Pairwise.imp_of_mem (fun {r s} hr hs hlt => ?_) h.inOrder
    intro p hp hp'
    have hids := (h.runId_of_mem_paths hr hp).symm.trans (h.runId_of_mem_paths hs hp')
    rw [Option.some.inj hids] at hlt
    exact lt_irrefl _ hlt

/-! ## Whole passes -/

/-- The error that ended the listing of a scan. -/
def scanError : Except BrokenScan (List Run) → Option Error
  | .ok _ => none
  | .error e => some e.source

/-- What a pass that has written all its runs ends with: the error of the listing, if there is one,
    and else the counts. -/
def passEnd (runs : List Run) (told : List Written) : Option Error → Except Error Summary
  | some e => .error e
  | none => .ok ⟨runs.length, runs.length, entryCount told⟩

/-- Behind its scan a pass writes the runs in turn. It reads no path of a run behind the one that
    fails. -/
theorem cacheRuns_inTurn {broken : Option Error} {result : Except Error Summary}
    (hruns : ∀ r ∈ runs, r.origin = .bucket [])
    (h : cacheRuns store root runs broken w = (result, w')) :
    ∃ done rest told w₂ names, runs = done ++ rest ∧ InTurn store root done w told w₂ ∧
      ((rest = [] ∧ w' = w₂ ∧ result = passEnd runs told broken) ∨
        ∃ r more e r', rest = r :: more ∧ r.write store root w₂ = (.error e, r', w') ∧
          result = .error e) ∧
      HasRead names w w' ∧ names.Sublist ((done ++ rest.take 1).flatMap Run.paths) := by
  cases hwrites : writeRuns store root runs ⟨runs.length, 0, 0⟩ w with
  | mk written w₁ =>
    obtain ⟨done, rest, told, w₂, rfl, hturn, hend⟩ := writeRuns_inTurn hwrites
    obtain ⟨names, hsub, hread⟩ := hturn.hasRead fun r hr => hruns r (List.mem_append_left _ hr)
    simp only [cacheRuns, hwrites] at h
    rcases hend with ⟨rfl, rfl, rfl⟩ | ⟨r, more, e, r', rfl, hwrite, rfl⟩
    · refine ⟨done, [], told, w₁, names, rfl, hturn, .inl ⟨rfl, ?_⟩, ?_⟩
      · cases broken with
        | some e =>
          obtain ⟨rfl, rfl⟩ := Prod.mk.inj h
          exact ⟨rfl, rfl⟩
        | none =>
          obtain ⟨rfl, rfl⟩ := Prod.mk.inj h
          exact ⟨rfl, by simp [passEnd]⟩
      · have hw : w' = w₁ := by cases broken <;> exact (Prod.mk.inj h).2.symm
        rw [hw]
        exact ⟨hread, by simpa using hsub⟩
    · obtain ⟨rfl, rfl⟩ := Prod.mk.inj h
      -- The run that failed may have been read, too.
      obtain ⟨names', hsub', hread'⟩ :=
        Run.write_hasRead store (hruns r (by simp)) root w₂
      rw [hwrite] at hread'
      refine ⟨done, r :: more, told, w₂, names ++ names', rfl, hturn,
        .inr ⟨r, more, e, r', rfl, hwrite, rfl⟩, hread.trans hread', ?_⟩
      rw [List.take_succ_cons, List.take_zero, List.flatMap_append, List.flatMap_singleton]
      exact hsub.append hsub'

/-- A pass scans, and unless the scan has been cancelled it goes on with the runs found. -/
theorem runPass_eq (store : Store) (o : PassOptions) (w : World) :
    runPass store o w =
      match o.scanOptions w.disk with
      | .error e => (.error e, w)
      | .ok options =>
        if (scanError (scan store options o.job w).1).any Error.isCancelled then
          (passEnd [] [] (scanError (scan store options o.job w).1), (scan store options o.job w).2)
        else
          cacheRuns store o.workingDir (scannedRuns (scan store options o.job w).1)
            (scanError (scan store options o.job w).1) (scan store options o.job w).2 := by
  unfold runPass
  cases o.scanOptions w.disk with
  | error e => rfl
  | ok options =>
    simp only
    generalize scan store options o.job w = answer
    obtain ⟨found, w₁⟩ := answer
    cases found <;> rfl

/-- **A pass follows its scan.** Where the newest run in the cache cannot be told, and where the scan
    has been cancelled, the pass ends with that error, has read no object and leaves the disk as it
    was. Otherwise it writes the runs of the scan in turn. The first that fails ends it with its
    error, and of the runs behind it nothing is read; where none fails, it ends with the error of the
    listing or with the counts. Where each name is listed once, no object is read twice. The first
    case is that of a directory which cannot be listed; it is told apart as the program does, though
    without permissions no disk comes to it. -/
theorem pass_follows_scan {o : PassOptions} {result : Except Error Summary}
    (h : runPass store o w = (result, w')) :
    (∃ e, o.scanOptions w.disk = .error e ∧ result = .error e ∧ w' = w) ∨
    ∃ options found w₁, o.scanOptions w.disk = .ok options ∧
      scan store options o.job w = (found, w₁) ∧ w₁.disk = w.disk ∧ HasRead [] w w₁ ∧
      ((∃ e, scanError found = some e ∧ e.isCancelled = true ∧ result = .error e ∧ w' = w₁) ∨
        (∀ e, scanError found = some e → e.isCancelled = false) ∧
        ∃ done rest told w₂ names, scannedRuns found = done ++ rest ∧
          InTurn store o.workingDir done w₁ told w₂ ∧
          ((rest = [] ∧ w' = w₂ ∧
              result = passEnd (scannedRuns found) told (scanError found)) ∨
            ∃ r more e r', rest = r :: more ∧
              r.write store o.workingDir w₂ = (.error e, r', w') ∧ result = .error e) ∧
          HasRead names w w' ∧ names.Sublist ((done ++ rest.take 1).flatMap Run.paths) ∧
          (((listedBefore (w.list store (options.query o.job))).map (·.name)).Nodup →
            names.Nodup)) := by
  rw [runPass_eq] at h
  split at h
  · next e hoptions =>
    obtain ⟨rfl, rfl⟩ := Prod.mk.inj h
    exact .inl ⟨e, hoptions, rfl, rfl⟩
  · next options hoptions =>
    have hgroups := scannedRuns_groupsInto store options o.job w
    have hcalls : World.Calls (fun e => e = .list (options.query o.job) ∨ e = .fired) w
        (scan store options o.job w).2 := by
      obtain ⟨_, w₀, heq, _, hcalls⟩ := scan_eq store options o.job w
      rw [heq]
      exact hcalls
    generalize hscan : scan store options o.job w = answer at h hgroups hcalls
    obtain ⟨found, w₁⟩ := answer
    have hlisted : HasRead [] w w₁ := .of_calls hcalls fun name => by simp
    refine .inr ⟨options, found, w₁, hoptions, hscan, hcalls.disk, hlisted, ?_⟩
    split at h
    · next hcancelled =>
      obtain ⟨e, he, hfired⟩ : ∃ e, scanError found = some e ∧ e.isCancelled = true := by
        simpa [Option.any_eq_true] using hcancelled
      obtain ⟨rfl, rfl⟩ := Prod.mk.inj h
      exact .inl ⟨e, he, hfired, by rw [he]; rfl, rfl⟩
    · next hgoes =>
      refine .inr ⟨fun e he => ?_, ?_⟩
      · rw [he] at hgoes
        simpa using hgoes
      · have hbucket : ∀ r ∈ scannedRuns found, r.origin = .bucket [] := by
          intro r hr
          rw [hgroups.records r hr]
          rfl
        obtain ⟨done, rest, told, w₂, names, hruns, hturn, hend, hread, hsub⟩ :=
          cacheRuns_inTurn hbucket h
        refine ⟨done, rest, told, w₂, names, hruns, hturn, hend, hlisted.trans hread, hsub,
          fun hnames => ?_⟩
        -- What is read are paths of different runs, and each of them is one object.
        have hall := hgroups.paths_nodup hnames
        rw [hruns] at hall
        exact hall.sublist
          (hsub.trans (((List.take_sublist 1 rest).append_left done).flatMap Run.paths))

/-- A bucket whose listing breaks behind two runs, the second of which cannot be read. -/
def brokenTwice : Memory where
  objects :=
    [("logs/job/1/prowjob.json", ⟨"\x7b\x7d".toUTF8, 0⟩),
     ("logs/job/2/prowjob.json", ⟨"\x7b\x7d".toUTF8, 0⟩)]
  brokenReads := ["logs/job/2/prowjob.json"]
  brokenAfter := some 2

/-- Whether an error is one of reading an object. -/
def Error.isFetch : Error → Bool
  | .fetch .. => true
  | _ => false

/-- A pass over that bucket ends with the failure of a run, not with that of the listing. -/
theorem pass_follows_scan_broken_twice :
    ∃ done r more told w₁ w₂ r' w' e listing,
      scan brokenTwice.store {} "job" { disk := {} } =
        (.error ⟨"job", done ++ r :: more, listing⟩, w₁) ∧ listing.isFetch = false ∧
      InTurn brokenTwice.store ⟨"/work"⟩ done w₁ told w₂ ∧
      r.write brokenTwice.store ⟨"/work"⟩ w₂ = (.error e, r', w') ∧ e.isFetch = true ∧
      runPass brokenTwice.store { job := "job", workingDir := ⟨"/work"⟩ } { disk := {} } =
        (.error e, w') := by
  have hlisting : (match (scan brokenTwice.store {} "job" { disk := {} }).1 with
      | .ok _ => false
      | .error e => e.job = "job" && !e.source.isFetch && !e.source.isCancelled) = true := by
    decide +kernel
  have hresult : (match (runPass brokenTwice.store { job := "job", workingDir := ⟨"/work"⟩ }
      { disk := {} }).1 with
      | .ok _ => false
      | .error e => e.isFetch) = true := by decide +kernel
  generalize hw : ({ disk := {} } : World) = w at hlisting hresult ⊢
  cases hpass : runPass brokenTwice.store { job := "job", workingDir := ⟨"/work"⟩ } w with
  | mk result w' =>
    rw [hpass] at hresult
    rcases pass_follows_scan hpass with ⟨_, hoptions, _⟩ | ⟨options, found, w₁, hoptions, hscan,
      _, _, hends⟩
    · cases hoptions
    · obtain rfl := Except.ok.inj hoptions
      have hscan : scan brokenTwice.store {} "job" w = (found, w₁) := hscan
      rw [hscan] at hlisting
      cases found with
      | ok runs => cases hlisting
      | error broken =>
        obtain ⟨job, runs, source⟩ := broken
        simp only [Bool.and_eq_true, decide_eq_true_eq, Bool.not_eq_true'] at hlisting
        obtain ⟨⟨rfl, hkind⟩, hgoes⟩ := hlisting
        rcases hends with ⟨e, he, hcancelled, _⟩ | ⟨_, done, rest, told, w₂, names, hruns, hturn,
          hend, _⟩
        · obtain rfl := Option.some.inj he
          rw [hgoes] at hcancelled
          cases hcancelled
        · rcases hend with ⟨_, _, rfl⟩ | ⟨r, more, e, r', rfl, hwrite, rfl⟩
          · have hfetch : source.isFetch = true := hresult
            rw [hkind] at hfetch
            cases hfetch
          · have hruns : runs = done ++ r :: more := hruns
            exact ⟨done, r, more, told, w₁, w₂, r', w', e, source, hruns ▸ hscan,
              hkind, hturn, hwrite, hresult, rfl⟩

end RunCache
