import RunCache.Proofs.Cache.Newest

/-! # Resuming

    A pass that resumes starts from the newest run in the cache and does
    not come back to runs below it.  So what a pass that ended in an error
    has left out is made up for, but for runs whose ids order below one that
    had already been cached.

    * **`resumed_pass_ok`**: what a resumed pass leaves.
    * **`first_pass_newest`**: what the newest run tells of the pass before.
    * **`resumed_pass_misses_only_older`**: the two passes together. -/

namespace RunCache

variable {store : Store} {m : Memory} {o : PassOptions} {w w' : World} {runs : List Run}

namespace Run

variable {root : Path} {r s : Run} {d : Disk}

theorem IsCached.mono {runs' : List Run} (h : IsCached root m runs d r)
    (hsub : runs.flatMap (Run.writes root m) ⊆ runs'.flatMap (Run.writes root m)) :
    IsCached root m runs' d r :=
  ⟨h.writes, fun f hf => (h.holds f hf).mono hsub⟩

/-- A run that lacks some test results of another one has no other files. -/
theorem writes_subset (hjob : s.job = r.job) (hdesc : s.descriptorPath = r.descriptorPath)
    (hresults : r.resultPaths ⊆ s.resultPaths) : r.writes root m ⊆ s.writes root m := by
  have hpaths : r.paths ⊆ s.paths := by
    intro p hp
    rw [paths, List.mem_append] at hp ⊢
    exact hp.imp (fun h => hdesc ▸ h) (fun h => hresults h)
  have hcontents : ∀ p bytes, (p, bytes) ∈ gathered m.bytes r.paths [] →
      (p, bytes) ∈ gathered m.bytes s.paths [] := by
    intro p bytes hmem
    obtain ⟨hp, hbytes⟩ := mem_gathered_iff.mp hmem
    exact mem_gathered_iff.mpr ⟨hpaths hp, hbytes⟩
  intro f hf
  obtain ⟨path, desc, hpath, hparse, hfile⟩ := mem_writes_iff.mp hf
  refine mem_writes_iff.mpr ⟨path, desc, hdesc.trans hpath, hparse, ?_⟩
  cases hfile with
  | object hmem => exact .object (hcontents _ _ hmem)
  | copy hmem heq => exact .copy (hcontents _ _ hmem) (hdesc ▸ heq)
  | entry hlabel hname h => exact hjob ▸ .entry hlabel hname h

end Run

/-! ## The resumed pass -/

/-- A resumed pass scans as it would have else, or leaves out what orders below the newest run. -/
theorem resumed_scanOptions {d : Disk} {options : ScanOptions}
    (h : PassOptions.scanOptions { o with resume := true } d = .ok options) :
    (options = o.scan ∨ o.scan.leastId = none) ∧ ∃ least,
      options = { o.scan with leastId := least } ∧ ∀ mark ∈ least, mark ∈ o.scan.leastId ∨
        newestCached? d o.workingDir o.job = .ok (some mark) := by
  unfold PassOptions.scanOptions at h
  split at h
  · next hnone =>
    have hleast : o.scan.leastId = none := by simpa using hnone
    obtain ⟨least, hnewest, rfl⟩ : ∃ least, newestCached? d o.workingDir o.job = .ok least ∧
        { o.scan with leastId := least } = options := by
      cases hnewest : newestCached? d o.workingDir o.job with
      | error e =>
        rw [hnewest] at h
        cases h
      | ok least =>
        rw [hnewest] at h
        exact ⟨least, rfl, Except.ok.inj h⟩
    refine ⟨.inr hleast, least, rfl, fun mark hmark => .inr ?_⟩
    rw [hnewest, Option.mem_def.mp hmark]
  · obtain rfl := Except.ok.inj h
    exact ⟨.inl rfl, o.scan.leastId, rfl, fun mark hmark => .inl hmark⟩

/-- A resumed pass that succeeds keeps what was cached, and caches every run that does not order
    below the newest one. -/
theorem resumed_pass_ok {s : Summary} {now : Int} (hstore : store.Serves m)
    (hruns : GroupsInto o.scan now o.job (m.listing (o.scan.query o.job)) runs)
    (hnow : o.scan.Recent now (m.listing (o.scan.query o.job)))
    (hrecent : o.scan.Recent w.now (m.listing (o.scan.query o.job)))
    (h : runPass store { o with resume := true } w = (.ok s, w')) :
    (∀ r, Run.IsCached o.workingDir m runs w.disk r → Run.IsCached o.workingDir m runs w'.disk r) ∧
      ∀ r ∈ runs, Run.IsCached o.workingDir m runs w'.disk r ∨ ∃ mark,
        newestCached? w.disk o.workingDir o.job = .ok (some mark) ∧
          RunId.order r.id mark = .lt := by
  rcases runPass_cases h with ⟨⟨e, he⟩, _⟩ | ⟨options, w₁, s₀, written, hoptions, hdisk, hwrite, hok⟩
  · cases he
  obtain ⟨rfl, found, hscan⟩ := hok s rfl
  obtain ⟨hsame, least, rfl, hleast⟩ := resumed_scanOptions hoptions
  have hfound := hstore.scan_found hscan
  rw [hscan] at hwrite
  -- The two scans differ in the least id, so they agree on runs that do not order below it.
  have hagree : ∀ id, ((∀ mark ∈ o.scan.leastId, RunId.order id mark ≠ .lt) ↔
        ∀ mark ∈ least, RunId.order id mark ≠ .lt) →
      ScanOptions.SameFor o.scan now { o.scan with leastId := least } w.now
        (m.listing (o.scan.query o.job)) id :=
    fun id hiff => ScanOptions.sameFor_of_recent hnow hrecent hiff
  -- What the resumed pass finds an uninterrupted scan finds as well.
  have hsub : ∀ r ∈ found, r ∈ runs := by
    intro r hr
    obtain ⟨hrecord, x, hx, hdesc⟩ := hfound.mem_iff.mp hr
    have habove : ∀ mark ∈ o.scan.leastId, RunId.order r.id mark ≠ .lt := by
      rcases hsame with heq | hnone
      · rw [← heq]
        exact hdesc.2.2
      · simp [hnone]
    have hiff := iff_of_true habove hdesc.2.2
    refine hruns.mem_iff.mpr ⟨hrecord.trans (hagree r.id hiff).record.symm, x, hx, ?_⟩
    exact (hagree r.id hiff x hx).1.mpr hdesc
  have hfresh : ∀ r ∈ found, r.origin = .bucket [] ∧
      r.writes o.workingDir m ⊆ runs.flatMap (Run.writes o.workingDir m) := by
    intro r hr
    refine ⟨?_, fun f hf => List.mem_flatMap.mpr ⟨r, hsub r hr, hf⟩⟩
    rw [hfound.records r hr]
    rfl
  obtain ⟨told, hturn⟩ := writeRuns_ok hwrite
  obtain ⟨hkeep, hall⟩ := hturn.holds hstore hfresh
  rw [hdisk] at hkeep
  refine ⟨fun r hr => ⟨hr.writes, fun f hf => hkeep f.1 (hr.holds f hf)⟩, fun r hr => ?_⟩
  obtain ⟨_, x, hx, hdesc⟩ := hruns.mem_iff.mp hr
  -- A run that does not order below the newest one is found again and written.
  by_cases habove : ∀ mark ∈ least, RunId.order r.id mark ≠ .lt
  · have hmem : r ∈ found :=
      hruns.mem_of_same hfound (hagree r.id (iff_of_true hdesc.2.2 habove)) hr
    obtain ⟨hne, _, hheld⟩ := hall r hmem
    exact .inl ⟨hne, hheld⟩
  · simp only [not_forall, not_not] at habove
    obtain ⟨mark, hmark, hlt⟩ := habove
    rcases hleast mark hmark with hold | hnewest
    · exact absurd hlt (hdesc.2.2 mark hold)
    · exact .inr ⟨mark, hnewest, hlt⟩

/-! ## The pass before -/

/-- In an empty directory a pass scans as it is told. -/
theorem scanOptions_of_empty {d : Disk} {options : ScanOptions} (hd : d.IsTree)
    (hroot : o.workingDir.IsRooted) (hjob : IsName o.job)
    (hempty : ∀ rel, rel ≠ [] → d.get? (o.workingDir.names ++ rel) = none)
    (h : o.scanOptions d = .ok options) : options = o.scan := by
  have htraced : d.Traced o.workingDir [] := .start hd hempty
  unfold PassOptions.scanOptions at h
  split at h
  · next hcond =>
    have hleast : o.scan.leastId = none := by
      simp only [Bool.and_eq_true, Option.isNone_iff_eq_none] at hcond
      exact hcond.2
    cases hnewest : newestCached? d o.workingDir o.job with
    | error e =>
      rw [hnewest] at h
      cases h
    | ok least =>
      cases least with
      | none =>
        rw [hnewest] at h
        rw [← Except.ok.inj h, ← hleast]
      | some mark =>
        obtain ⟨f, hf, _⟩ := htraced.newestCached hroot hjob hnewest
        cases hf
  · exact (Except.ok.inj h).symm

/-- What is first seen before a run that was attempted was written before it. -/
theorem mem_of_stands_before {seen : Run → Nat} {done last rest : List Run} {a r : Run}
    (hsplit : runs = done ++ last ++ rest) (hlen : last.length ≤ 1)
    (horder : runs.Pairwise fun r s => seen r < seen s) (ha : a ∈ done ++ last) (hr : r ∈ runs)
    (hlt : seen r < seen a) : r ∈ done := by
  rw [hsplit] at horder hr
  obtain ⟨hfront, _, hback⟩ := List.pairwise_append.mp horder
  rcases List.mem_append.mp hr with hr | hr
  · rcases List.mem_append.mp hr with hr | hr
    · exact hr
    · -- The run that failed stands behind all that were written.
      exfalso
      obtain ⟨_, _, hcross⟩ := List.pairwise_append.mp hfront
      rcases List.mem_append.mp ha with ha | ha
      · have := hcross a ha r hr
        omega
      -- Nothing else was attempted, so the run would stand before itself.
      · match last, hlen with
        | [b], _ =>
          rw [List.mem_singleton.mp ha, List.mem_singleton.mp hr] at hlt
          omega
  · have := hback a ha r hr
    omega

/-- After a pass over an empty directory the newest run is one that the pass came to write, and every
    run all of whose objects were listed before that one is cached. -/
theorem first_pass_newest {result : Except Error Summary} {now : Int} {mark : String}
    (hstore : store.Serves m)
    (hruns : GroupsInto o.scan now o.job (m.listing (o.scan.query o.job)) runs)
    (hnow : o.scan.Recent now (m.listing (o.scan.query o.job)))
    (hrecent : o.scan.Recent w.now (m.listing (o.scan.query o.job)))
    (hd : w.disk.IsTree) (hroot : o.workingDir.IsRooted) (hjob : IsName o.job)
    (hempty : ∀ rel, rel ≠ [] → w.disk.get? (o.workingDir.names ++ rel) = none)
    (h : runPass store o w = (result, w'))
    (hmark : newestCached? w'.disk o.workingDir o.job = .ok (some mark)) :
    ∃ t ∈ runs, t.id = mark ∧ ∀ r ∈ runs,
      (∀ y ∈ (m.listing (o.scan.query o.job)).drop
          (o.scan.firstSeen now (m.listing (o.scan.query o.job)) mark),
        ¬ o.scan.CountsFor now r.id y) →
      Run.IsCached o.workingDir m runs w'.disk r := by
  rcases runPass_cases h with ⟨_, hdisk⟩ | ⟨options, w₁, s₀, written, hoptions, hdisk, hwrite, _⟩
  · have htraced : w'.disk.Traced o.workingDir [] := .start (hdisk ▸ hd) (hdisk ▸ hempty)
    obtain ⟨f, hf, _⟩ := htraced.newestCached hroot hjob hmark
    cases hf
  obtain rfl := scanOptions_of_empty hd hroot hjob hempty hoptions
  obtain ⟨behind, hlisting⟩ := (hstore.listedBefore_isPrefix w (o.scan.query o.job)).1
  have hgroups := scannedRuns_groupsInto store o.scan o.job w
  generalize listedBefore (w.list store (o.scan.query o.job)) = seen at hlisting hgroups
  generalize scannedRuns (scan store o.scan o.job w).1 = runs₁ at hgroups hwrite
  generalize m.listing (o.scan.query o.job) = all at hlisting hruns hnow hrecent ⊢
  subst hlisting
  -- Both scans see the same of the objects that were listed before the first one ended.
  replace hgroups : GroupsInto o.scan now o.job seen runs₁ := by
    refine hgroups.of_same fun id => ScanOptions.sameFor_of_recent ?_ ?_ Iff.rfl
    · exact fun x hx => hrecent x (List.mem_append_left _ hx)
    · exact fun x hx => hnow x (List.mem_append_left _ hx)
  have hfresh : ∀ r ∈ runs₁, r.origin = .bucket [] ∧ IsName r.job := by
    intro r hr
    rw [hgroups.records r hr]
    exact ⟨rfl, hjob⟩
  obtain ⟨done, last, rest, hsplit, hlast⟩ :=
    writeRuns_attempted hstore hroot hfresh (hdisk ▸ hd) (hdisk ▸ hempty) hwrite
  obtain ⟨f, hf, hnames⟩ := hlast.traced.newestCached hroot hjob hmark
  obtain ⟨a, ha, hfa⟩ := List.mem_flatMap.mp hf
  have hattempted : ∀ r ∈ done ++ last, r ∈ runs₁ :=
    fun r hr => hsplit ▸ List.mem_append_left _ hr
  -- The newest run is one that was attempted: nothing else writes the file of its descriptor.
  have hid : a.id = mark := by
    obtain ⟨hdesc, hresults⟩ := o.scan.record_kinds now o.job seen a.id
    rw [← hgroups.records a (hattempted a ha)] at hdesc hresults
    refine a.id_of_descriptor hroot
      (hfresh a (hattempted a ha)).2 (hlast.stays a ha) hdesc ?_ hfa hnames
    exact fun p hp => (ObjectKind.ofName_eq_result (hresults p hp)).1
  obtain ⟨t, ht, htid, _⟩ := hgroups.extended hruns (hattempted a ha)
  -- A run that was found in part has no other files than the whole one.
  have hsub : (done ++ last).flatMap (Run.writes o.workingDir m) ⊆
      runs.flatMap (Run.writes o.workingDir m) := by
    intro f hf
    obtain ⟨r, hr, hf⟩ := List.mem_flatMap.mp hf
    obtain ⟨u, hu, _, hujob, hudesc, huresults⟩ := hgroups.extended hruns (hattempted r hr)
    exact List.mem_flatMap.mpr ⟨u, hu, Run.writes_subset hujob hudesc huresults hf⟩
  refine ⟨t, ht, htid.trans hid, fun r hr hbefore => ?_⟩
  rw [← hid] at hbefore
  obtain ⟨hmem, hlt⟩ := hgroups.found_before hruns (hattempted a ha) hr hbefore
  have hfirst := mem_of_stands_before hsplit hlast.atMostOne hgroups.inOrder ha hmem hlt
  exact (hlast.cached r hfirst).mono hsub

/-! ## Both passes -/

/-- **Resuming loses only older runs.** A pass has ended in an error, at whatever call, and a resumed
    pass over what it has left has succeeded. Then every run that an uninterrupted scan finds is
    cached, unless the first pass had not cached it and its id orders below the newest one that was
    cached. In a directory that was empty that takes a run with a greater id which was listed before
    the last object of the one that is lost. -/
theorem resumed_pass_misses_only_older {w₀ w₁ w₁' w₂ w₂' : World} {e : Error} {s : Summary}
    (hstore : store.Serves m)
    (hrecent : ∀ w ∈ [w₀, w₁, w₂], o.scan.Recent w.now (m.listing (o.scan.query o.job)))
    (hwhole : (scan store o.scan o.job w₀).1 = .ok runs)
    (hfirst : runPass store o w₁ = (.error e, w₁')) (hdisk : w₂.disk = w₁'.disk)
    (hsecond : runPass store { o with resume := true } w₂ = (.ok s, w₂')) :
    (∀ r ∈ runs, Run.IsCached o.workingDir m runs w₂'.disk r ∨
      (¬ Run.IsCached o.workingDir m runs w₁'.disk r ∧ ∃ mark,
        newestCached? w₁'.disk o.workingDir o.job = .ok (some mark) ∧
          RunId.order r.id mark = .lt)) ∧
    (w₁.disk.IsTree → o.workingDir.IsRooted → IsName o.job →
      (∀ rel, rel ≠ [] → w₁.disk.get? (o.workingDir.names ++ rel) = none) →
      ∀ r ∈ runs, Run.IsCached o.workingDir m runs w₂'.disk r ∨
        ∃ t ∈ runs, RunId.order r.id t.id = .lt ∧
          ∃ y ∈ (m.listing (o.scan.query o.job)).drop
              (o.scan.firstSeen w₀.now (m.listing (o.scan.query o.job)) t.id),
            o.scan.CountsFor w₀.now r.id y) := by
  have hruns := hstore.scan_found hwhole
  have hnow := hrecent w₀ (by simp)
  obtain ⟨hkept, hcached⟩ := resumed_pass_ok hstore hruns hnow (hrecent w₂ (by simp)) hsecond
  rw [hdisk] at hkept hcached
  refine ⟨fun r hr => ?_, fun hd hroot hjob hempty r hr => ?_⟩
  · by_cases hold : Run.IsCached o.workingDir m runs w₁'.disk r
    · exact .inl (hkept r hold)
    · exact (hcached r hr).imp id fun hmark => ⟨hold, hmark⟩
  · rcases hcached r hr with hnew | ⟨mark, hmark, hlt⟩
    · exact .inl hnew
    · obtain ⟨t, ht, rfl, hbefore⟩ := first_pass_newest hstore hruns hnow (hrecent w₁ (by simp))
        hd hroot hjob hempty hfirst hmark
      by_cases hlate : ∃ y ∈ (m.listing (o.scan.query o.job)).drop
          (o.scan.firstSeen w₀.now (m.listing (o.scan.query o.job)) t.id),
          o.scan.CountsFor w₀.now r.id y
      · exact .inr ⟨t, ht, hlt, hlate⟩
      · exact .inl (hkept r (hbefore r hr fun y hy hy' => hlate ⟨y, hy, hy'⟩))

/-! ### A listing that breaks between runs of different width -/

/-- A bucket whose first listing breaks off after some objects. -/
def Memory.brokenOnce (m : Memory) (count : Nat) : Store where
  list w q :=
    if w.trace.isEmpty then { m with brokenAfter := some count }.store.list w q
    else m.store.list w q
  read := m.store.read

theorem Memory.brokenOnce_serves (m : Memory) (count : Nat) : (m.brokenOnce count).Serves m := by
  refine ⟨fun w q items houtcome => ?_, m.store_serves.reads⟩
  unfold brokenOnce at houtcome
  simp only at houtcome
  split at houtcome
  · exact ({ m with brokenAfter := some count } : Memory).store_serves.lists w q items houtcome
  · exact m.store_serves.lists w q items houtcome

namespace TwoRuns

/-- A bucket in which the run of the greater id is listed first. -/
def bucket : Memory where
  objects :=
    [("logs/job/1000/prowjob.json", ⟨"\x7b\x7d".toUTF8, 0⟩),
     ("logs/job/999/prowjob.json", ⟨"\x7b\x7d".toUTF8, 0⟩)]

/-- Its store, whose first listing breaks off after the first object. -/
def source : Store := bucket.brokenOnce 1

/-- A pass over the bucket. -/
def pass : PassOptions where
  job := "job"
  workingDir := ⟨"/work"⟩

/-- The world before the pass, with an empty disk. -/
def start : World := { disk := {} }

/-- A world in which the listing does not break off. -/
def later : World := { disk := {}, trace := [.fired] }

/-- The world that the pass leaves. -/
def broken : World := (runPass source pass start).2

/-- The world that the resumed pass leaves. -/
def resumed : World := (runPass source { pass with resume := true } broken).2

theorem recent : ∀ w ∈ [later, start, broken],
    pass.scan.Recent w.now (bucket.listing (pass.scan.query pass.job)) := by
  unfold ScanOptions.Recent
  decide +kernel

/-- The pass fails, the resumed one succeeds, and so does a scan that is not interrupted. -/
theorem passes : ∃ runs e s, (scan source pass.scan pass.job later).1 = .ok runs ∧
    runPass source pass start = (.error e, broken) ∧
    runPass source { pass with resume := true } broken = (.ok s, resumed) := by
  have hscan : (scan source pass.scan pass.job later).1.isOk = true := by decide +kernel
  have hfirst : (runPass source pass start).1.isOk = false := by decide +kernel
  have hsecond : (runPass source { pass with resume := true } broken).1.isOk = true := by
    decide +kernel
  unfold resumed
  generalize runPass source { pass with resume := true } broken = second at hsecond ⊢
  generalize scan source pass.scan pass.job later = found at hscan ⊢
  unfold broken
  generalize runPass source pass start = first at hfirst ⊢
  obtain ⟨firstResult, w⟩ := first
  obtain ⟨secondResult, w'⟩ := second
  obtain ⟨foundResult, w''⟩ := found
  cases firstResult with
  | ok s => cases hfirst
  | error e =>
    cases secondResult with
    | error e => cases hsecond
    | ok s =>
      cases foundResult with
      | error e => cases hscan
      | ok runs => exact ⟨runs, e, s, rfl, rfl, rfl⟩

end TwoRuns

/-- After the passes over the two runs each of them is cached or was listed too late. -/
theorem resumed_pass_misses_only_older_two_runs :
    ∃ runs, (scan TwoRuns.source TwoRuns.pass.scan TwoRuns.pass.job TwoRuns.later).1 = .ok runs ∧
      ∀ r ∈ runs, Run.IsCached TwoRuns.pass.workingDir TwoRuns.bucket runs TwoRuns.resumed.disk r ∨
        ∃ t ∈ runs, RunId.order r.id t.id = .lt ∧
          ∃ y ∈ (TwoRuns.bucket.listing (TwoRuns.pass.scan.query TwoRuns.pass.job)).drop
              (TwoRuns.pass.scan.firstSeen TwoRuns.later.now
                (TwoRuns.bucket.listing (TwoRuns.pass.scan.query TwoRuns.pass.job)) t.id),
            TwoRuns.pass.scan.CountsFor TwoRuns.later.now r.id y := by
  obtain ⟨runs, e, s, hwhole, hfirst, hsecond⟩ := TwoRuns.passes
  have hempty : ∀ rel, rel ≠ [] → TwoRuns.start.disk.get? (["work"] ++ rel) = none :=
    fun rel _ => Disk.get_of_ne_nil (by simp)
  have hboth := resumed_pass_misses_only_older (TwoRuns.bucket.brokenOnce_serves 1) TwoRuns.recent
    hwhole hfirst rfl hsecond
  exact ⟨runs, hwhole, hboth.2 Disk.IsTree.empty ⟨by decide, by decide⟩ (by decide) hempty⟩

/-- A run that the first pass has not come to is lost where its id orders below one that was cached:
    of the two runs only the first one listed is there after both passes. -/
theorem resumed_pass_misses_older : ¬ ∀ (store : Store) (m : Memory) (o : PassOptions)
    (w₀ w₁ w₁' w₂ w₂' : World) (e : Error) (s : Summary) (runs : List Run),
    store.Serves m →
    (∀ w ∈ [w₀, w₁, w₂], o.scan.Recent w.now (m.listing (o.scan.query o.job))) →
    w₁.disk.IsTree → (∀ rel, rel ≠ [] → w₁.disk.get? (o.workingDir.names ++ rel) = none) →
    (scan store o.scan o.job w₀).1 = .ok runs →
    runPass store o w₁ = (.error e, w₁') → w₂.disk = w₁'.disk →
    runPass store { o with resume := true } w₂ = (.ok s, w₂') →
    ∀ r ∈ runs, Run.IsCached o.workingDir m runs w₂'.disk r := by
  intro hclaim
  obtain ⟨runs, e, s, hwhole, hfirst, hsecond⟩ := TwoRuns.passes
  have hempty : ∀ rel, rel ≠ [] → TwoRuns.start.disk.get? (["work"] ++ rel) = none :=
    fun rel _ => Disk.get_of_ne_nil (by simp)
  have hall := hclaim TwoRuns.source TwoRuns.bucket TwoRuns.pass TwoRuns.later TwoRuns.start
    TwoRuns.broken TwoRuns.broken TwoRuns.resumed e s runs (TwoRuns.bucket.brokenOnce_serves 1)
    TwoRuns.recent Disk.IsTree.empty hempty hwhole hfirst rfl hsecond
  -- Some run has a file that is missing.
  have hmissing : ((scannedRuns (scan TwoRuns.source TwoRuns.pass.scan TwoRuns.pass.job
      TwoRuns.later).1).any fun r => (r.writes TwoRuns.pass.workingDir TwoRuns.bucket).any fun f =>
        !TwoRuns.resumed.disk.isFile f.1) = true := by decide +kernel
  rw [hwhole] at hmissing
  obtain ⟨r, hr, hmissing⟩ := List.any_eq_true.mp hmissing
  obtain ⟨f, hf, hmissing⟩ := List.any_eq_true.mp hmissing
  obtain ⟨_, _, _, _, hstat, _⟩ := (hall r hr).holds f hf
  have hfile : TwoRuns.resumed.disk.isFile f.1 = true := by
    unfold Disk.isFile
    rw [hstat]
    rfl
  rw [hfile] at hmissing
  cases hmissing

end RunCache
