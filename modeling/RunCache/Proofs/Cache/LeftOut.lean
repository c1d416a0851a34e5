import RunCache.Bucket.Memory
import RunCache.Cache.Pass
import RunCache.Proofs.Scan.Records

/-! # What a resumed pass leaves out

    A scan with a least id drops objects one by one, before it groups them.
    It finds what is left of the runs of the scan without one when whole
    runs are dropped: an object that is dropped belongs to a run that is
    dropped, and changes no other.

    * **`runsFrom`**: the runs whose ids do not order below a mark.
    * **`Grouping.update_filter`**: one run is changed.
    * **`Grouping.add_filter`**: one object more.
    * **`takeItems_filter`**: the items of a listing in turn.
    * **`scan_filter`**: a scan, whole or broken.
    * **`resume_leaves_out_runs`**: a pass that resumes. -/

namespace RunCache

variable {store : Store} {o : ScanOptions} {job id mark : String} {now : Int} {w : World}

/-! ## Runs that are left -/

/-- The runs whose ids do not order below a mark, if there is one. -/
def runsFrom : Option String → List Run → List Run
  | none, runs => runs
  | some mark, runs => runs.filter fun r => RunId.order r.id mark ≠ .lt

/-- What is left of the runs of a scan. A scan that broke ends with the same error. -/
def foundFrom (mark : Option String) : Except BrokenScan (List Run) → Except BrokenScan (List Run)
  | .ok runs => .ok (runsFrom mark runs)
  | .error e => .error { e with runs := runsFrom mark e.runs }

theorem runsFrom_complete (mark : String) (g : Grouping) :
    runsFrom (some mark) g.complete = Grouping.complete (runsFrom (some mark) g) := by
  show List.filter _ (List.filter _ g) = List.filter _ (List.filter _ g)
  rw [List.filter_filter, List.filter_filter]
  apply List.filter_congr
  intro r _
  exact Bool.and_comm _ _

/-! ## One object more -/

/-- With a least id, the objects that count are those of the other runs. -/
theorem ScanOptions.kind_leastId (hleast : o.leastId = none) (mark : String) (x : Listed) :
    ScanOptions.kind? { o with leastId := some mark } now x =
      (o.kind? now x).filter fun kind => kind.runId?.all fun id => RunId.order id mark ≠ .lt := by
  unfold ScanOptions.kind?
  by_cases hold : now - x.created > o.window
  · rw [if_pos hold, if_pos hold]
    rfl
  · rw [if_neg hold, if_neg hold]
    cases hrun : (ObjectKind.ofName x.name).runId? with
    | none => simp [hrun, Option.filter]
    | some id =>
      by_cases hbelow : RunId.order id mark = .lt
      · simp [hrun, hleast, ScanOptions.isBelow, hbelow, Option.filter]
      · simp [hrun, hleast, ScanOptions.isBelow, hbelow, Option.filter]

namespace Grouping

variable {change : Run → Run}

/-- A run that stays is changed alike in what is left; the change of one that goes leaves nothing
    behind. -/
theorem update_filter (job : String) (hchange : ∀ r, (change r).id = r.id) (p : String → Bool)
    (id : String) (g : Grouping) : (g.update job id change).filter (fun r => p r.id) =
      if p id then update job id change (g.filter fun r => p r.id)
      else g.filter fun r => p r.id := by
  induction g with
  | nil =>
    -- The run is met now.
    show List.filter _ [change { job, id }] = _
    cases hp : p id with
    | true => simp [hchange, hp, update]
    | false => simp [hchange, hp]
  | cons r g ih =>
    by_cases hr : r.id = id
    · rw [update, if_pos hr]
      cases hp : p id with
      | true => simp [hchange, hr, hp, update]
      | false => simp [hchange, hr, hp]
    · -- Another run stands first, and stays or goes whatever happens behind it.
      rw [update, if_neg hr, List.filter_cons, ih, List.filter_cons]
      cases hstays : p r.id with
      | true =>
        cases hp : p id with
        | true => simp [update, hr]
        | false => simp
      | false => simp

/-- Dropping an object that belongs to a run that goes is the same as dropping the run. -/
theorem add_filter (hleast : o.leastId = none) (mark : String) (x : Listed) (g : Grouping) :
    runsFrom (some mark) (g.add o job now x) =
      add { o with leastId := some mark } job now (runsFrom (some mark) g) x := by
  have hupdate : ∀ (id : String) (change : Run → Run), (∀ r, (change r).id = r.id) →
      runsFrom (some mark) (g.update job id change) =
        if RunId.order id mark ≠ .lt then update job id change (runsFrom (some mark) g)
        else runsFrom (some mark) g := by
    intro id change hchange
    have hfilter := update_filter job hchange (fun id => RunId.order id mark ≠ .lt) id g
    simp only [decide_eq_true_eq] at hfilter
    exact hfilter
  unfold add
  rw [ScanOptions.kind_leastId hleast]
  cases o.kind? now x with
  | none => rfl
  | some kind =>
    -- An object of a run is added to that run, so it stays or goes with it.
    cases kind with
    | descriptor id =>
      show runsFrom (some mark) (g.update job id _) = _
      rw [hupdate id _ (by intro r; split <;> rfl)]
      by_cases hbelow : RunId.order id mark = .lt
      · simp [Option.filter, ObjectKind.runId?, hbelow]
      · simp [Option.filter, ObjectKind.runId?, hbelow, addKind]
    | result id =>
      show runsFrom (some mark) (g.update job id _) = _
      rw [hupdate id _ (by intro r; rfl)]
      by_cases hbelow : RunId.order id mark = .lt
      · simp [Option.filter, ObjectKind.runId?, hbelow]
      · simp [Option.filter, ObjectKind.runId?, hbelow, addKind]
    | other => rfl

end Grouping

/-! ## Whole scans -/

/-- A listing is taken in alike with and without a least id, and what has been met differs by the
    runs that go. -/
theorem takeItems_filter (hleast : o.leastId = none) (mark job : String) (items : List Delivery)
    (g : Grouping) (w : World) :
    takeItems { o with leastId := some mark } job items (runsFrom (some mark) g) w =
      (runsFrom (some mark) (takeItems o job items g w).1, (takeItems o job items g w).2) := by
  induction items generalizing g w with
  | nil =>
    unfold takeItems
    split
    · rfl
    · rfl
  | cons x rest ih =>
    unfold takeItems
    split
    · rfl
    · -- What happens to the signal does not depend on what is met.
      generalize (if x.fires then w.fire else w) = v
      cases x.item with
      | error e => rfl
      | ok object =>
        simp only
        rw [← Grouping.add_filter hleast]
        exact ih _ _

/-- With a least id, a scan finds what is left of the runs it would find without one. -/
theorem scan_filter (store : Store) (hleast : o.leastId = none) (mark : Option String)
    (job : String) (w : World) :
    scan store { o with leastId := mark } job w =
      (foundFrom mark (scan store o job w).1, (scan store o job w).2) := by
  cases mark with
  | none =>
    have hself : ({ o with leastId := none } : ScanOptions) = o := by rw [← hleast]
    rw [hself]
    cases scan store o job w with
    | mk found w' =>
      cases found with
      | ok runs => rfl
      | error e => rfl
  | some mark =>
    have hquery : ScanOptions.query { o with leastId := some mark } job = o.query job := rfl
    unfold scan
    rw [hquery]
    cases w.list store (o.query job) with
    | mk result v =>
      cases result with
      | error source => rfl
      | ok items =>
        have hitems := takeItems_filter hleast mark job items [] v
        have hstart : runsFrom (some mark) ([] : Grouping) = [] := rfl
        rw [hstart] at hitems
        simp only [hitems]
        -- The complete ones among the runs that are left are those left of the complete ones.
        cases takeItems o job items [] v with
        | mk g rest =>
          obtain ⟨broken, v'⟩ := rest
          cases broken with
          | none => simp only [foundFrom, runsFrom_complete]
          | some source => simp only [foundFrom, runsFrom_complete]

/-! ## Passes that resume -/

/-- What a pass does with what its scan has found. -/
def passOver (store : Store) (root : Path) (found : Except BrokenScan (List Run)) (w : World) :
    Except Error Summary × World :=
  match found with
  | .ok runs => cacheRuns store root runs none w
  | .error e =>
    if e.source.isCancelled then (.error e.source, w)
    else cacheRuns store root e.runs (some e.source) w

theorem runPass_eq_passOver {o : PassOptions} {options : ScanOptions}
    (h : o.scanOptions w.disk = .ok options) :
    runPass store o w = passOver store o.workingDir (scan store options o.job w).1
      (scan store options o.job w).2 := by
  unfold runPass
  rw [h]
  simp only
  generalize scan store options o.job w = answer
  obtain ⟨found, w'⟩ := answer
  cases found with
  | ok runs => rfl
  | error e => rfl

/-- A pass that resumes lists what it would have listed else, and goes on with what is left of the
    same runs, in the same order, when those below the newest run in the cache are left out.  This
    holds alike for a scan that broke, and without a run in the cache nothing is left out. -/
theorem resume_leaves_out_runs (store : Store) {o : PassOptions} {mark : Option String}
    (hleast : o.scan.leastId = none)
    (hmark : newestCached? w.disk o.workingDir o.job = .ok mark) :
    ∃ whole resumed found w',
      PassOptions.scanOptions { o with resume := false } w.disk = .ok whole ∧
      PassOptions.scanOptions { o with resume := true } w.disk = .ok resumed ∧
      resumed.query o.job = whole.query o.job ∧
      scan store whole o.job w = (found, w') ∧
      scan store resumed o.job w = (foundFrom mark found, w') ∧
      runPass store { o with resume := false } w = passOver store o.workingDir found w' ∧
      runPass store { o with resume := true } w =
        passOver store o.workingDir (foundFrom mark found) w' := by
  have hwhole : PassOptions.scanOptions { o with resume := false } w.disk = .ok o.scan := rfl
  have hresumed : PassOptions.scanOptions { o with resume := true } w.disk =
      .ok { o.scan with leastId := mark } := by
    unfold PassOptions.scanOptions
    rw [if_pos (by simp [hleast]), hmark]
    rfl
  have hscan := scan_filter store hleast mark o.job w
  refine ⟨o.scan, _, (scan store o.scan o.job w).1, (scan store o.scan o.job w).2, hwhole, hresumed,
    rfl, rfl, hscan, runPass_eq_passOver hwhole, ?_⟩
  rw [runPass_eq_passOver hresumed]
  show passOver store o.workingDir (scan store _ o.job w).1 (scan store _ o.job w).2 = _
  rw [hscan]

namespace GrownJob

/-- A bucket whose listing breaks off before the last of its four runs. -/
def bucket : Memory where
  objects :=
    [("logs/job/10/prowjob.json", ⟨"\x7b\x7d".toUTF8, 0⟩),
     ("logs/job/100/prowjob.json", ⟨"\x7b\x7d".toUTF8, 0⟩),
     ("logs/job/9/prowjob.json", ⟨"\x7b\x7d".toUTF8, 0⟩),
     ("logs/job/99/prowjob.json", ⟨"\x7b\x7d".toUTF8, 0⟩)]
  brokenAfter := some 3

/-- A pass over the bucket. -/
def pass : PassOptions where
  job := "job"
  workingDir := ⟨"/work"⟩

/-- A world in which one of the runs is cached. -/
def start : World where
  disk :=
    { entries :=
        [(["work"], .dir false), (["work", "logs"], .dir false),
         (["work", "logs", "job"], .dir false), (["work", "logs", "job", "10"], .dir false),
         (["work", "logs", "job", "10", "prowjob.json"], .file "\x7b\x7d".toUTF8 0)] }

end GrownJob

/-- Resumed behind the run 10, a pass over the broken listing leaves out the run 9 of the three that
    were met. -/
theorem resume_leaves_out_runs_broken :
    ∃ e resumed w', scan GrownJob.bucket.store GrownJob.pass.scan GrownJob.pass.job GrownJob.start =
        (.error e, w') ∧
      e.runs.map (·.id) = ["10", "100", "9"] ∧
      PassOptions.scanOptions { GrownJob.pass with resume := true } GrownJob.start.disk =
        .ok resumed ∧
      scan GrownJob.bucket.store resumed GrownJob.pass.job GrownJob.start =
        (.error { e with runs := runsFrom (some "10") e.runs }, w') ∧
      (runsFrom (some "10") e.runs).map (·.id) = ["10", "100"] := by
  have hmark : newestCached? GrownJob.start.disk GrownJob.pass.workingDir GrownJob.pass.job =
      .ok (some "10") := by
    have hvalue : (newestCached? GrownJob.start.disk GrownJob.pass.workingDir
        GrownJob.pass.job).toOption = some (some "10") := by decide +kernel
    generalize newestCached? GrownJob.start.disk GrownJob.pass.workingDir GrownJob.pass.job = mark
      at hvalue
    cases mark with
    | error e => cases hvalue
    | ok mark => rw [Option.some.inj hvalue]
  obtain ⟨whole, resumed, found, w', hwhole, hresumed, _, hscan, hleft, _⟩ :=
    resume_leaves_out_runs GrownJob.bucket.store (o := GrownJob.pass) rfl hmark
  obtain rfl : GrownJob.pass.scan = whole := Except.ok.inj hwhole
  have hids : ((scan GrownJob.bucket.store GrownJob.pass.scan GrownJob.pass.job
        GrownJob.start).1.isOk = false) ∧
      (scannedRuns (scan GrownJob.bucket.store GrownJob.pass.scan GrownJob.pass.job
        GrownJob.start).1).map (·.id) = ["10", "100", "9"] ∧
      (runsFrom (some "10") (scannedRuns (scan GrownJob.bucket.store GrownJob.pass.scan
        GrownJob.pass.job GrownJob.start).1)).map (·.id) = ["10", "100"] := by decide +kernel
  rw [hscan] at hids
  cases found with
  | ok runs => cases hids.1
  | error e => exact ⟨e, resumed, w', hscan, hids.2.1, hresumed, hleft, hids.2.2⟩

end RunCache
