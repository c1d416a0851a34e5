import RunCache.Bucket.Memory
import RunCache.Proofs.Script.Cancelled

/-! # Sessions under a signal

    Operations are run one after the other, and the signal that they share
    fires at whatever moment: before an operation, between two calls or
    during one.

    * **`Task`**: the operations, each with the script that does the same
      (`Task.script_run`).
    * **`Session`**: sequences of them, and what happened meanwhile.
    * **`scanScript_groups`**: the runs of a scan are those of the items
      that it has processed, however it ends.
    * **`signal_stops_traffic`**: what firing does to a session. -/

namespace RunCache

open World (Elapses)

/-! ## Operations -/

/-- An operation. -/
inductive Task where
  | content (path : String) (r : Run)
  | descriptor (r : Run)
  | contents (r : Run)
  | write (root : Path) (r : Run)
  | scan (o : ScanOptions) (job : String)
  | pass (o : PassOptions)
  | reindex (root : Path) (job : String)

/-- The error of a result. -/
def failure? {ε α : Type} : Except ε α → Option ε
  | .error e => some e
  | .ok _ => none

namespace Task

/-- What an operation leaves. -/
def Result : Task → Type
  | content _ _ => Except Error ByteArray × Run
  | descriptor _ => Except Error Descriptor × Run
  | contents _ => Except Error (Fields ByteArray) × Run
  | write _ _ => Except Error Written × Run
  | scan _ _ => Except BrokenScan (List Run)
  | pass _ => Except Error Summary
  | reindex _ _ => Except Error Nat

/-- The error with which an operation ends. -/
def error? : (t : Task) → t.Result → Option Error
  | content _ _, a => failure? a.1
  | descriptor _, a => failure? a.1
  | contents _, a => failure? a.1
  | write _ _, a => failure? a.1
  | scan _ _, a => (failure? a).map BrokenScan.source
  | pass _, a => failure? a
  | reindex _ _, a => failure? a

/-- Does an operation with a store. -/
def perform (store : Store) (w : World) : (t : Task) → t.Result × World
  | content path r => (r.content store path w).split
  | descriptor r => (r.descriptor store w).split
  | contents r => (r.contents store w).split
  | write root r => (r.write store root w).split
  | scan o job => RunCache.scan store o job w
  | pass o => runPass store o w
  | reindex root job => RunCache.reindex root job w

/-- The script of an operation. -/
def script : (t : Task) → Script t.Result
  | content path r => r.contentScript path
  | descriptor r => r.descriptorScript
  | contents r => r.contentsScript
  | write root r => r.writeScript root
  | scan o job => scanScript o job
  | pass o => passScript o
  | reindex root job => reindexScript root job

/-- With a store the script does what the operation does. -/
theorem script_run (store : Store) (t : Task) (w : World) :
    t.script.run store w = t.perform store w := by
  cases t with
  | content path r => exact Run.contentScript_run store path r w
  | descriptor r => exact Run.descriptorScript_run store r w
  | contents r => exact Run.contentsScript_run store r w
  | write root r => exact Run.writeScript_run store root r w
  | scan o job => exact scanScript_run store o job w
  | pass o => exact passScript_run store o w
  | reindex root job => exact reindexScript_run store root job w

/-- Every operation that is kept from something by the signal ends as cancelled. -/
theorem cancelled (t : Task) {w w' : World} {history : List Moment} {a : t.Result}
    (h : t.script.Runs w history a w') (hm : ∃ m ∈ history, m.isCancelled = true) :
    t.error? a = some .cancelled := by
  cases t with
  | content path r =>
    show failure? a.1 = _
    rw [h.cancelled (Run.contentScript_heeds path r) hm]
    rfl
  | descriptor r =>
    show failure? a.1 = _
    rw [h.cancelled (Run.descriptorScript_heeds r) hm]
    rfl
  | contents r =>
    show failure? a.1 = _
    rw [h.cancelled (Run.contentsScript_heeds r) hm]
    rfl
  | write root r =>
    show failure? a.1 = _
    rw [h.cancelled (Run.writeScript_heeds root r) hm]
    rfl
  | scan o job =>
    obtain ⟨runs, ha⟩ := h.cancelled (scanScript_heeds o job) hm
    show (failure? a).map _ = _
    rw [ha]
    rfl
  | pass o =>
    show failure? a = _
    rw [h.cancelled (passScript_heeds o) hm]
    rfl
  | reindex root job =>
    show failure? a = _
    rw [h.cancelled (reindexScript_heeds root job) hm]
    rfl

end Task

/-! ## Items that have been processed -/

/-- The object that a scan processes in a moment. -/
def Moment.processed : Moment → List Listed
  | passes (.item x) (.ok _) => x.item.toOption.toList
  | _ => []

/-- What a scan has grouped when it ends is what it has processed. -/
theorem takeItemsScript_groups {o : ScanOptions} {job : String} {now : Int}
    {items : List Delivery} {g : Grouping} {w w' : World} {history : List Moment}
    {a : Grouping × Option Error}
    (h : (takeItemsScript o job now items g).Runs w history a w') :
    a.1 = (history.flatMap Moment.processed).foldl (Grouping.add o job now) g := by
  induction items generalizing g w history with
  | nil =>
    obtain ⟨before, w₁, m, answer, w₂, after, rfl, hbefore, hpass, hafter⟩ := h
    rw [List.flatMap_append, List.flatMap_cons, hbefore.flatMap_eq_nil rfl]
    cases hpass with
    | passes =>
      cases answer with
      | error e =>
        rw [hafter.2.flatMap_eq_nil rfl, hafter.1]
        rfl
      | ok _ =>
        rw [hafter.2.flatMap_eq_nil rfl, hafter.1]
        rfl
    | cuts _ hcall => cases hcall
    | refuses =>
      rw [hafter.2.flatMap_eq_nil rfl, hafter.1]
      rfl
  | cons x rest ih =>
    obtain ⟨before, w₁, m, answer, w₂, after, rfl, hbefore, hpass, hafter⟩ := h
    rw [List.flatMap_append, List.flatMap_cons, hbefore.flatMap_eq_nil rfl]
    cases hpass with
    | passes =>
      cases answer with
      | error e =>
        rw [hafter.2.flatMap_eq_nil rfl, hafter.1]
        rfl
      | ok _ =>
        -- The item is an object, which is processed, or the error that ends the listing.
        simp only [Moment.processed]
        cases hitem : x.item with
        | error e =>
          simp only [hitem] at hafter
          rw [hafter.2.flatMap_eq_nil rfl, hafter.1]
          rfl
        | ok object =>
          simp only [hitem] at hafter
          exact ih hafter
    | cuts _ hcall => cases hcall
    | refuses =>
      rw [hafter.2.flatMap_eq_nil rfl, hafter.1]
      rfl

/-- The clock of an operation stands still. -/
theorem World.Elapses.now {w w' : World} {history : List Moment} (h : w.Elapses history w') :
    w'.now = w.now := by
  induction h with
  | refl => rfl
  | waits _ _ ih => exact ih
  | fires _ _ ih => rw [ih, World.fire_now]

/-- However a scan ends, its runs are those of the objects that it has processed. -/
theorem scanScript_groups {o : ScanOptions} {job : String} {w w' : World}
    {history : List Moment} {a : Except BrokenScan (List Run)}
    (h : (scanScript o job).Runs w history a w') :
    GroupsInto o w.now job (history.flatMap Moment.processed) (scannedRuns a) := by
  obtain ⟨start, w₁, _, rfl, hstart, before, _, m, answer, w₂, after, rfl, hbefore, hpass, hafter⟩ :=
    h
  have hnothing : GroupsInto o w.now job [] [] := Grouping.complete_groupsInto o job w.now []
  rw [List.flatMap_append, List.flatMap_append, List.flatMap_cons, hstart.flatMap_eq_nil rfl,
    hbefore.flatMap_eq_nil rfl]
  cases hpass with
  | passes =>
    cases answer with
    | error source =>
      rw [hafter.2.flatMap_eq_nil rfl, hafter.1]
      exact hnothing
    | ok items =>
      obtain ⟨_, taken, _, _, rfl, htaken, hdone⟩ := hafter.of_bind
      have hruns : scannedRuns a = taken.1.complete := by
        rw [hdone.1]
        rcases taken with ⟨g, _ | e⟩
        · rfl
        · rfl
      rw [List.flatMap_append, hdone.2.flatMap_eq_nil rfl, List.append_nil, hruns,
        takeItemsScript_groups htaken, hstart.now]
      exact Grouping.complete_groupsInto o job w.now _
  | cuts =>
    rw [hafter.2.flatMap_eq_nil rfl, hafter.1]
    exact hnothing
  | refuses =>
    rw [hafter.2.flatMap_eq_nil rfl, hafter.1]
    exact hnothing

/-! ## Failures of a sweep -/

/-- No failure that a sweep reports is a cancelled read. -/
theorem Run.sweepScript_failures {paths : List String} {failures : Failures}
    {contents : Fields ByteArray} {r r' : Run} {w w' : World} {history : List Moment} {tried : Nat}
    {failed : List (String × Error)} (hfailures : ∀ e ∈ failures.failed, e.2 ≠ .cancelled)
    (h : (sweepScript paths failures contents r).Runs w history (.error (.fetches tried failed), r')
      w') : ∀ e ∈ failed, e.2 ≠ .cancelled := by
  induction paths generalizing failures contents r w history with
  | nil =>
    have hcheck := (Prod.mk.inj h.1).1
    unfold Failures.check at hcheck
    split at hcheck
    · cases hcheck
    · obtain ⟨_, rfl⟩ := Error.fetches.inj (Except.error.inj hcheck)
      exact hfailures
  | cons path rest ih =>
    obtain ⟨_, ⟨result, r₁⟩, _, _, rfl, _, hrest⟩ := h.of_bind
    cases result with
    | ok bytes =>
      refine ih ?_ hrest
      exact hfailures
    | error e =>
      by_cases hcancelled : e = .cancelled
      · subst hcancelled
        cases (Prod.mk.inj hrest.1).1
      · -- The failure of this path joins the others.
        have hadded : ∀ x ∈ (failures.countTry.add path e).failed, x.2 ≠ .cancelled := by
          intro x hx
          rcases List.mem_append.mp hx with hx | hx
          · exact hfailures x hx
          · rw [List.mem_singleton.mp hx]
            exact hcancelled
        apply ih hadded
        cases e with
        | cancelled => exact absurd rfl hcancelled
        | _ => exact hrest

theorem Run.contentsScript_failures {r r' : Run} {w w' : World} {history : List Moment}
    {tried : Nat} {failed : List (String × Error)}
    (h : r.contentsScript.Runs w history (.error (.fetches tried failed), r') w') :
    ∀ e ∈ failed, e.2 ≠ .cancelled := by
  unfold contentsScript at h
  split at h
  · cases (Prod.mk.inj h.1).1
  · exact sweepScript_failures (by simp) h

/-! ## Sessions -/

/-- An operation that has been done, the world before it, what happened meanwhile, and its result. -/
structure Performed where
  task : Task
  before : World
  history : List Moment
  result : task.Result

/-- A sequence of operations that share a signal. Between them the disk and the clock may change,
    and the answers of the store may be others each time. -/
inductive Session : World → List Performed → World → Prop
  | nil (w : World) : Session w [] w
  | changes {w w' : World} {log : List Performed} (disk : Disk) (now : Int)
      (h : Session { w with disk, now } log w') : Session w log w'
  | performs {w w₁ w' : World} {log : List Performed} {history : List Moment} (t : Task)
      {a : t.Result} (ht : t.script.Runs w history a w₁) (h : Session w₁ log w') :
      Session w (⟨t, w, history, a⟩ :: log) w'

/-- What happened in a session. -/
def historyOf (log : List Performed) : List Moment := log.flatMap (·.history)

theorem Session.follows {w w' : World} {log : List Performed} (h : Session w log w') :
    w.Follows (historyOf log) w' := by
  induction h with
  | nil w => exact .refl w
  | changes disk now _ ih => exact ⟨ih.trace, ih.order, ih.fires, ih.fired⟩
  | performs t ht _ ih => exact ht.follows.trans ih

/-- Each operation of a session has been run. -/
theorem Session.runs {w w' : World} {log : List Performed} (h : Session w log w') :
    ∀ p ∈ log, ∃ w₁, p.task.script.Runs p.before p.history p.result w₁ := by
  induction h with
  | nil => simp
  | changes _ _ _ ih => exact ih
  | performs t ht _ ih =>
    intro p hp
    rcases List.mem_cons.mp hp with rfl | hp
    · exact ⟨_, ht⟩
    · exact ih p hp

/-- What a signal does to a session: all calls are in the trace, each behind nothing that has fired;
    an operation that is kept from something ends as cancelled; a scan leaves the runs of what it has
    processed before; and no sweep takes a cancelled read for a failure. -/
structure StopsTraffic (w : World) (log : List Performed) (w' : World) : Prop where
  trace : w'.trace = w.trace ++ (historyOf log).flatMap Moment.events
  order : (historyOf log).Pairwise fun m m' => m.isFiring = true → m'.isRefusal = true
  fired : w.signal.fired = true → ∀ m ∈ historyOf log, m.isRefusal = true
  cancelled : ∀ p ∈ log, (∃ m ∈ p.history, m.isCancelled = true) →
    p.task.error? p.result = some .cancelled
  scans : ∀ o job before history result,
    (⟨.scan o job, before, history, result⟩ : Performed) ∈ log →
      GroupsInto o before.now job (history.flatMap Moment.processed) (scannedRuns result)
  failures : ∀ r before history tried failed r',
    (⟨.contents r, before, history, (.error (.fetches tried failed), r')⟩ : Performed) ∈ log →
      ∀ e ∈ failed, e.2 ≠ .cancelled

/-- **A fired signal stops all traffic.** What an operation does with a store is among what its
    script may come to; and whatever the calls of a session are answered and whenever the signal
    fires, no call, no item and no entry of the index is begun afterwards, and an operation that
    comes to one, or is cut off in a call, ends as cancelled. -/
theorem signal_stops_traffic {w w' : World} {log : List Performed} (h : Session w log w') :
    (∀ (store : Store) (t : Task) (v : World), ∃ history,
      t.script.Runs v history (t.perform store v).1 (t.perform store v).2) ∧
    StopsTraffic w log w' := by
  constructor
  · intro store t v
    rw [← t.script_run store v]
    exact t.script.run_runs store v
  · have hfollows := h.follows
    refine ⟨hfollows.trace, hfollows.order, fun hw => (hfollows.fired hw).2, ?_, ?_, ?_⟩
    · intro p hp hm
      obtain ⟨_, hruns⟩ := h.runs p hp
      exact p.task.cancelled hruns hm
    · intro o job before history result hp
      obtain ⟨_, hruns⟩ := h.runs _ hp
      exact scanScript_groups hruns
    · intro r before history tried failed r' hp
      obtain ⟨_, hruns⟩ := h.runs _ hp
      exact Run.contentsScript_failures hruns

/-- A run of which nothing has been read. -/
def unreadRun : Run where
  job := "job"
  id := "1"

/-- The signal fires behind the first of two reads: the first counts, the second is refused. -/
theorem signal_stops_traffic_second_read :
    ∃ r w₁ w₂, StopsTraffic { disk := {} }
      [⟨.content "a" unreadRun, { disk := {} },
          [.passes (.read "a") (.ok ByteArray.empty), .fires],
        (.ok .empty, r)⟩,
       ⟨.content "b" r, w₁, [.refuses (.read "b")], (.error .cancelled, r)⟩] w₂ := by
  generalize hw : ({ disk := {} } : World) = w
  generalize hr : ({ unreadRun with origin := .bucket [("a", .empty)] } : Run) = r
  have hunfired : w.signal.fired = false := by
    subst hw
    rfl
  have hreach : (w.reach (.read "a")).signal.fired = false := by
    rw [World.reach_signal, hunfired]
  have hafter : (Script.done ((.ok .empty, r) : Except Error ByteArray × Run)).Runs
      (w.reach (.read "a")) [.fires] (.ok .empty, r) (w.reach (.read "a")).fire :=
    ⟨rfl, .fires hreach (.refl _)⟩
  have hfirst : (Task.content "a" unreadRun).script.Runs w
      [.passes (.read "a") (.ok ByteArray.empty), .fires] (.ok .empty, r)
      (w.reach (.read "a")).fire := by
    subst hr
    exact ⟨[], w, _, .ok ByteArray.empty, _, [.fires], rfl, .refl w, .passes hunfired _, hafter⟩
  have hsecond : (Task.content "b" r).script.Runs (w.reach (.read "a")).fire
      [.refuses (.read "b")] (.error .cancelled, r) (w.reach (.read "a")).fire := by
    subst hr
    exact ⟨[], _, _, _, _, [], rfl, .refl _, .refuses (World.fire_fired _), rfl, .refl _⟩
  exact ⟨r, _, _,
    (signal_stops_traffic (.performs _ hfirst (.performs _ hsecond (.nil _)))).2⟩

end RunCache
