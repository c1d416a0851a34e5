import RunCache.Cache.Scan
import RunCache.Proofs.World

/-! # Operations as scripts

    An operation heeds the signal at certain points, and goes on there with
    what it gets.  Written down point by point it can be followed while it
    runs: calls may be answered in whatever way, and the signal may fire at
    whatever moment.

    * **`Point`**: where an operation heeds the signal.
    * **`Script`**: what an operation does, from point to point.
    * **`Script.run`**: what it does with a store.
    * **`Script.Runs`**: what it may do when anything may happen meanwhile;
      the history tells what did.
    * **`Script.run_runs`**: with a store it does one of that. -/

namespace RunCache

/-! ## Points -/

/-- Where an operation heeds the signal: at a call, before the next item of a listing or its end,
    and before the next entry of the by-name index. -/
inductive Point where
  | list (query : Query)
  | read (name : String)
  | openFile (root : Path) (path : String)
  | item (x : Delivery)
  | lastItem
  | entry (runId : String)

namespace Point

/-- What an operation gets at a point. -/
def Answer : Point → Type
  | list _ => List Delivery
  | read _ | openFile _ _ => ByteArray
  | item _ | lastItem | entry _ => Unit

/-- Whether something is waited for at a point. -/
def isCall : Point → Bool
  | list _ | read _ | openFile _ _ => true
  | item _ | lastItem | entry _ => false

/-- What is noted when an operation comes to a point. -/
def event? : Point → Option Event
  | list q => some (.list q)
  | read name => some (.read name)
  | openFile root path => some (.openFile (CachePath.ofObject root path))
  | item _ | lastItem => none
  | entry id => some (.indexRun id)

end Point

namespace World

/-- Notes that an operation has come to a point. -/
def reach (w : World) (p : Point) : World :=
  match p.event? with
  | some e => w.note e
  | none => w

/-- What an operation gets at a point, with a store. -/
def pass (store : Store) (w : World) : (p : Point) → Except Error p.Answer × World
  | .list q => w.list store q
  | .read name => w.read store name
  | .openFile root path =>
    w.call (.openFile (CachePath.ofObject root path))
      { outcome := some (Run.openCached w.disk root path) }
  | .item x => if w.signal.fired then (.error .cancelled, w)
    else (.ok (), if x.fires then w.fire else w)
  | .lastItem => if w.signal.fired then (.error .cancelled, w) else (.ok (), w)
  | .entry id => if w.signal.fired then (.error .cancelled, w) else (.ok (), w.note (.indexRun id))

end World

namespace World

theorem fire_now (w : World) : w.fire.now = w.now := by
  unfold fire
  split
  · rfl
  · rfl

end World

/-! ## Scripts -/

/-- What an operation does: it is done, it comes to a point and goes on with what it gets there, or
    it reads and changes the disk. -/
inductive Script (α : Type) where
  | done (a : α)
  | heed (p : Point) (next : Except Error p.Answer → Script α)
  | onDisk (change : Disk → Int → Disk) (next : Disk → Int → Script α)

namespace Script

variable {α β : Type}

/-- One script after another. -/
def bind : Script α → (α → Script β) → Script β
  | done a, f => f a
  | heed p next, f => heed p fun answer => (next answer).bind f
  | onDisk change next, f => onDisk change fun d now => (next d now).bind f

/-- What a script does with a store. -/
def run (store : Store) : Script α → World → α × World
  | done a, w => (a, w)
  | heed p next, w => (next (w.pass store p).1).run store (w.pass store p).2
  | onDisk change next, w =>
    (next w.disk w.now).run store { w with disk := change w.disk w.now }

theorem run_bind (store : Store) (s : Script α) (f : α → Script β) (w : World) :
    (s.bind f).run store w = (f (s.run store w).1).run store (s.run store w).2 := by
  induction s generalizing w with
  | done a => rfl
  | heed p next ih => exact ih _ _
  | onDisk change next ih => exact ih _ _ _

end Script

/-! ## What may happen meanwhile -/

/-- What happens while an operation runs: the signal fires, or the operation comes to a point and
    gets an answer, is cut off while it waits for it, or is refused because the signal has fired. -/
inductive Moment where
  | fires
  | passes (p : Point) (answer : Except Error p.Answer)
  | cuts (p : Point)
  | refuses (p : Point)

namespace Moment

/-- Whether the signal fires. -/
def isFiring : Moment → Bool
  | fires | cuts _ => true
  | passes _ _ | refuses _ => false

/-- Whether the operation is refused. -/
def isRefusal : Moment → Bool
  | refuses _ => true
  | fires | passes _ _ | cuts _ => false

/-- Whether the signal keeps the operation from what it would get. -/
def isCancelled : Moment → Bool
  | cuts _ | refuses _ => true
  | fires | passes _ _ => false

/-- What a moment leaves in the trace. -/
def events : Moment → List Event
  | fires => [.fired]
  | passes p _ => p.event?.toList
  | cuts p => p.event?.toList ++ [.fired]
  | refuses _ => []

end Moment

namespace World

/-- What may happen between the steps of an operation: time passes, and the signal fires. -/
inductive Elapses : World → List Moment → World → Prop
  | refl (w : World) : Elapses w [] w
  | waits {w w' : World} {history : List Moment} (delay : Nat)
      (h : Elapses (w.wait delay) history w') : Elapses w history w'
  | fires {w w' : World} {history : List Moment} (hw : w.signal.fired = false)
      (h : Elapses w.fire history w') : Elapses w (.fires :: history) w'

theorem Elapses.trans {w w' w'' : World} {history history' : List Moment}
    (h : Elapses w history w') (h' : Elapses w' history' w'') :
    Elapses w (history ++ history') w'' := by
  induction h with
  | refl w => exact h'
  | waits delay _ ih => exact .waits delay (ih h')
  | fires hw _ ih => exact .fires hw (ih h')

/-- Firing is something that may happen, and where the signal has fired already it changes
    nothing. -/
theorem fire_elapses (w : World) : ∃ history, Elapses w history w.fire := by
  cases hw : w.signal.fired with
  | false => exact ⟨[.fires], .fires hw (.refl _)⟩
  | true =>
    refine ⟨[], ?_⟩
    unfold fire
    rw [if_pos hw]
    exact .refl w

/-- What may happen at a point: any answer may come, the signal may cut off a call before it does,
    and once the signal has fired there is none. -/
inductive Passes (w : World) (p : Point) : Moment → Except Error p.Answer → World → Prop
  | passes (hw : w.signal.fired = false) (answer : Except Error p.Answer) :
      Passes w p (.passes p answer) answer (w.reach p)
  | cuts (hw : w.signal.fired = false) (hp : p.isCall = true) :
      Passes w p (.cuts p) (.error .cancelled) (w.reach p).fire
  | refuses (hw : w.signal.fired = true) : Passes w p (.refuses p) (.error .cancelled) w

end World

namespace Script

variable {α β : Type} {s : Script α} {w w' w'' : World} {history history' : List Moment} {a : α}

/-- What a script may come to, and what happens meanwhile. -/
def Runs : Script α → World → List Moment → α → World → Prop
  | done b, w, history, a, w' => a = b ∧ w.Elapses history w'
  | heed p next, w, history, a, w' =>
    ∃ before w₁ m answer w₂ after, history = before ++ m :: after ∧ w.Elapses before w₁ ∧
      w₁.Passes p m answer w₂ ∧ (next answer).Runs w₂ after a w'
  | onDisk change next, w, history, a, w' =>
    ∃ before w₁ after, history = before ++ after ∧ w.Elapses before w₁ ∧
      (next w₁.disk w₁.now).Runs { w₁ with disk := change w₁.disk w₁.now } after a w'

/-- What happens before a script may happen while it runs. -/
theorem Runs.after (h : s.Runs w' history' a w'') (hw : w.Elapses history w') :
    s.Runs w (history ++ history') a w'' := by
  cases s with
  | done b => exact ⟨h.1, hw.trans h.2⟩
  | heed p next =>
    obtain ⟨before, w₁, m, answer, w₂, after, rfl, hbefore, hpass, hafter⟩ := h
    exact ⟨history ++ before, w₁, m, answer, w₂, after, by simp, hw.trans hbefore, hpass, hafter⟩
  | onDisk change next =>
    obtain ⟨before, w₁, after, rfl, hbefore, hafter⟩ := h
    exact ⟨history ++ before, w₁, after, by simp, hw.trans hbefore, hafter⟩

/-- What one script after another comes to, the second comes to after the first. -/
theorem Runs.of_bind {f : α → Script β} {b : β} (h : (s.bind f).Runs w history b w') :
    ∃ before a w₁ after, history = before ++ after ∧ s.Runs w before a w₁ ∧
      (f a).Runs w₁ after b w' := by
  induction s generalizing w history with
  | done a => exact ⟨[], a, w, history, rfl, ⟨rfl, .refl w⟩, h⟩
  | heed p next ih =>
    obtain ⟨start, w₁, m, answer, w₂, rest, rfl, hstart, hpass, hrest⟩ := h
    obtain ⟨before, a, w₃, after, rfl, hbefore, hafter⟩ := ih answer hrest
    exact ⟨start ++ m :: before, a, w₃, after, by simp,
      ⟨start, w₁, m, answer, w₂, before, rfl, hstart, hpass, hbefore⟩, hafter⟩
  | onDisk change next ih =>
    obtain ⟨start, w₁, rest, rfl, hstart, hrest⟩ := h
    obtain ⟨before, a, w₂, after, rfl, hbefore, hafter⟩ := ih _ _ hrest
    exact ⟨start ++ before, a, w₂, after, by simp, ⟨start, w₁, before, rfl, hstart, hbefore⟩,
      hafter⟩

end Script

/-! ## With a store -/

namespace World

variable {w : World}

/-- It does not matter for a signal that fires what it has waited before. -/
theorem fire_wait (hw : w.signal.fired = false) (delay : Nat) : (w.wait delay).fire = w.fire := by
  unfold fire
  rw [if_neg (by simp [wait, Signal.after, hw]), if_neg (by simp [hw])]
  rfl

theorem fire_fire (w : World) : w.fire.fire = w.fire := by
  rw [fire, if_pos (fire_fired w)]

/-- What a call comes to is among what may happen at its point. -/
theorem call_passes {p : Point} {e : Event} (hp : p.isCall = true) (he : p.event? = some e)
    (w : World) (reply : Reply p.Answer) :
    ∃ m w₁ history, w.Passes p m (w.call e reply).1 w₁ ∧
      w₁.Elapses history (w.call e reply).2 := by
  have hreach : w.reach p = w.note e := by rw [reach, he]
  cases hw : w.signal.fired with
  | true =>
    unfold call
    rw [if_pos hw]
    exact ⟨_, w, [], .refuses hw, .refl w⟩
  | false =>
    have hunfired : (w.reach p).signal.fired = false := by
      rw [hreach]
      exact hw
    unfold call await
    rw [if_neg (by simp [hw]), ← hreach]
    split
    · exact ⟨_, _, [], .cuts hw hp, .refl _⟩
    · cases reply.outcome with
      | some result =>
        -- The answer comes after a while, and the signal may fire just then.
        obtain ⟨history, hfire⟩ := fire_elapses ((w.reach p).wait reply.delay)
        refine ⟨_, w.reach p, if reply.fires then history else [], .passes hw result, ?_⟩
        cases reply.fires with
        | true => exact .waits _ hfire
        | false => exact .waits _ (.refl _)
      | none =>
        refine ⟨_, _, [], .cuts hw hp, ?_⟩
        have hfired : (if reply.fires then ((w.reach p).wait reply.delay).fire
            else (w.reach p).wait reply.delay).fire = (w.reach p).fire := by
          cases reply.fires with
          | true => exact (fire_fire _).trans (fire_wait hunfired _)
          | false => exact fire_wait hunfired _
        rw [← hfired]
        exact .refl _

/-- What a store gives at a point is among what may happen there. -/
theorem pass_passes (store : Store) (w : World) (p : Point) :
    ∃ m w₁ history, w.Passes p m (w.pass store p).1 w₁ ∧
      w₁.Elapses history (w.pass store p).2 := by
  -- Points that are no calls only look at the signal.
  have hwatch : ∀ (p : Point) (answer : Except Error p.Answer) (later : World),
      (∃ history, (w.reach p).Elapses history later) →
      ∃ m w₁ history,
        w.Passes p m (if w.signal.fired then (.error .cancelled, w) else (answer, later)).1 w₁ ∧
        w₁.Elapses history
          (if w.signal.fired then ((.error .cancelled : Except Error p.Answer), w)
            else (answer, later)).2 := by
    intro p answer later hlater
    obtain ⟨history, hlater⟩ := hlater
    cases hw : w.signal.fired with
    | true => exact ⟨_, w, [], .refuses hw, .refl w⟩
    | false => exact ⟨_, w.reach p, history, .passes hw answer, hlater⟩
  cases p with
  | list q => exact call_passes rfl rfl w _
  | read name => exact call_passes rfl rfl w _
  | openFile root path => exact call_passes rfl rfl w _
  | item x =>
    apply hwatch (.item x) (.ok ())
    obtain ⟨history, hfire⟩ := fire_elapses w
    cases x.fires with
    | true => exact ⟨history, hfire⟩
    | false => exact ⟨[], .refl w⟩
  | lastItem => exact hwatch .lastItem (.ok ()) w ⟨[], .refl w⟩
  | entry id => exact hwatch (.entry id) (.ok ()) _ ⟨[], .refl _⟩

end World

/-- What a script does with a store is among what it may come to. -/
theorem Script.run_runs {α : Type} (store : Store) (s : Script α) (w : World) :
    ∃ history, s.Runs w history (s.run store w).1 (s.run store w).2 := by
  induction s generalizing w with
  | done a => exact ⟨[], rfl, .refl w⟩
  | heed p next ih =>
    obtain ⟨m, w₁, history, hpass, hlater⟩ := w.pass_passes store p
    obtain ⟨history', hruns⟩ := ih (w.pass store p).1 (w.pass store p).2
    exact ⟨_, [], w, m, _, w₁, _, rfl, .refl w, hpass, hruns.after hlater⟩
  | onDisk change next ih =>
    obtain ⟨history, hruns⟩ := ih w.disk w.now { w with disk := change w.disk w.now }
    exact ⟨history, [], w, history, rfl, .refl w, hruns⟩

end RunCache
