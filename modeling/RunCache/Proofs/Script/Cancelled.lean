import RunCache.Proofs.Scan.Records
import RunCache.Proofs.Script.Operations

/-! # A fired signal stops all traffic

    Once the signal has fired, no call is begun.  An operation that comes to
    one ends there, and says that it was cancelled.

    * **`World.Follows`**: a history, and what it leaves in a world; once
      the signal has fired it holds nothing but refusals.
    * **`Script.Heeds`**: scripts that end where they are refused.
    * **`Script.Runs.cancelled`**: what such a script then comes to.
    * **`Run.writeScript_heeds`**, **`scanScript_heeds`**,
      **`passScript_heeds`**, **`reindexScript_heeds`**: the operations heed
      the signal. -/

namespace RunCache

/-! ## Histories -/

/-- What a history has done to a world. -/
structure World.Follows (w : World) (history : List Moment) (w' : World) : Prop where
  trace : w'.trace = w.trace ++ history.flatMap Moment.events
  order : history.Pairwise fun m m' => m.isFiring = true → m'.isRefusal = true
  fires : ∀ m ∈ history, m.isFiring = true → w'.signal.fired = true
  fired : w.signal.fired = true →
    w'.signal.fired = true ∧ ∀ m ∈ history, m.isRefusal = true

namespace World

variable {w w' w'' : World} {history history' : List Moment}

theorem Follows.refl (w : World) : w.Follows [] w :=
  ⟨by simp, .nil, by simp, fun hw => ⟨hw, by simp⟩⟩

theorem Follows.trans (h : w.Follows history w') (h' : w'.Follows history' w'') :
    w.Follows (history ++ history') w'' := by
  refine ⟨?_, ?_, ?_, ?_⟩
  · rw [h'.trace, h.trace, List.flatMap_append, List.append_assoc]
  · -- A moment that comes after a firing finds the signal fired.
    apply List.pairwise_append.mpr
    refine ⟨h.order, h'.order, ?_⟩
    intro m hm m' hm' hfiring
    exact (h'.fired (h.fires m hm hfiring)).2 m' hm'
  · intro m hm hfiring
    rcases List.mem_append.mp hm with hm | hm
    · exact (h'.fired (h.fires m hm hfiring)).1
    · exact h'.fires m hm hfiring
  · intro hw
    obtain ⟨hw', hall⟩ := h.fired hw
    obtain ⟨hw'', hall'⟩ := h'.fired hw'
    refine ⟨hw'', ?_⟩
    intro m hm
    rcases List.mem_append.mp hm with hm | hm
    · exact hall m hm
    · exact hall' m hm

/-- Time that passes leaves nothing. -/
theorem wait_follows (w : World) (delay : Nat) : w.Follows [] (w.wait delay) :=
  ⟨by simp [wait], .nil, by simp, fun hw => ⟨hw, by simp⟩⟩

theorem fire_follows (hw : w.signal.fired = false) : w.Follows [.fires] w.fire := by
  have htrace : w.fire.trace = w.trace ++ [.fired] := by
    unfold fire
    rw [if_neg (by simp [hw])]
    rfl
  refine ⟨by simpa [Moment.events] using htrace, List.pairwise_singleton _ _, ?_, ?_⟩
  · intro _ _ _
    exact fire_fired w
  · intro hfired
    rw [hw] at hfired
    cases hfired

/-- Only firing happens between the steps of an operation. -/
theorem Elapses.fires_only (h : w.Elapses history w') : ∀ m ∈ history, m = .fires := by
  induction h with
  | refl => simp
  | waits _ _ ih => exact ih
  | fires _ _ ih => simpa using ih

/-- So there is nothing in it of what moments of other kinds hold. -/
theorem Elapses.flatMap_eq_nil {β : Type} {f : Moment → List β} (h : w.Elapses history w')
    (hf : f .fires = []) : history.flatMap f = [] := by
  apply List.flatMap_eq_nil_iff.mpr
  intro m hm
  rw [h.fires_only m hm]
  exact hf

theorem Elapses.follows (h : w.Elapses history w') : w.Follows history w' := by
  induction h with
  | refl w => exact .refl w
  | waits delay _ ih => exact (wait_follows _ delay).trans ih
  | fires hw _ ih => exact (fire_follows hw).trans ih

theorem reach_trace (w : World) (p : Point) : (w.reach p).trace = w.trace ++ p.event?.toList := by
  unfold reach
  cases p.event? with
  | none => simp
  | some e => rfl

theorem reach_signal (w : World) (p : Point) : (w.reach p).signal = w.signal := by
  unfold reach
  cases p.event? with
  | none => rfl
  | some e => rfl

theorem Passes.follows {p : Point} {m : Moment} {answer : Except Error p.Answer}
    (h : w.Passes p m answer w') : w.Follows [m] w' := by
  cases h with
  | passes hw =>
    refine ⟨by simpa [Moment.events] using reach_trace w p, List.pairwise_singleton _ _, ?_, ?_⟩
    · simp [Moment.isFiring]
    · simp [hw]
  | cuts hw =>
    -- The call has begun, and then the signal fires.
    have hreach : (w.reach p).signal.fired = false := by rw [reach_signal, hw]
    refine ⟨?_, List.pairwise_singleton _ _, fun _ _ _ => fire_fired _, by simp [hw]⟩
    rw [(fire_follows hreach).trace, reach_trace]
    simp [Moment.events]
  | refuses hw =>
    refine ⟨by simp [Moment.events], List.pairwise_singleton _ _, ?_, ?_⟩
    · simp [Moment.isFiring]
    · intro _
      exact ⟨hw, by simp [Moment.isRefusal]⟩

end World

namespace Script

variable {α β : Type} {s : Script α} {w w' : World} {history : List Moment} {a : α}

/-- However a script runs, what it leaves is what its history tells. -/
theorem Runs.follows (h : s.Runs w history a w') : w.Follows history w' := by
  induction s generalizing w history with
  | done b => exact h.2.follows
  | heed p next ih =>
    obtain ⟨before, w₁, m, answer, w₂, after, rfl, hbefore, hpass, hafter⟩ := h
    exact hbefore.follows.trans (hpass.follows.trans (ih answer hafter))
  | onDisk change next ih =>
    obtain ⟨before, w₁, after, rfl, hbefore, hafter⟩ := h
    -- A change of the disk leaves signal and trace alone.
    obtain ⟨htrace, horder, hfires, hfired⟩ := ih _ _ hafter
    exact hbefore.follows.trans ⟨htrace, horder, hfires, hfired⟩

/-! ## Scripts that heed the signal -/

/-- A script that is done at once where it is refused, with a result of some kind. -/
def Heeds (P : α → Prop) : Script α → Prop
  | done _ => True
  | heed _ next =>
    (∃ a, next (.error .cancelled) = done a ∧ P a) ∧ ∀ answer, (next answer).Heeds P
  | onDisk _ next => ∀ d now, (next d now).Heeds P

theorem Heeds.bind {P : α → Prop} {Q : β → Prop} {f : α → Script β} (hs : s.Heeds P)
    (hdone : ∀ a, P a → ∃ b, f a = .done b ∧ Q b) (hf : ∀ a, (f a).Heeds Q) :
    (s.bind f).Heeds Q := by
  induction s with
  | done a => exact hf a
  | heed p next ih =>
    obtain ⟨⟨a, hnext, ha⟩, hall⟩ := hs
    obtain ⟨b, hb, hQ⟩ := hdone a ha
    refine ⟨⟨b, ?_, hQ⟩, fun answer => ih answer (hall answer)⟩
    show (next (.error .cancelled)).bind f = _
    rw [hnext]
    exact hb
  | onDisk change next ih => exact fun d now => ih d now (hs d now)

/-- Behind a script that comes to no point only the rest has to heed the signal. -/
theorem Heeds.bind_free {Q : β → Prop} {f : α → Script β} (hs : s.Heeds fun _ => False)
    (hf : ∀ a, (f a).Heeds Q) : (s.bind f).Heeds Q :=
  hs.bind (fun _ hfalse => hfalse.elim) hf

/-- Where the signal keeps such a script from something, it comes to a result of that kind. -/
theorem Runs.cancelled {P : α → Prop} (h : s.Runs w history a w') (hs : s.Heeds P)
    (hm : ∃ m ∈ history, m.isCancelled = true) : P a := by
  have hquiet : ∀ {w w' : World} {before : List Moment}, w.Elapses before w' →
      ∀ m ∈ before, m.isCancelled = false := by
    intro w w' before hbefore m hm
    rw [hbefore.fires_only m hm]
    rfl
  induction s generalizing w history with
  | done b =>
    obtain ⟨m, hm, hcancelled⟩ := hm
    rw [hquiet h.2 m hm] at hcancelled
    cases hcancelled
  | heed p next ih =>
    obtain ⟨before, w₁, m, answer, w₂, after, rfl, hbefore, hpass, hafter⟩ := h
    obtain ⟨⟨b, hnext, hb⟩, hall⟩ := hs
    -- Either it is refused here, or it goes on.
    have hrefused : answer = .error .cancelled → P a := by
      intro hanswer
      rw [hanswer, hnext] at hafter
      rw [hafter.1]
      exact hb
    cases hpass with
    | cuts => exact hrefused rfl
    | refuses => exact hrefused rfl
    | passes =>
      apply ih answer hafter (hall answer)
      obtain ⟨m, hm, hcancelled⟩ := hm
      rcases List.mem_append.mp hm with hm | hm
      · rw [hquiet hbefore m hm] at hcancelled
        cases hcancelled
      · rcases List.mem_cons.mp hm with rfl | hm
        · cases hcancelled
        · exact ⟨m, hm, hcancelled⟩
  | onDisk change next ih =>
    obtain ⟨before, w₁, after, rfl, hbefore, hafter⟩ := h
    apply ih _ _ hafter (hs _ _)
    obtain ⟨m, hm, hcancelled⟩ := hm
    rcases List.mem_append.mp hm with hm | hm
    · rw [hquiet hbefore m hm] at hcancelled
      cases hcancelled
    · exact ⟨m, hm, hcancelled⟩

end Script

/-! ## The operations heed the signal -/

/-- Writing files comes to no point. -/
theorem writeAllScript_heeds {P : Except Error Unit → Prop} (files : List (Path × ByteArray)) :
    (writeAllScript files).Heeds P := fun _ _ => trivial

namespace Run

theorem contentScript_heeds (path : String) (r : Run) :
    (r.contentScript path).Heeds fun a => a.1 = .error .cancelled := by
  unfold contentScript
  split
  · trivial
  · split
    · split
      · trivial
      · refine ⟨⟨_, rfl, rfl⟩, ?_⟩
        intro answer
        cases answer with
        | error e => trivial
        | ok bytes => trivial
    · split
      · trivial
      · exact ⟨⟨_, rfl, rfl⟩, fun _ => trivial⟩

theorem descriptorScript_heeds (r : Run) :
    r.descriptorScript.Heeds fun a => a.1 = .error .cancelled := by
  unfold descriptorScript
  split
  · trivial
  · next path _ =>
    apply (contentScript_heeds path r).bind
    · rintro ⟨_, r'⟩ rfl
      exact ⟨_, rfl, rfl⟩
    · rintro ⟨e | bytes, r'⟩
      · trivial
      · trivial

/-- A path whose read is refused ends the sweep and is no failure of it. -/
theorem sweepScript_heeds (paths : List String) (failures : Failures)
    (contents : Fields ByteArray) (r : Run) :
    (sweepScript paths failures contents r).Heeds fun a => a.1 = .error .cancelled := by
  induction paths generalizing failures contents r with
  | nil => trivial
  | cons path rest ih =>
    unfold sweepScript
    apply (contentScript_heeds path r).bind
    · rintro ⟨_, r'⟩ rfl
      exact ⟨_, rfl, rfl⟩
    · rintro ⟨e | bytes, r'⟩
      · cases e with
        | cancelled => trivial
        | _ => exact ih _ _ _
      · exact ih _ _ _

theorem contentsScript_heeds (r : Run) :
    r.contentsScript.Heeds fun a => a.1 = .error .cancelled := by
  unfold contentsScript
  split
  · trivial
  · exact sweepScript_heeds r.paths {} [] r

theorem writeContentsScript_heeds {P : Except Error Written → Prop} (root : Path) (r : Run)
    (d : Descriptor) (contents : Fields ByteArray) :
    (r.writeContentsScript root d contents).Heeds P := by
  unfold writeContentsScript
  split
  · trivial
  · apply (writeAllScript_heeds _).bind_free
    rintro (e | _)
    · trivial
    · trivial

theorem writeScript_heeds (root : Path) (r : Run) :
    (r.writeScript root).Heeds fun a => a.1 = .error .cancelled := by
  apply (descriptorScript_heeds r).bind
  · rintro ⟨_, r'⟩ rfl
    exact ⟨_, rfl, rfl⟩
  · rintro ⟨e | d, r'⟩
    · trivial
    · apply (contentsScript_heeds r').bind
      · rintro ⟨_, r''⟩ rfl
        exact ⟨_, rfl, rfl⟩
      · rintro ⟨e | contents, r''⟩
        · trivial
        · exact (writeContentsScript_heeds root r'' d contents).bind_free fun _ => trivial

end Run

theorem takeItemsScript_heeds (o : ScanOptions) (job : String) (now : Int)
    (items : List Delivery) (g : Grouping) :
    (takeItemsScript o job now items g).Heeds fun a => a.2 = some .cancelled := by
  induction items generalizing g with
  | nil =>
    refine ⟨⟨_, rfl, rfl⟩, ?_⟩
    intro answer
    cases answer with
    | error e => trivial
    | ok _ => trivial
  | cons x rest ih =>
    refine ⟨⟨_, rfl, rfl⟩, ?_⟩
    intro answer
    cases answer with
    | error e => trivial
    | ok _ =>
      cases x.item with
      | error e => trivial
      | ok object => exact ih _

theorem scanScript_heeds (o : ScanOptions) (job : String) :
    (scanScript o job).Heeds fun a => ∃ runs, a = .error ⟨job, runs, .cancelled⟩ := by
  intro _ now
  refine ⟨⟨_, rfl, [], rfl⟩, ?_⟩
  intro answer
  cases answer with
  | error e => trivial
  | ok items =>
    apply (takeItemsScript_heeds o job now items []).bind
    · rintro ⟨g, _⟩ rfl
      exact ⟨_, rfl, g.complete, rfl⟩
    · intro _
      trivial

theorem writeRunsScript_heeds (root : Path) (runs : List Run) (s : Summary) :
    (writeRunsScript root runs s).Heeds fun a => a = .error .cancelled := by
  induction runs generalizing s with
  | nil => trivial
  | cons r runs ih =>
    apply (Run.writeScript_heeds root r).bind
    · rintro ⟨_, r'⟩ rfl
      exact ⟨_, rfl, rfl⟩
    · rintro ⟨e | written, r'⟩
      · trivial
      · exact ih _

theorem cacheRunsScript_heeds (root : Path) (runs : List Run) (broken : Option Error) :
    (cacheRunsScript root runs broken).Heeds fun a => a = .error .cancelled := by
  apply (writeRunsScript_heeds root runs _).bind
  · rintro _ rfl
    exact ⟨_, rfl, rfl⟩
  · intro a
    cases a with
    | error e => trivial
    | ok s =>
      cases broken with
      | none => trivial
      | some e => trivial

/-- A scan that is cancelled ends the pass, and nothing of it is written. -/
theorem passScript_heeds (o : PassOptions) :
    (passScript o).Heeds fun a => a = .error .cancelled := by
  intro d _
  dsimp only
  cases o.scanOptions d with
  | error e => trivial
  | ok options =>
    apply (scanScript_heeds options o.job).bind
    · rintro _ ⟨runs, rfl⟩
      exact ⟨_, rfl, rfl⟩
    · intro a
      cases a with
      | ok runs => exact cacheRunsScript_heeds _ _ _
      | error e =>
        show Script.Heeds _ (if e.source.isCancelled then _ else _)
        split
        · trivial
        · exact cacheRunsScript_heeds _ _ _

theorem writeIndexScript_heeds {P : Except Error (Option Path) → Prop} (root : Path)
    (job : String) (d : Descriptor) : (writeIndexScript root job d).Heeds P := by
  unfold writeIndexScript
  split
  · trivial
  · apply (writeAllScript_heeds _).bind_free
    rintro (e | _)
    · trivial
    · trivial

theorem indexRunScript_heeds (root : Path) (job id : String) :
    (indexRunScript root job id).Heeds fun a => a = .error .cancelled := by
  intro d _
  dsimp only
  cases Run.openCache d root job id with
  | error e => trivial
  | ok r =>
    apply (Run.descriptorScript_heeds r).bind
    · rintro ⟨_, r'⟩ rfl
      exact ⟨_, rfl, rfl⟩
    · rintro ⟨e | d, r'⟩
      · cases e with
        | _ => trivial
      · exact writeIndexScript_heeds root job d

theorem indexRunsScript_heeds (root : Path) (job : String) (ids : List String) (indexed : Nat) :
    (indexRunsScript root job ids indexed).Heeds fun a => a = .error .cancelled := by
  induction ids generalizing indexed with
  | nil => trivial
  | cons id ids ih =>
    refine ⟨⟨_, rfl, rfl⟩, ?_⟩
    intro answer
    cases answer with
    | error e => trivial
    | ok _ =>
      apply (indexRunScript_heeds root job id).bind
      · rintro _ rfl
        exact ⟨_, rfl, rfl⟩
      · intro a
        cases a with
        | error e => trivial
        | ok entry => exact ih _

theorem reindexScript_heeds (root : Path) (job : String) :
    (reindexScript root job).Heeds fun a => a = .error .cancelled := by
  intro d _
  dsimp only
  cases cachedIds d root job with
  | error e => trivial
  | ok ids => exact indexRunsScript_heeds root job ids 0

end RunCache
