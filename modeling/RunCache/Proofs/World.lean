import RunCache.Bucket.Store

/-! # What calls leave alone

    A call changes the signal and the trace of a world and nothing else.

    * **`World.Calls`**: a later world that differs only by calls of given
      kinds.
    * **`World.IsQuiet`**: a world in which calls get their answers. -/

namespace RunCache

namespace World

/-- A later world with the same disk and time, in which only allowed events have happened since. -/
structure Calls (allowed : Event → Prop) (w w' : World) : Prop where
  disk : w'.disk = w.disk
  now : w'.now = w.now
  trace : ∃ events, w'.trace = w.trace ++ events ∧ ∀ e ∈ events, allowed e

namespace Calls

variable {allowed allowed' : Event → Prop} {w w' w'' : World}

theorem refl (allowed : Event → Prop) (w : World) : Calls allowed w w :=
  ⟨rfl, rfl, [], by simp, by simp⟩

theorem trans (h : Calls allowed w w') (h' : Calls allowed w' w'') : Calls allowed w w'' := by
  obtain ⟨xs, hxs, hall⟩ := h.trace
  obtain ⟨ys, hys, hall'⟩ := h'.trace
  refine ⟨h'.disk.trans h.disk, h'.now.trans h.now, xs ++ ys, ?_, ?_⟩
  · rw [hys, hxs, List.append_assoc]
  · intro e he
    rcases List.mem_append.mp he with he | he
    · exact hall e he
    · exact hall' e he

theorem mono (h : Calls allowed w w') (hle : ∀ e, allowed e → allowed' e) :
    Calls allowed' w w' := by
  obtain ⟨xs, hxs, hall⟩ := h.trace
  exact ⟨h.disk, h.now, xs, hxs, fun e he => hle e (hall e he)⟩

end Calls

variable {allowed : Event → Prop}

theorem fire_calls (w : World) (hfired : allowed .fired) : Calls allowed w w.fire := by
  unfold fire note
  split
  · exact .refl _ w
  · exact ⟨rfl, rfl, [.fired], rfl, by simpa using hfired⟩

/-- A call whose answer is awaited may see the signal fire. -/
theorem await_calls {α : Type} (w : World) (reply : Reply α) (hfired : allowed .fired) :
    Calls allowed w (w.await reply).2 := by
  have hwait : Calls allowed w (w.wait reply.delay) := ⟨rfl, rfl, [], by simp [wait], by simp⟩
  -- The answer comes after the delay, and the signal may fire with it.
  have hthen : Calls allowed w
      (if reply.fires then (w.wait reply.delay).fire else w.wait reply.delay) := by
    split
    · exact hwait.trans (fire_calls _ hfired)
    · exact hwait
  unfold await
  split
  · exact fire_calls w hfired
  · cases reply.outcome with
    | some result => exact hthen
    | none => exact hthen.trans (fire_calls _ hfired)

theorem call_calls {α : Type} (w : World) (e : Event) (reply : Reply α) (he : allowed e)
    (hfired : allowed .fired) : Calls allowed w (w.call e reply).2 := by
  unfold call
  split
  · exact .refl _ w
  · have hnote : Calls allowed w (w.note e) := ⟨rfl, rfl, [e], rfl, by simpa using he⟩
    exact hnote.trans (await_calls _ reply hfired)

theorem list_calls (w : World) (store : Store) (q : Query) :
    Calls (fun e => e = .list q ∨ e = .fired) w (w.list store q).2 :=
  call_calls w _ _ (.inl rfl) (.inr rfl)

theorem read_calls (w : World) (store : Store) (name : String) :
    Calls (fun e => e = .read name ∨ e = .fired) w (w.read store name).2 :=
  call_calls w _ _ (.inl rfl) (.inr rfl)

/-- A call that succeeds has the result of its reply. -/
theorem outcome_of_call {α : Type} {w w' : World} {e : Event} {reply : Reply α} {a : α}
    (h : w.call e reply = (.ok a, w')) : reply.outcome = some (.ok a) := by
  unfold call at h
  split at h
  · cases h
  · unfold await at h
    split at h
    · cases h
    · simp only at h
      split at h
      · next result hresult =>
        rw [hresult, (Prod.mk.inj h).1]
      · cases (Prod.mk.inj h).1

@[simp] theorem fire_fired (w : World) : w.fire.signal.fired = true := by
  unfold fire note
  split
  · assumption
  · rfl

/-- A call behind which the signal has not fired has been answered, and has the answer as its
    result. -/
theorem outcome_of_unfired {α : Type} {w : World} {e : Event} {reply : Reply α}
    (h : (w.call e reply).2.signal.fired = false) :
    reply.outcome = some (w.call e reply).1 := by
  unfold call at h ⊢
  split at h
  · next hfired =>
    rw [hfired] at h
    cases h
  · next hnot =>
    rw [if_neg hnot]
    unfold await at h ⊢
    split at h
    · rw [fire_fired] at h
      cases h
    · next hlater =>
      rw [if_neg hlater]
      -- A call that is never answered is ended by the signal.
      cases hresult : reply.outcome with
      | some result => rfl
      | none =>
        simp only [hresult, fire_fired] at h
        cases h

/-- A world whose signal has not fired and does not fire at once. -/
def IsQuiet (w : World) : Prop := w.signal.fired = false ∧ w.signal.firesWithin 0 = false

/-- In a quiet world a call that is answered at once gets its answer, and the world stays quiet. -/
theorem IsQuiet.call {α : Type} {w : World} (h : w.IsQuiet) (e : Event)
    (result : Except Error α) :
    ∃ w', w.call e { outcome := some result } = (result, w') ∧ w'.disk = w.disk ∧ w'.IsQuiet := by
  obtain ⟨hfired, hwait⟩ := h
  have hafter : w.signal.after 0 = w.signal := by simp [Signal.after]
  refine ⟨w.note e, ?_, rfl, hfired, hwait⟩
  unfold World.call await
  rw [if_neg (by simp [hfired])]
  have hnote : (w.note e).signal = w.signal := rfl
  simp only [hnote, hwait, Bool.false_eq_true, if_false, wait, hafter]
  rfl

end World

end RunCache
