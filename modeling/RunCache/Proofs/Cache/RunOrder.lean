import RunCache.Cache.Newest
import Mathlib.Data.String.Basic

/-! # When run ids are in order

    Two ids compare as numbers where both are numbers, and as texts where
    one of them is none.  An id that is no number can then stand between two
    numbers whose texts are not in the order of their values, and the three
    have no order.

    * **`RunId.Coheres`**: ids of which none stands wrongly between others.
    * **`RunId.order_swap`**: the order of two ids, the other way around.
    * **`RunId.order_coheres_iff`**: which ids are in order.
    * **`RunId.Coheres.newest`**: the newest run of a cache whose ids are
      in order is behind all others. -/

namespace RunCache

namespace RunId

variable {a b c t : String} {p : String → Prop}

/-! ## The order of two ids -/

/-- The order of texts is that of their comparison. -/
theorem textOrder_eq (a b : String) : textOrder a b = cmp a b := by
  rw [textOrder, cmp, cmpUsing]
  rcases lt_trichotomy a b with h | rfl | h
  · simp [h]
  · simp
  · simp [h, h.not_gt, h.ne']

/-- Two numbers compare as numbers. -/
theorem order_numbers {m n : Nat} (ha : number? a = some m) (hb : number? b = some n) :
    order a b = compare m n := by
  simp only [order, ha, hb]

/-- An id that is no number compares as a text with the ids behind it. -/
theorem order_left (ha : number? a = none) : order a b = cmp a b := by
  rw [← textOrder_eq]
  simp only [order, ha]

/-- An id that is no number compares as a text with the ids in front of it. -/
theorem order_right (hb : number? b = none) : order a b = cmp a b := by
  rw [← textOrder_eq]
  unfold order
  split
  · next hb' =>
    rw [hb] at hb'
    cases hb'
  · rfl

/-- Two ids are numbers, or compare as texts. -/
theorem order_cases (a b : String) :
    (∃ m n, number? a = some m ∧ number? b = some n ∧ order a b = compare m n) ∨
      ((number? a = none ∨ number? b = none) ∧ order a b = cmp a b) := by
  cases ha : number? a with
  | none => exact .inr ⟨.inl rfl, order_left ha⟩
  | some m =>
    cases hb : number? b with
    | none => exact .inr ⟨.inr rfl, order_right hb⟩
    | some n => exact .inl ⟨m, n, rfl, rfl, order_numbers ha hb⟩

/-- Comparing two ids the other way around turns their order around. -/
theorem order_swap (a b : String) : order b a = (order a b).swap := by
  obtain ⟨m, n, ha, hb, hab⟩ | ⟨hnone, hab⟩ := order_cases a b
  · rw [hab, order_numbers hb ha, ← Nat.compare_swap]
  · have hba : order b a = cmp b a := hnone.elim order_right order_left
    rw [hab, hba, cmp_swap]

/-- Numbers stand in the order of their values. -/
theorem order_numbers_ne_gt {m n : Nat} (ha : number? a = some m) (hb : number? b = some n) :
    order a b ≠ .gt ↔ m ≤ n := by
  rw [order_numbers ha hb, Ne, Nat.compare_eq_gt, Nat.not_lt]

/-- Ids of which one is no number stand in the order of their texts. -/
theorem order_texts_ne_gt (h : number? a = none ∨ number? b = none) :
    order a b ≠ .gt ↔ a ≤ b := by
  have hab : order a b = cmp a b := h.elim order_left order_right
  rw [hab, Ne, cmp_eq_gt_iff, not_lt]

/-- Of two ids one may stand before the other. -/
theorem order_total (a b : String) : order a b ≠ .gt ∨ order b a ≠ .gt := by
  rw [order_swap a b]
  cases order a b <;> simp

/-- An id that may not stand before another one stands behind it. -/
theorem order_lt_iff (a b : String) : order a b = .lt ↔ ¬ order b a ≠ .gt := by
  rw [order_swap a b]
  cases order a b <;> simp

/-! ## Ids that are in order -/

/-- Ids whose order is transitive. -/
def Coheres (p : String → Prop) : Prop :=
  ∀ a b c, p a → p b → p c → order a b ≠ .gt → order b c ≠ .gt → order a c ≠ .gt

/-- An id that is no number stands between two numbers, by their texts, only where they are in
    order. -/
def Separates (p : String → Prop) : Prop :=
  ∀ a t b, p a → p t → p b → (number? a).isSome → number? t = none → (number? b).isSome →
    a < t → t < b → order a b = .lt

theorem Coheres.separates (h : Coheres p) : Separates p := by
  intro a t b ha ht hb _ hnone _ hat htb
  rw [order_lt_iff]
  intro hba
  -- With `b` before `a`, and `a` before `t`, also `b` would be before `t`.
  have hbt := h b a t hb ha ht hba ((order_texts_ne_gt (.inr hnone)).mpr hat.le)
  exact absurd ((order_texts_ne_gt (.inr hnone)).mp hbt) htb.not_ge

/-- Two numbers, the first of which may stand before the second: an id that is no number and may
    stand before the first by its text may stand before the second. -/
theorem Separates.trans_left (h : Separates p) (ht : p t) (ha : p a) (hb : p b)
    (hnone : number? t = none) (hna : (number? a).isSome) (hnb : (number? b).isSome)
    (hab : order a b ≠ .gt) (hta : t ≤ a) : t ≤ b := by
  by_contra hlt
  have hbt : b < t := not_le.mp hlt
  have hne : t ≠ a := by
    rintro rfl
    rw [hnone] at hna
    cases hna
  have hba := h b t a hb ht ha hnb hnone hna hbt (lt_of_le_of_ne hta hne)
  exact (order_lt_iff b a).mp hba hab

/-- As `Separates.trans_left`, with the id that is no number behind the two. -/
theorem Separates.trans_right (h : Separates p) (ht : p t) (ha : p a) (hb : p b)
    (hnone : number? t = none) (hna : (number? a).isSome) (hnb : (number? b).isSome)
    (hab : order a b ≠ .gt) (hbt : b ≤ t) : a ≤ t := by
  by_contra hlt
  have hta : t < a := not_le.mp hlt
  have hne : b ≠ t := by
    rintro rfl
    rw [hnone] at hnb
    cases hnb
  have hba := h b t a hb ht ha hnb hnone hna (lt_of_le_of_ne hbt hne) hta
  exact (order_lt_iff b a).mp hba hab

theorem Separates.coheres (h : Separates p) : Coheres p := by
  intro a b c ha hb hc hab hbc
  cases hna : number? a with
  | none =>
    rw [order_texts_ne_gt (.inl hna)] at hab ⊢
    cases hnb : number? b with
    | none => exact hab.trans ((order_texts_ne_gt (.inl hnb)).mp hbc)
    | some m =>
      cases hnc : number? c with
      | none => exact hab.trans ((order_texts_ne_gt (.inr hnc)).mp hbc)
      | some n => exact h.trans_left ha hb hc hna (by simp [hnb]) (by simp [hnc]) hbc hab
  | some l =>
    cases hnc : number? c with
    | none =>
      rw [order_texts_ne_gt (.inr hnc)] at hbc ⊢
      cases hnb : number? b with
      | none => exact ((order_texts_ne_gt (.inr hnb)).mp hab).trans hbc
      | some m => exact h.trans_right hc ha hb hnc (by simp [hna]) (by simp [hnb]) hab hbc
    | some n =>
      cases hnb : number? b with
      | none =>
        -- The one id between two numbers: it is neither of them.
        have hlt : ∀ {x y : String}, number? x ≠ number? y → x ≤ y → x < y :=
          fun hne hle => lt_of_le_of_ne hle fun he => hne (congrArg number? he)
        have hab' := hlt (by simp [hna, hnb]) ((order_texts_ne_gt (.inr hnb)).mp hab)
        have hbc' := hlt (by simp [hnb, hnc]) ((order_texts_ne_gt (.inl hnb)).mp hbc)
        rw [h a b c ha hb hc (by simp [hna]) hnb (by simp [hnc]) hab' hbc']
        simp
      | some m =>
        rw [order_numbers_ne_gt hna hnb] at hab
        rw [order_numbers_ne_gt hnb hnc] at hbc
        exact (order_numbers_ne_gt hna hnc).mpr (hab.trans hbc)

theorem le_iff : le a b = true ↔ order a b ≠ .gt := decide_eq_true_iff

/-- Sorting ids that are in order puts them in order. -/
theorem Coheres.sorted {ids : List String} (h : Coheres p) (hids : ∀ id ∈ ids, p id) :
    (ids.mergeSort le).Pairwise fun a b => order a b ≠ .gt := by
  -- The library sorts by orders of a whole type: here that of the ids.
  let below : {id // id ∈ ids} → {id // id ∈ ids} → Bool := fun a b => le a.1 b.1
  have htrans : ∀ a b c, below a b → below b c → below a c := by
    intro a b c hab hbc
    rw [le_iff] at hab hbc ⊢
    exact h a.1 b.1 c.1 (hids _ a.2) (hids _ b.2) (hids _ c.2) hab hbc
  have htotal : ∀ a b, below a b || below b a := by
    intro a b
    rw [Bool.or_eq_true, le_iff, le_iff]
    exact order_total a.1 b.1
  have hmap : (ids.attach.mergeSort below).map Subtype.val = ids.mergeSort le := by
    rw [List.map_mergeSort (s := le) fun _ _ _ _ => rfl, List.attach_map_subtype_val]
  rw [← hmap, List.pairwise_map]
  exact (List.pairwise_mergeSort htrans htotal ids.attach).imp fun hab => le_iff.mp hab

/-- **The order of run ids.**  The order of two ids turns around with them, and it is transitive
    over ids exactly where no id that is no number stands between two numbers, by their texts, that
    are not in order.  Over such ids sorting puts ids in order. -/
theorem order_coheres_iff (p : String → Prop) :
    (∀ a b, order b a = (order a b).swap) ∧ (Coheres p ↔ Separates p) ∧
      (Separates p → ∀ ids : List String, (∀ id ∈ ids, p id) →
        (ids.mergeSort le).Pairwise fun a b => order a b ≠ .gt) :=
  ⟨order_swap, ⟨Coheres.separates, Separates.coheres⟩, fun h _ => h.coheres.sorted⟩

/-- Two numbers and an id that is none, behind both. -/
theorem order_coheres_iff_behind :
    (["9x", "10", "9"].mergeSort le).Pairwise fun a b => order a b ≠ .gt :=
  (order_coheres_iff (· ∈ ["9x", "10", "9"])).2.2 (by
    unfold Separates
    simp only [List.mem_cons, List.not_mem_nil, or_false]
    rintro a t b (rfl | rfl | rfl) (rfl | rfl | rfl) (rfl | rfl | rfl) <;> decide)
    ["9x", "10", "9"] fun _ h => h

/-- Three ids of which each may stand before the next, and the last stands before the first: the
    middle one is no number and stands, as a text, between two numbers that are not in order. -/
theorem order_runs_in_a_circle :
    order "10" "5x" ≠ .gt ∧ order "5x" "9" ≠ .gt ∧ order "10" "9" = .gt := by
  decide

end RunId

/-- The ids of the cached runs come out of a sort. -/
theorem exists_mergeSort_of_cachedIds {d : Disk} {root : Path} {job : String} {ids : List String}
    (h : cachedIds d root job = .ok ids) : ∃ unsorted : List String, ids = unsorted.mergeSort RunId.le := by
  unfold cachedIds at h
  simp only at h
  split at h
  · exact ⟨[], by rw [← Except.ok.inj h, List.mergeSort_nil]⟩
  · split at h
    · cases h
    · exact ⟨_, (Except.ok.inj h).symm⟩

/-- Where the ids of the cached runs are in order, the newest one stands behind all others. -/
theorem newestCached_newest {d : Disk} {root : Path} {job mark : String} {ids : List String}
    (hids : cachedIds d root job = .ok ids) (hcoh : RunId.Coheres (· ∈ ids))
    (h : newestCached? d root job = .ok (some mark)) : ∀ id ∈ ids, RunId.order id mark ≠ .gt := by
  have hsorted : ids.Pairwise fun a b => RunId.order a b ≠ .gt := by
    obtain ⟨unsorted, rfl⟩ := exists_mergeSort_of_cachedIds hids
    exact hcoh.sorted fun id hid => List.mem_mergeSort.mpr hid
  have hlast : ids.getLast? = some mark := by
    rw [newestCached?, hids] at h
    exact Except.ok.inj h
  obtain ⟨init, rfl⟩ := List.getLast?_eq_some_iff.mp hlast
  intro id hid
  rcases List.mem_append.mp hid with hid | hid
  · exact (List.pairwise_append.mp hsorted).2.2 id hid mark (by simp)
  · rw [List.mem_singleton.mp hid]
    exact fun hgt => (RunId.order_total mark mark).elim (· hgt) (· hgt)

end RunCache
