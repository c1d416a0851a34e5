import RunCache.Number.Digits
import Mathlib.Tactic.IntervalCases
import Mathlib.Tactic.Ring

/-! # Written numbers

    The digits that a number is written with are read as that number.

    * **`ofDigits_append`**, **`ofDigits_zeros`**, **`ofDigits_lt`**: what
      digits write.
    * **`exists_digits`**: a written number by its digits. -/

namespace RunCache

variable {b n : Nat} {ds es : List Nat}

/-! ## What digits write -/

theorem foldl_ofDigits (b n : Nat) (ds : List Nat) :
    ds.foldl (fun n d => n * b + d) n = n * b ^ ds.length + ofDigits b ds := by
  induction ds generalizing n with
  | nil => simp [ofDigits]
  | cons d ds ih =>
    rw [ofDigits, List.foldl_cons, List.foldl_cons, ih, ih (0 * b + d), List.length_cons, pow_succ']
    ring_nf

theorem ofDigits_append (b : Nat) (ds es : List Nat) :
    ofDigits b (ds ++ es) = ofDigits b ds * b ^ es.length + ofDigits b es := by
  rw [ofDigits, List.foldl_append, foldl_ofDigits]
  rfl

theorem ofDigits_cons (b d : Nat) (ds : List Nat) :
    ofDigits b (d :: ds) = d * b ^ ds.length + ofDigits b ds := by
  have h := ofDigits_append b [d] ds
  simpa [ofDigits] using h

theorem ofDigits_zeros (b k : Nat) : ofDigits b (List.replicate k 0) = 0 := by
  induction k with
  | zero => rfl
  | succ k ih => rw [List.replicate_succ, ofDigits_cons, ih, Nat.zero_mul]

theorem ofDigits_lt (hds : ∀ d ∈ ds, d < b) : ofDigits b ds < b ^ ds.length := by
  induction ds with
  | nil => simp [ofDigits]
  | cons d ds ih =>
    have hd := hds d (by simp)
    have ih := ih fun e he => hds e (List.mem_cons_of_mem d he)
    rw [ofDigits_cons, List.length_cons, pow_succ']
    calc d * b ^ ds.length + ofDigits b ds < d * b ^ ds.length + b ^ ds.length := by omega
      _ = (d + 1) * b ^ ds.length := by ring
      _ ≤ b * b ^ ds.length := Nat.mul_le_mul_right _ hd

/-- A digit other than zero in front counts at its place. -/
theorem le_ofDigits (hne : ds ≠ []) (hhead : ds.head? ≠ some 0) :
    b ^ (ds.length - 1) ≤ ofDigits b ds := by
  cases ds with
  | nil => exact absurd rfl hne
  | cons d ds =>
    have hd : 0 < d := Nat.pos_of_ne_zero fun h => hhead (by simp [h])
    rw [ofDigits_cons, List.length_cons, Nat.add_sub_cancel]
    calc b ^ ds.length ≤ d * b ^ ds.length := Nat.le_mul_of_pos_left _ hd
      _ ≤ d * b ^ ds.length + ofDigits b ds := Nat.le_add_right _ _

/-! ## The digits of a number -/

/-- A number is written with digits of its base that write it; the first one is zero for zero
    only. -/
theorem exists_digits (hb : 1 < b) (n : Nat) : ∃ ds : List Nat,
    Nat.toDigits b n = ds.map Nat.digitChar ∧ (∀ d ∈ ds, d < b) ∧ ofDigits b ds = n ∧ ds ≠ [] ∧
      (n ≠ 0 → ds.head? ≠ some 0) := by
  induction n using Nat.strong_induction_on with
  | _ n ih =>
    by_cases hlt : n < b
    · exact ⟨[n], Nat.toDigits_of_lt_base hlt, by simpa using hlt, by simp [ofDigits],
        List.cons_ne_nil _ _, by simp⟩
    · have hle : b ≤ n := Nat.le_of_not_lt hlt
      have hdiv : n / b < n := Nat.div_lt_self (by omega) hb
      have hpos : n / b ≠ 0 := (Nat.div_pos hle (by omega)).ne'
      obtain ⟨ds, hds, hall, hval, hne, hhead⟩ := ih _ hdiv
      refine ⟨ds ++ [n % b], ?_, ?_, ?_, by simp, ?_⟩
      · rw [Nat.toDigits_of_base_le hb hle, hds, List.map_append, List.map_singleton]
      · intro d hd
        rcases List.mem_append.mp hd with hd | hd
        · exact hall d hd
        · rw [List.mem_singleton.mp hd]
          exact Nat.mod_lt _ (by omega)
      · rw [ofDigits_append, hval, List.length_singleton, pow_one, ofDigits_cons]
        simpa [ofDigits, Nat.mul_comm] using Nat.div_add_mod n b
      · intro _
        cases ds with
        | nil => exact absurd rfl hne
        | cons d ds => simpa using hhead hpos

theorem digitValue_digitChar {d : Nat} (hd : d < 10) : digitValue? (Nat.digitChar d) = some d := by
  interval_cases d <;> rfl

end RunCache
