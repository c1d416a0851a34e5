import Mathlib.Algebra.Order.Field.Power
import Mathlib.Data.Rat.Cast.Order
import Mathlib.Tactic.FieldSimp
import Mathlib.Tactic.Linarith
import Mathlib.Tactic.Positivity
import Mathlib.Tactic.Ring
import RunCache.Number.Decimal

/-! # Rounding to the nearest value

    The rationals that round to a value form its cell: half a unit of the
    last place to either side, and a quarter below a power of two.  The
    ends belong to it when the significand is even.

    * **`divNearest_eq`**: rounded division.
    * **`unitExponent_of_scaled`**: the unit that a fraction is rounded to.
    * **`ofRatio_of_inCell`**: a fraction in the cell of a value rounds
      to it. -/

namespace RunCache

/-! ## Rounded division -/

theorem divNearest_eq {a b m : Nat} (hb : 0 < b) (hlow : 2 * (m * b) ≤ 2 * a + b)
    (hhigh : 2 * a ≤ 2 * (m * b) + b)
    (htie : 2 * (m * b) = 2 * a + b ∨ 2 * a = 2 * (m * b) + b → m % 2 = 0) : divNearest a b = m := by
  have hdiv := Nat.div_add_mod' a b
  have hmod := Nat.mod_lt a hb
  have hcases : m = a / b ∨ m = a / b + 1 := by
    rcases Nat.lt_trichotomy m (a / b) with hlt | heq | hgt
    · have hmul := Nat.mul_le_mul_right b (Nat.succ_le_of_lt hlt)
      rw [Nat.succ_mul] at hmul
      omega
    · exact .inl heq
    · by_contra hne
      have hmul := Nat.mul_le_mul_right b (by omega : a / b + 2 ≤ m)
      rw [Nat.add_mul] at hmul
      omega
  unfold divNearest
  simp only
  rcases hcases with rfl | rfl
  · split_ifs <;> omega
  · rw [Nat.add_mul] at hlow hhigh htie
    split_ifs <;> omega

/-- Rounded division by what is rounded. -/
theorem divNearest_of_ratio {a b m : Nat} (hb : 0 < b) (hlow : 2 * (m : ℚ) - 1 ≤ 2 * (a / b))
    (hhigh : 2 * (a / b : ℚ) ≤ 2 * m + 1)
    (htie : 2 * (m : ℚ) - 1 = 2 * (a / b) ∨ 2 * (a / b : ℚ) = 2 * m + 1 → m % 2 = 0) :
    divNearest a b = m := by
  have hpos : (0 : ℚ) < b := Nat.cast_pos.mpr hb
  have hcancel : (a / b : ℚ) * b = a := div_mul_cancel₀ _ hpos.ne'
  have hlow' : 2 * (m * b : ℚ) ≤ 2 * a + b := by
    have h := mul_le_mul_of_nonneg_right hlow hpos.le
    linarith
  have hhigh' : 2 * (a : ℚ) ≤ 2 * (m * b) + b := by
    have h := mul_le_mul_of_nonneg_right hhigh hpos.le
    linarith
  refine divNearest_eq hb (by exact_mod_cast hlow') (by exact_mod_cast hhigh') fun h => htie ?_
  rcases h with h | h
  · left
    have h : 2 * (m * b : ℚ) = 2 * a + b := by exact_mod_cast h
    refine mul_right_cancel₀ hpos.ne' ?_
    linarith
  · right
    have h : 2 * (a : ℚ) = 2 * (m * b) + b := by exact_mod_cast h
    refine mul_right_cancel₀ hpos.ne' ?_
    linarith

namespace Binary64

variable {num den : Nat} {e : Int} {x : Binary64} {q : ℚ}

/-! ## Powers of two -/

theorem two_zpow_pos (e : Int) : (0 : ℚ) < 2 ^ e := zpow_pos (by norm_num) e

theorem two_zpow_add (e k : Int) : (2 : ℚ) ^ (e + k) = 2 ^ e * 2 ^ k :=
  zpow_add₀ (by norm_num) e k

theorem cast_twoTo (h : 0 ≤ e) : ((twoTo e.toNat : Nat) : ℚ) = 2 ^ e := by
  obtain ⟨k, rfl⟩ := Int.eq_ofNat_of_zero_le h
  rw [Int.toNat_natCast, zpow_natCast]
  exact_mod_cast rfl

theorem twoTo_pos (n : Nat) : 0 < twoTo n := Nat.pow_pos Nat.two_pos

/-! ## The unit of the last place -/

theorem lt_two_zpow (hden : 0 < den) (num : Nat) (e : Int) :
    (if 0 ≤ e then num < den * twoTo e.toNat else num * twoTo (-e).toNat < den) ↔
      (num / den : ℚ) < 2 ^ e := by
  have hpos : (0 : ℚ) < den := Nat.cast_pos.mpr hden
  rw [div_lt_iff₀ hpos]
  split
  · next h =>
    rw [← cast_twoTo h, mul_comm, ← Nat.cast_mul, Nat.cast_lt]
  · next h =>
    have hneg : (2 : ℚ) ^ e = (2 ^ (-e))⁻¹ := by rw [zpow_neg, inv_inv]
    rw [hneg, ← cast_twoTo (by omega : 0 ≤ -e), inv_mul_eq_div,
      lt_div_iff₀ (Nat.cast_pos.mpr (twoTo_pos _)), ← Nat.cast_mul, Nat.cast_lt]

theorem log2_bounds {n : Nat} (hn : 0 < n) :
    (2 : ℚ) ^ (n.log2 : Int) ≤ n ∧ (n : ℚ) < 2 ^ ((n.log2 : Int) + 1) := by
  have hlow := Nat.log2_self_le hn.ne'
  have hhigh := Nat.lt_log2_self (n := n)
  refine ⟨?_, ?_⟩
  · rw [zpow_natCast]
    exact_mod_cast hlow
  · rw [← Nat.cast_succ, zpow_natCast]
    exact_mod_cast hhigh

/-- The unit of a fraction is the power of two that leaves 53 bits before the point, unless it is
    smaller than all units. -/
theorem unitExponent_eq (hnum : 0 < num) (hden : 0 < den) : ∃ e : Int,
    unitExponent num den = max e (-1074) ∧ (2 : ℚ) ^ (e + 52) ≤ num / den ∧
      (num / den : ℚ) < 2 ^ (e + 53) := by
  obtain ⟨hnumLow, hnumHigh⟩ := log2_bounds hnum
  obtain ⟨hdenLow, hdenHigh⟩ := log2_bounds hden
  have hpos : (0 : ℚ) < den := Nat.cast_pos.mpr hden
  generalize hi : (num.log2 : Int) = i at hnumLow hnumHigh
  generalize hj : (den.log2 : Int) = j at hdenLow hdenHigh
  -- The quotient lies between the powers of two that the lengths tell.
  have hlow : (2 : ℚ) ^ (i - j - 1) ≤ num / den := by
    rw [le_div_iff₀ hpos]
    calc (2 : ℚ) ^ (i - j - 1) * den ≤ 2 ^ (i - j - 1) * 2 ^ (j + 1) :=
          mul_le_mul_of_nonneg_left hdenHigh.le (two_zpow_pos _).le
      _ = 2 ^ i := by rw [← two_zpow_add]; congr 1; ring
      _ ≤ num := hnumLow
  have hhigh : (num / den : ℚ) < 2 ^ (i - j + 1) := by
    rw [div_lt_iff₀ hpos]
    calc (num : ℚ) < 2 ^ (i + 1) := hnumHigh
      _ = 2 ^ (i - j + 1) * 2 ^ j := by rw [← two_zpow_add]; congr 1; ring
      _ ≤ 2 ^ (i - j + 1) * den := mul_le_mul_of_nonneg_left hdenLow (two_zpow_pos _).le
  have hbelow := lt_two_zpow hden num (i - j - 53 + 53)
  rw [unitExponent, hi, hj]
  simp only [hbelow]
  by_cases h : (num / den : ℚ) < 2 ^ (i - j - 53 + 53)
  · refine ⟨i - j - 53, by rw [if_pos h], ?_, h⟩
    rwa [show i - j - 53 + 52 = i - j - 1 by ring]
  · refine ⟨i - j - 53 + 1, by rw [if_neg h], ?_, ?_⟩
    · rw [show i - j - 53 + 1 + 52 = i - j - 53 + 53 by ring]
      exact not_lt.mp h
    · rwa [show i - j - 53 + 1 + 53 = i - j + 1 by ring]

theorem lt_of_two_zpow_lt {i j : Int} (h : (2 : ℚ) ^ i < 2 ^ j) : i < j :=
  (zpow_lt_zpow_iff_right₀ (by norm_num)).mp h

/-- A fraction is measured in the unit that leaves it 53 bits before the point, or in the smallest
    one when it is less. -/
theorem unitExponent_of_scaled (hnum : 0 < num) (hden : 0 < den) (hleast : -1074 ≤ e)
    (hlow : e = -1074 ∨ (2 : ℚ) ^ (52 : Int) ≤ num / den / 2 ^ e)
    (hhigh : (num / den / 2 ^ e : ℚ) < 2 ^ (53 : Int)) : unitExponent num den = e := by
  obtain ⟨k, hunit, hfrom, hto⟩ := unitExponent_eq hnum hden
  have hpos := two_zpow_pos e
  have hle : k ≤ e := by
    rw [div_lt_iff₀ hpos, ← two_zpow_add] at hhigh
    have := lt_of_two_zpow_lt (hfrom.trans_lt hhigh)
    omega
  have hge : e ≤ max k (-1074) := by
    rcases hlow with heq | hlow
    · omega
    · rw [le_div_iff₀ hpos, ← two_zpow_add] at hlow
      have := lt_of_two_zpow_lt (hlow.trans_lt hto)
      omega
  omega

/-- A fraction in a unit is rounded to the nearest multiple of it. -/
theorem scaledNearest_eq {m : Nat} (hden : 0 < den)
    (hlow : 2 * (m : ℚ) - 1 ≤ 2 * (num / den / 2 ^ e))
    (hhigh : 2 * (num / den / 2 ^ e : ℚ) ≤ 2 * m + 1)
    (htie : 2 * (m : ℚ) - 1 = 2 * (num / den / 2 ^ e) ∨ 2 * (num / den / 2 ^ e : ℚ) = 2 * m + 1 →
      m % 2 = 0) : scaledNearest num den e = m := by
  unfold scaledNearest
  split
  · next h =>
    have hratio : (num / den / 2 ^ e : ℚ) = num / (den * twoTo e.toNat : Nat) := by
      rw [Nat.cast_mul, cast_twoTo h, div_div]
    rw [hratio] at hlow hhigh htie
    exact divNearest_of_ratio (Nat.mul_pos hden (twoTo_pos _)) hlow hhigh htie
  · next h =>
    have hratio : (num / den / 2 ^ e : ℚ) = (num * twoTo (-e).toNat : Nat) / den := by
      rw [Nat.cast_mul, cast_twoTo (by omega), zpow_neg]
      field_simp
    rw [hratio] at hlow hhigh htie
    exact divNearest_of_ratio hden hlow hhigh htie

/-! ## Cells -/

/-- A rational lies in the rounding interval of a value. -/
def InCell (x : Binary64) (q : ℚ) : Prop :=
  if x.interval.closed then
    x.interval.low * 2 ^ (x.exponent - 2) ≤ q ∧ q ≤ x.interval.high * 2 ^ (x.exponent - 2)
  else x.interval.low * 2 ^ (x.exponent - 2) < q ∧ q < x.interval.high * 2 ^ (x.exponent - 2)

/-- The ends of a cell in units of the last place; an end belongs to it for an even significand
    only. -/
structure Nearest (x : Binary64) (s : ℚ) : Prop where
  low : 2 * (x.significand : ℚ) - 1 ≤ 2 * s
  high : 2 * s ≤ 2 * x.significand + 1
  tie : 2 * (x.significand : ℚ) - 1 = 2 * s ∨ 2 * s = 2 * x.significand + 1 → x.significand % 2 = 0
  power : x.significand = twoTo 52 → x.exponent ≠ -1074 → 4 * (x.significand : ℚ) - 1 ≤ 4 * s

theorem interval_low (hx : x.significand ≠ 0) :
    (x.interval.low : ℚ) = if x.significand = twoTo 52 ∧ x.exponent ≠ -1074 then
      4 * (x.significand : ℚ) - 1 else 4 * (x.significand : ℚ) - 2 := by
  have htwo : 2 ≤ 4 * x.significand := by omega
  simp only [interval]
  split
  · rw [Nat.cast_sub (by omega), Nat.cast_mul, Nat.cast_ofNat, Nat.cast_one]
  · rw [Nat.cast_sub htwo, Nat.cast_mul, Nat.cast_ofNat, Nat.cast_ofNat]

theorem InCell.nearest (h : InCell x q) (hx : x.significand ≠ 0) : Nearest x (q / 2 ^ x.exponent) := by
  have hpos := two_zpow_pos x.exponent
  have hunit : (2 : ℚ) ^ (x.exponent - 2) = 2 ^ x.exponent / 4 := by
    rw [zpow_sub₀ (by norm_num)]
    norm_num
  have hq : q / 2 ^ x.exponent * 2 ^ x.exponent = q := div_mul_cancel₀ _ hpos.ne'
  generalize hs : q / 2 ^ x.exponent = s at hq
  have hhigh : (x.interval.high : ℚ) = 4 * x.significand + 2 := by simp [interval]
  have hlow := interval_low hx
  have hclosed : x.interval.closed = true ↔ x.significand % 2 = 0 := by simp [interval]
  rw [InCell, hlow, hhigh, hunit, ← hq] at h
  -- Counted in units of the value the ends of the cell are quarters of whole numbers.
  have hcancel : ∀ a b : ℚ, a * (2 ^ x.exponent / 4) ≤ b * 2 ^ x.exponent ↔ a ≤ 4 * b := by
    intro a b
    rw [show a * (2 ^ x.exponent / 4 : ℚ) = a / 4 * 2 ^ x.exponent by ring,
      mul_le_mul_iff_left₀ hpos, div_le_iff₀ (by norm_num), mul_comm]
  have hcancel' : ∀ a b : ℚ, b * 2 ^ x.exponent ≤ a * (2 ^ x.exponent / 4) ↔ 4 * b ≤ a := by
    intro a b
    rw [show a * (2 ^ x.exponent / 4 : ℚ) = a / 4 * 2 ^ x.exponent by ring,
      mul_le_mul_iff_left₀ hpos, le_div_iff₀ (by norm_num), mul_comm]
  simp only [← not_le, hcancel, hcancel'] at h
  simp only [not_le] at h
  -- The lower end is half as far away at a power of two, and the ends belong to even values.
  have hends : 4 * (x.significand : ℚ) - 2 ≤ 4 * s ∧ 4 * s ≤ 4 * x.significand + 2 ∧
      (x.significand = twoTo 52 → x.exponent ≠ -1074 → 4 * (x.significand : ℚ) - 1 ≤ 4 * s) ∧
      (x.significand % 2 ≠ 0 → 4 * (x.significand : ℚ) - 2 < 4 * s ∧ 4 * s < 4 * x.significand + 2) := by
    split at h
    · next hc =>
      have heven := hclosed.mp hc
      split at h
      · refine ⟨by linarith [h.1], h.2, fun _ _ => h.1, fun hodd => absurd heven hodd⟩
      · next hpower =>
        exact ⟨h.1, h.2, fun h₁ h₂ => absurd ⟨h₁, h₂⟩ hpower, fun hodd => absurd heven hodd⟩
    · split at h
      · exact ⟨by linarith [h.1], h.2.le, fun _ _ => h.1.le, fun _ => ⟨by linarith [h.1], h.2⟩⟩
      · next hpower =>
        exact ⟨h.1.le, h.2.le, fun h₁ h₂ => absurd ⟨h₁, h₂⟩ hpower, fun _ => h⟩
  obtain ⟨hlow, hhigh, hpower, hstrict⟩ := hends
  refine ⟨by linarith, by linarith, fun htie => ?_, hpower⟩
  by_contra hodd
  obtain ⟨hlow, hhigh⟩ := hstrict hodd
  rcases htie with h | h <;> linarith

theorem make_self (x : Binary64) : make? x.negative x.significand x.exponent = some x := by
  rw [make?, dif_pos x.canonical]

theorem two_zpow_values : (2 : ℚ) ^ (52 : Int) = twoTo 52 ∧ (2 : ℚ) ^ (53 : Int) = twoTo 53 ∧
    (twoTo 53 : ℚ) = 2 * twoTo 52 ∧ (1 : ℚ) ≤ twoTo 52 := by
  have h52 : (twoTo 52 : ℚ) = 4503599627370496 := by exact_mod_cast rfl
  have h53 : (twoTo 53 : ℚ) = 9007199254740992 := by exact_mod_cast rfl
  rw [h52, h53]
  norm_num

/-- Below a power of two the unit is half as large, and a fraction of its cell is rounded up to the
    power. -/
theorem ofRatio_below_power (hnum : num ≠ 0) (hden : 0 < den) (hx : x.significand = twoTo 52)
    (hnormal : x.exponent ≠ -1074) (hpower : 4 * (twoTo 52 : ℚ) - 1 ≤ 4 * (num / den / 2 ^ x.exponent))
    (hsmall : (num / den / 2 ^ x.exponent : ℚ) < twoTo 52) :
    ofRatio? x.negative num den = some x := by
  obtain ⟨h52, h53, hdouble, hone⟩ := two_zpow_values
  have hleast : -1074 ≤ x.exponent := x.canonical.2.1
  have hhalf : (num / den / 2 ^ (x.exponent - 1) : ℚ) = 2 * (num / den / 2 ^ x.exponent) := by
    rw [zpow_sub₀ (by norm_num), zpow_one]
    field_simp
  have hunit : unitExponent num den = x.exponent - 1 := by
    refine unitExponent_of_scaled (Nat.pos_of_ne_zero hnum) hden (by omega) (.inr ?_) ?_
    · rw [hhalf, h52]
      linarith
    · rw [hhalf, h53]
      linarith
  have hround : scaledNearest num den (x.exponent - 1) = twoTo 53 := by
    refine scaledNearest_eq hden ?_ ?_ fun _ => rfl
    · rw [hhalf]
      linarith
    · rw [hhalf]
      linarith
  rw [ofRatio?, if_neg hnum]
  simp only [hunit]
  rw [hround, if_pos rfl, Int.sub_add_cancel, ← hx]
  exact make_self x

/-- A fraction in the cell of a value rounds to it. -/
theorem ofRatio_of_inCell (hden : 0 < den) (hx : x.significand ≠ 0) (h : InCell x (num / den)) :
    ofRatio? x.negative num den = some x := by
  obtain ⟨hlow, hhigh, htie, hpower⟩ := h.nearest hx
  obtain ⟨hfits, hleast, _, hfull⟩ := x.canonical
  obtain ⟨h52, h53, -, -⟩ := two_zpow_values
  have hone : (1 : ℚ) ≤ x.significand := by exact_mod_cast Nat.one_le_iff_ne_zero.mpr hx
  have hmost : (x.significand : ℚ) + 1 ≤ twoTo 53 := by exact_mod_cast hfits
  have hnum : num ≠ 0 := by
    rintro rfl
    simp only [Nat.cast_zero, zero_div] at hlow
    linarith
  by_cases hlarge : x.exponent = -1074 ∨ (twoTo 52 : ℚ) ≤ num / den / 2 ^ x.exponent
  · -- The fraction is measured in the unit of the value.
    have hunit : unitExponent num den = x.exponent := by
      refine unitExponent_of_scaled (Nat.pos_of_ne_zero hnum) hden hleast ?_ ?_
      · rwa [h52]
      · rw [h53]
        linarith
    rw [ofRatio?, if_neg hnum]
    simp only [hunit]
    rw [scaledNearest_eq hden hlow hhigh htie, if_neg (Nat.ne_of_lt hfits)]
    exact make_self x
  · obtain ⟨hnormal, hsmall⟩ := not_or.mp hlarge
    have hsmall := not_le.mp hsmall
    have hsignificand : x.significand = twoTo 52 := by
      have hat := hfull.resolve_right hnormal
      have hlt : (x.significand : ℚ) < twoTo 52 + 1 := by linarith
      have hlt : x.significand < twoTo 52 + 1 := by exact_mod_cast hlt
      omega
    have hpower := hpower hsignificand hnormal
    rw [hsignificand] at hpower
    exact ofRatio_below_power hnum hden hsignificand hnormal hpower hsmall

end Binary64

end RunCache
