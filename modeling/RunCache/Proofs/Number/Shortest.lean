import RunCache.Proofs.Number.Rounding

/-! # Shortest digits round back

    A step of powers of ten that is small enough meets the rounding
    interval next to its middle, and such a step is tried.

    * **`grid_holds`**: a grid is the interval on one denominator.
    * **`shortest_inCell`**: the digits that are found lie in the cell. -/

namespace RunCache.Binary64

variable {x : Binary64} {k j : Int} {n : Nat}

/-! ## Powers -/

theorem ten_zpow_pos (k : Int) : (0 : ℚ) < 10 ^ k := zpow_pos (by norm_num) k

theorem pow_toNat {b : ℚ} (hb : b ≠ 0) (e : Int) :
    b ^ e.toNat = b ^ e * b ^ (-e).toNat := by
  rcases le_total 0 e with h | h
  · obtain ⟨i, rfl⟩ := Int.eq_ofNat_of_zero_le h
    simp
  · obtain ⟨i, hi⟩ := Int.eq_ofNat_of_zero_le (by omega : 0 ≤ -e)
    obtain rfl : e = -i := by omega
    simp [hb]

/-- Powers of ten below powers of two. -/
theorem ten_zpow_le (h : (0 ≤ k ∧ 10 * k ≤ 3 * j) ∨ (k ≤ 0 ∧ 33 * k ≤ 10 * j)) :
    (10 : ℚ) ^ k ≤ 2 ^ j := by
  rcases h with ⟨hk, hle⟩ | ⟨hk, hle⟩
  · refine le_of_pow_le_pow_left₀ (n := 3) (by norm_num) (two_zpow_pos j).le ?_
    calc ((10 : ℚ) ^ k) ^ 3 = (10 ^ 3) ^ k := by rw [← zpow_natCast, ← zpow_natCast, zpow_comm]
      _ ≤ (2 ^ 10) ^ k := zpow_le_zpow_left₀ hk (by norm_num) (by norm_num)
      _ = 2 ^ (10 * k) := by rw [zpow_mul]; norm_num
      _ ≤ 2 ^ (j * 3) := zpow_le_zpow_right₀ (by norm_num) (by omega)
      _ = (2 ^ j) ^ 3 := by rw [zpow_mul]; norm_cast
  · have hneg : (2 : ℚ) ^ (-j) ≤ 10 ^ (-k) := by
      refine le_of_pow_le_pow_left₀ (n := 10) (by norm_num) (ten_zpow_pos _).le ?_
      calc ((2 : ℚ) ^ (-j)) ^ 10 = 2 ^ (-j * 10) := by rw [zpow_mul]; norm_cast
        _ ≤ 2 ^ (33 * -k) := zpow_le_zpow_right₀ (by norm_num) (by omega)
        _ = (2 ^ 33) ^ (-k) := by rw [zpow_mul]; norm_num
        _ ≤ (10 ^ 10) ^ (-k) := zpow_le_zpow_left₀ (by omega) (by norm_num) (by norm_num)
        _ = (10 ^ (-k)) ^ 10 := by rw [← zpow_natCast, ← zpow_natCast, zpow_comm]
    rw [zpow_neg, zpow_neg] at hneg
    exact (inv_le_inv₀ (two_zpow_pos j) (ten_zpow_pos k)).mp hneg

/-! ## Grids -/

/-- What the ends of the interval are multiplied by. -/
def gridScale (x : Binary64) (k : Int) : Nat := twoTo (x.exponent - 2).toNat * tenTo (-k).toNat

theorem gridScale_pos (x : Binary64) (k : Int) : 0 < x.gridScale k :=
  Nat.mul_pos (twoTo_pos _) (Nat.pow_pos (by decide))

/-- The step of a grid is a power of ten, and its scale a unit of the interval. -/
theorem grid_unit (x : Binary64) (k : Int) :
    ((x.grid k).unit : ℚ) * 2 ^ (x.exponent - 2) = x.gridScale k * 10 ^ k := by
  have htwo := pow_toNat (b := (2 : ℚ)) (by norm_num) (x.exponent - 2)
  have hten := pow_toNat (b := (10 : ℚ)) (by norm_num) k
  have hunit : ((x.grid k).unit : ℚ) = 2 ^ (-(x.exponent - 2)).toNat * 10 ^ k.toNat := by
    simp only [grid]
    exact_mod_cast rfl
  have hscale : (x.gridScale k : ℚ) = 2 ^ (x.exponent - 2).toNat * 10 ^ (-k).toNat := by
    simp only [gridScale]
    exact_mod_cast rfl
  rw [hunit, hscale, htwo, hten]
  ring

theorem grid_le (x : Binary64) (k : Int) (a n : Nat) :
    a * x.gridScale k ≤ n * (x.grid k).unit ↔ (a : ℚ) * 2 ^ (x.exponent - 2) ≤ n * 10 ^ k := by
  have hscale : (0 : ℚ) < x.gridScale k := Nat.cast_pos.mpr (gridScale_pos x k)
  have hpos := two_zpow_pos (x.exponent - 2)
  have hunit := grid_unit x k
  rw [← @Nat.cast_le ℚ, Nat.cast_mul, Nat.cast_mul, ← mul_le_mul_iff_left₀ hpos,
    mul_assoc (n : ℚ), hunit, ← mul_le_mul_iff_left₀ hscale (b := (a : ℚ) * 2 ^ (x.exponent - 2))]
  constructor <;> intro h <;> linarith

theorem grid_ge (x : Binary64) (k : Int) (a n : Nat) :
    n * (x.grid k).unit ≤ a * x.gridScale k ↔ (n : ℚ) * 10 ^ k ≤ a * 2 ^ (x.exponent - 2) := by
  have hscale : (0 : ℚ) < x.gridScale k := Nat.cast_pos.mpr (gridScale_pos x k)
  have hpos := two_zpow_pos (x.exponent - 2)
  have hunit := grid_unit x k
  rw [← @Nat.cast_le ℚ, Nat.cast_mul, Nat.cast_mul, ← mul_le_mul_iff_left₀ hpos,
    mul_assoc (n : ℚ), hunit, ← mul_le_mul_iff_left₀ hscale (b := (n : ℚ) * 10 ^ k)]
  constructor <;> intro h <;> linarith

/-- A multiple of the step lies in the grid exactly if it lies in the cell. -/
theorem grid_holds (x : Binary64) (k : Int) (n : Nat) :
    (x.grid k).holds n = true ↔ InCell x (n * 10 ^ k) := by
  have hlow : (x.grid k).low = x.interval.low * x.gridScale k := rfl
  have hhigh : (x.grid k).high = x.interval.high * x.gridScale k := rfl
  have hclosed : (x.grid k).closed = x.interval.closed := rfl
  have hle := grid_le x k x.interval.low n
  have hge := grid_ge x k x.interval.high n
  have hlt := not_congr (grid_ge x k x.interval.low n)
  have hgt := not_congr (grid_le x k x.interval.high n)
  simp only [not_le] at hlt hgt
  rw [Grid.holds, InCell, hlow, hhigh, hclosed]
  split
  · rw [Bool.and_eq_true, decide_eq_true_eq, decide_eq_true_eq, hle, hge]
  · rw [Bool.and_eq_true, decide_eq_true_eq, decide_eq_true_eq, hlt, hgt]

/-! ## The digits that are found -/

theorem nearest_holds {g : Grid} (h : g.nearest? = some n) : 0 < n ∧ g.holds n = true := by
  unfold Grid.nearest? at h
  simp only at h
  generalize (if divNearest g.mid g.unit = g.mid / g.unit then g.mid / g.unit + 1
    else g.mid / g.unit) = other at h
  split at h
  · next hnearer =>
    obtain rfl := Option.some.inj h
    simpa using hnearer
  · split at h
    · next hother =>
      obtain rfl := Option.some.inj h
      simpa using hother
    · cases h

theorem divNearest_bounds {a b : Nat} (hb : 0 < b) :
    2 * a ≤ 2 * (divNearest a b * b) + b ∧ 2 * (divNearest a b * b) ≤ 2 * a + b := by
  have hdiv := Nat.div_add_mod' a b
  have hmod := Nat.mod_lt a hb
  unfold divNearest
  simp only
  split_ifs
  · omega
  · rw [Nat.add_mul]
    omega
  · omega
  · rw [Nat.add_mul]
    omega

/-- A step that is no larger than the unit of the interval meets it. -/
theorem exists_nearest (hx : x.significand ≠ 0) (hstep : (10 : ℚ) ^ k ≤ 2 ^ (x.exponent - 2)) :
    (x.grid k).nearest? ≠ none := by
  have hunit : (x.grid k).unit ≤ x.gridScale k := by
    have h := grid_ge x k 1 1
    simp only [Nat.cast_one, one_mul] at h
    exact h.mpr hstep
  have hpos : 0 < (x.grid k).unit := Nat.mul_pos (twoTo_pos _) (Nat.pow_pos (by decide))
  have hscale := gridScale_pos x k
  have hmid : (x.grid k).mid = 4 * x.significand * x.gridScale k := rfl
  have hlow : (x.grid k).low = x.interval.low * x.gridScale k := rfl
  have hhigh : (x.grid k).high = (4 * x.significand + 2) * x.gridScale k := rfl
  -- Both ends of the interval are a step or more from its middle, so rounding stays inside.
  have hlowEnd : x.interval.low + 1 ≤ 4 * x.significand := by
    simp only [interval]
    split <;> omega
  have hlowScaled := Nat.mul_le_mul_right (x.gridScale k) hlowEnd
  rw [Nat.add_mul, Nat.one_mul] at hlowScaled
  rw [Nat.add_mul] at hhigh
  have hfour : 4 * x.gridScale k ≤ 4 * x.significand * x.gridScale k :=
    Nat.mul_le_mul_right _ (by omega)
  obtain ⟨hfrom, hto⟩ := divNearest_bounds (a := (x.grid k).mid) hpos
  have hholds : (x.grid k).holds (divNearest (x.grid k).mid (x.grid k).unit) = true := by
    unfold Grid.holds
    simp only
    split
    · simp only [Bool.and_eq_true, decide_eq_true_eq]
      omega
    · simp only [Bool.and_eq_true, decide_eq_true_eq]
      omega
  have hnear : 0 < divNearest (x.grid k).mid (x.grid k).unit := by
    refine Nat.pos_of_ne_zero fun hzero => ?_
    rw [hzero] at hfrom
    omega
  unfold Grid.nearest?
  simp [hnear, hholds]

/-- If a later step meets the interval, digits are found. -/
theorem shortestFrom_inCell (fuel : Nat) (h : (x.grid (k - fuel)).nearest? ≠ none) :
    0 < (shortestFrom x k (fuel + 1)).1 ∧
      InCell x ((shortestFrom x k (fuel + 1)).1 * 10 ^ (shortestFrom x k (fuel + 1)).2) := by
  induction fuel generalizing k with
  | zero =>
    rw [shortestFrom]
    cases hnearest : (x.grid k).nearest? with
    | none => exact absurd (by simpa using hnearest) h
    | some n =>
      obtain ⟨hpos, hholds⟩ := nearest_holds hnearest
      exact ⟨hpos, (grid_holds x k n).mp hholds⟩
  | succ fuel ih =>
    rw [shortestFrom]
    cases hnearest : (x.grid k).nearest? with
    | none =>
      refine ih ?_
      rwa [Nat.cast_succ, show k - ((fuel : Int) + 1) = k - 1 - fuel by ring] at h
    | some n =>
      obtain ⟨hpos, hholds⟩ := nearest_holds hnearest
      exact ⟨hpos, (grid_holds x k n).mp hholds⟩

/-- The shortest digits of a value lie in its cell. -/
theorem shortest_inCell (hx : x.significand ≠ 0) :
    0 < x.shortest.1 ∧ InCell x (x.shortest.1 * 10 ^ x.shortest.2) := by
  refine shortestFrom_inCell 23 (exists_nearest hx (ten_zpow_le ?_))
  obtain ⟨hfits, hleast, hmost, _⟩ := x.canonical
  have hlog : x.significand.log2 < 53 := (Nat.log2_lt hx).mpr hfits
  rw [decimalBound]
  omega

end RunCache.Binary64
