import RunCache.Proofs.Number.Shortest
import RunCache.Proofs.Yaml.Numerals

/-! # A written float is read back

    The written form is split into its digits and its exponent, the
    digits write the shortest decimal of the value, and that decimal
    rounds to the value.

    * **`decimalParts_point`**, **`decimalParts_bare`**: the parts of a
      literal.
    * **`ofDecimal_of_inCell`**: a decimal in the cell of a value rounds to
      it, however many zeros stand behind its digits.
    * **`decimal_text`**: the written form reads as the value. -/

namespace RunCache

variable {ds whole fraction : List Nat} {rest : List Char} {negative : Bool}

/-! ## Digits of a literal -/

/-- Digits as they are written. -/
def written (ds : List Nat) : List Char := ds.map Nat.digitChar

theorem written_append (ds es : List Nat) : written (ds ++ es) = written ds ++ written es :=
  List.map_append

theorem written_zeros (n : Nat) : written (List.replicate n 0) = Binary64.zeros n :=
  List.map_replicate

/-- A text that does not go on with a digit. -/
def EndsDigits (rest : List Char) : Prop := rest.head?.bind digitValue? = none

theorem spanDigits_written (hds : ∀ d ∈ ds, d < 10) (hrest : EndsDigits rest) :
    spanDigits (written ds ++ rest) = (ds, rest) := by
  induction ds with
  | nil =>
    cases rest with
    | nil => rfl
    | cons c rest =>
      have hc : digitValue? c = none := hrest
      simp [written, spanDigits, hc]
  | cons d ds ih =>
    have hd := digitValue_digitChar (hds d (by simp))
    have ih := ih fun e he => hds e (List.mem_cons_of_mem d he)
    simp only [written, List.map_cons, List.cons_append, spanDigits, hd] at ih ⊢
    rw [ih]

/-- The sign of a literal. -/
def signText (negative : Bool) : List Char := if negative then ['-'] else []

theorem takeSign_written (hds : ∀ d ∈ ds, d < 10) (hne : ds ≠ []) (negative : Bool)
    (rest : List Char) :
    takeSign (signText negative ++ (written ds ++ rest)) = (negative, written ds ++ rest) := by
  cases negative with
  | true => rfl
  | false =>
    obtain ⟨d, ds, rfl⟩ := List.exists_cons_of_ne_nil hne
    have hd := isDigit_digitChar (hds d (by simp))
    simp only [signText, written, List.map_cons, List.cons_append, List.nil_append, Bool.false_eq_true,
      if_false]
    generalize Nat.digitChar d = c at *
    unfold takeSign
    split
    · next heq =>
      obtain ⟨rfl, _⟩ := List.cons.inj heq
      exact absurd hd (by decide)
    · next heq =>
      obtain ⟨rfl, _⟩ := List.cons.inj heq
      exact absurd hd (by decide)
    · rfl

/-- The exponent of a literal is read as the number that it is written for. -/
theorem exponentPart_eq (n : Int) : exponentPart? ('e' :: (toString n).toList) = some n := by
  obtain ⟨ds, hds, hall, hval, hne, _⟩ := exists_digits (b := 10) (by decide) n.natAbs
  have htext : (toString n).toList = signText (decide (n < 0)) ++ (written ds ++ []) := by
    rw [toList_toString, digitChars, hds, List.append_nil]
    by_cases h : n < 0 <;> simp [h, signText, written]
  have hspan : spanDigits (written ds ++ []) = _ := spanDigits_written hall rfl
  obtain ⟨d, ds, rfl⟩ := List.exists_cons_of_ne_nil hne
  rw [exponentPart?, if_pos (.inl rfl), htext, takeSign_written hall hne]
  simp only [hspan, hval]
  by_cases h : n < 0
  · simp only [h, decide_true, if_true]
    exact congrArg some (by omega)
  · simp only [h, decide_false, Bool.false_eq_true, if_false]
    exact congrArg some (by omega)

/-! ## Parts of a literal -/

/-- A literal with a point. -/
theorem decimalParts_point (hwhole : ∀ d ∈ whole, d < 10) (hne : whole ≠ [])
    (hfraction : ∀ d ∈ fraction, d < 10) {tail : List Char} (htail : EndsDigits tail) {e : Int}
    (he : exponentPart? tail = some e) :
    decimalParts? (signText negative ++ (written whole ++ '.' :: (written fraction ++ tail))) =
      some { negative, whole, fraction, exponent := e } := by
  have hempty : whole.isEmpty = false := by simpa using hne
  rw [decimalParts?, takeSign_written hwhole hne]
  have hspan : spanDigits (written whole ++ '.' :: (written fraction ++ tail)) = _ :=
    spanDigits_written hwhole rfl
  simp only [hspan, spanDigits_written hfraction htail, hempty, he]
  rfl

/-- A literal without a point but with an exponent. -/
theorem decimalParts_bare (hwhole : ∀ d ∈ whole, d < 10) (hne : whole ≠ []) (n : Int) :
    decimalParts? (signText negative ++ (written whole ++ 'e' :: (toString n).toList)) =
      some { negative, whole, fraction := [], exponent := n } := by
  have hempty : whole.isEmpty = false := by simpa using hne
  have hexponent := exponentPart_eq n
  generalize (toString n).toList = tail at *
  have hspan : spanDigits (written whole ++ 'e' :: tail) = _ := spanDigits_written hwhole rfl
  rw [decimalParts?, takeSign_written hwhole hne]
  simp [hspan, hempty, hexponent]

/-- The digits of a literal in front of which zeros do not count. -/
theorem dropWhile_zeros (i : Nat) (hhead : ds.head? ≠ some 0) (hne : ds ≠ []) (es : List Nat) :
    (List.replicate i 0 ++ (ds ++ es)).dropWhile (· = 0) = ds ++ es := by
  obtain ⟨d, ds, rfl⟩ := List.exists_cons_of_ne_nil hne
  have hd : d ≠ 0 := fun h => hhead (by rw [h]; rfl)
  induction i with
  | zero => simp [hd]
  | succ i ih => simpa [List.replicate_succ] using ih

namespace Binary64

variable {x : Binary64} {q : ℚ}

/-! ## The decimal of a value -/

/-- What rounds to a value is neither too small nor too large for a float. -/
theorem InCell.bounds (h : InCell x q) (hx : x.significand ≠ 0) :
    (2 : ℚ) ^ (-1075 : Int) ≤ q ∧ q ≤ 2 ^ (1024 : Int) := by
  obtain ⟨hfits, hleast, hmost, _⟩ := x.canonical
  have hweak : x.interval.low * 2 ^ (x.exponent - 2) ≤ q ∧
      q ≤ x.interval.high * 2 ^ (x.exponent - 2) := by
    rw [InCell] at h
    split at h
    · exact h
    · exact ⟨h.1.le, h.2.le⟩
  have hlow : (2 : ℚ) ≤ x.interval.low := by
    have hnat : 2 ≤ x.interval.low := by
      simp only [interval]
      split <;> omega
    exact_mod_cast hnat
  have hhigh : (x.interval.high : ℚ) ≤ 2 ^ (55 : Int) := by
    have hnat : x.interval.high ≤ 2 ^ 55 := by
      have h53 : twoTo 53 = 2 ^ 53 := rfl
      simp only [interval]
      omega
    exact_mod_cast hnat
  -- The exponent of a float lies between those of the smallest and the largest one.
  have hpos := two_zpow_pos (x.exponent - 2)
  refine ⟨?_, ?_⟩
  · calc (2 : ℚ) ^ (-1075 : Int) ≤ 2 ^ (x.exponent - 1) := zpow_le_zpow_right₀ (by norm_num) (by omega)
      _ = 2 * 2 ^ (x.exponent - 2) := by
        rw [← zpow_one_add₀ (by norm_num)]
        congr 1
        ring
      _ ≤ x.interval.low * 2 ^ (x.exponent - 2) := mul_le_mul_of_nonneg_right hlow hpos.le
      _ ≤ q := hweak.1
  · calc q ≤ x.interval.high * 2 ^ (x.exponent - 2) := hweak.2
      _ ≤ 2 ^ (55 : Int) * 2 ^ (x.exponent - 2) := mul_le_mul_of_nonneg_right hhigh hpos.le
      _ = 2 ^ (55 + (x.exponent - 2)) := (two_zpow_add _ _).symm
      _ ≤ 2 ^ (1024 : Int) := zpow_le_zpow_right₀ (by norm_num) (by omega)

/-- The place of the point in a decimal of the cell is not out of reach. -/
theorem places_bounds {d places : Nat} {k : Int} (h : InCell x (d * 10 ^ k)) (hx : x.significand ≠ 0)
    (hlow : 10 ^ (places - 1) ≤ d) (hhigh : d < 10 ^ places) (hplaces : 0 < places) :
    -400 ≤ places + k ∧ places + k ≤ 400 := by
  obtain ⟨hleast, hmost⟩ := h.bounds hx
  have hpos := ten_zpow_pos k
  refine ⟨?_, ?_⟩
  · -- It would be smaller than any float.
    by_contra hsmall
    have hupper : (d : ℚ) * 10 ^ k ≤ 10 ^ (-401 : Int) := by
      calc (d : ℚ) * 10 ^ k ≤ 10 ^ (places : Int) * 10 ^ k := by
            refine mul_le_mul_of_nonneg_right ?_ hpos.le
            rw [zpow_natCast]
            exact_mod_cast hhigh.le
        _ = 10 ^ (places + k) := (zpow_add₀ (by norm_num) _ _).symm
        _ ≤ 10 ^ (-401 : Int) := zpow_le_zpow_right₀ (by norm_num) (by omega)
    have htwo : (10 : ℚ) ^ (-401 : Int) ≤ 2 ^ (-1323 : Int) := ten_zpow_le (.inr (by omega))
    have hlt := lt_of_lt_of_le (zpow_lt_zpow_right₀ (by norm_num : (1 : ℚ) < 2)
      (by norm_num : (-1323 : Int) < -1075)) hleast
    linarith
  · -- It would be larger than any float.
    by_contra hlarge
    have hlower : (10 : ℚ) ^ (400 : Int) ≤ d * 10 ^ k := by
      calc (10 : ℚ) ^ (400 : Int) ≤ 10 ^ (((places - 1 : Nat) : Int) + k) :=
            zpow_le_zpow_right₀ (by norm_num) (by omega)
        _ = 10 ^ ((places - 1 : Nat) : Int) * 10 ^ k := zpow_add₀ (by norm_num) _ _
        _ ≤ d * 10 ^ k := by
            refine mul_le_mul_of_nonneg_right ?_ hpos.le
            rw [zpow_natCast]
            exact_mod_cast hlow
    have htwo : (2 : ℚ) ^ (1024 : Int) < 10 ^ (400 : Int) := by
      calc (2 : ℚ) ^ (1024 : Int) < 2 ^ (3 * 400 : Int) :=
            zpow_lt_zpow_right₀ (by norm_num) (by norm_num)
        _ = (2 ^ (3 : Int)) ^ (400 : Int) := zpow_mul _ _ _
        _ ≤ 10 ^ (400 : Int) := zpow_le_zpow_left₀ (by norm_num) (by norm_num) (by norm_num)
    exact absurd (lt_of_lt_of_le htwo (hlower.trans hmost)) (lt_irrefl _)

/-- A decimal in the cell of a value reads as the value, however many zeros stand behind its
    digits. -/
theorem ofDecimal_of_inCell {d places : Nat} {k : Int} (h : InCell x (d * 10 ^ k))
    (hx : x.significand ≠ 0) (hlow : 10 ^ (places - 1) ≤ d) (hhigh : d < 10 ^ places)
    (hplaces : 0 < places) (j : Nat) :
    ofDecimal? x.negative (d * 10 ^ j) (places + j) (k - j) = some x := by
  obtain ⟨hleast, hmost⟩ := places_bounds h hx hlow hhigh hplaces
  have hpos : 0 < 10 ^ (places - 1) := Nat.pow_pos (by decide)
  have hd : d * 10 ^ j ≠ 0 :=
    Nat.mul_ne_zero (by omega) (Nat.pow_pos (by decide : 0 < 10)).ne'
  have hvalue : ((d * 10 ^ j : Nat) : ℚ) * 10 ^ (k - j) = d * 10 ^ k := by
    rw [Nat.cast_mul, Nat.cast_pow, Nat.cast_ofNat, mul_assoc, ← zpow_natCast,
      ← zpow_add₀ (by norm_num), add_sub_cancel]
  have hten : ∀ i : Int, 0 ≤ i → ((tenTo i.toNat : Nat) : ℚ) = 10 ^ i := by
    intro i hi
    obtain ⟨n, rfl⟩ := Int.eq_ofNat_of_zero_le hi
    rw [Int.toNat_natCast, zpow_natCast]
    exact_mod_cast rfl
  rw [ofDecimal?, if_neg hd, if_neg (by push_cast; omega), if_neg (by push_cast; omega)]
  split
  · next hk =>
    refine ofRatio_of_inCell Nat.one_pos hx ?_
    rwa [Nat.cast_one, div_one, Nat.cast_mul, hten _ hk, hvalue]
  · next hk =>
    refine ofRatio_of_inCell (Nat.pow_pos (by decide)) hx ?_
    rwa [hten _ (by omega), zpow_neg, div_inv_eq_mul, hvalue]

/-! ## Written floats -/

/-- The digits of a decimal that lies in the cell of a value. -/
structure Writes (x : Binary64) (ds : List Nat) (k : Int) : Prop where
  nonzero : x.significand ≠ 0
  digits : ∀ d ∈ ds, d < 10
  ne_nil : ds ≠ []
  head : ds.head? ≠ some 0
  cell : InCell x (ofDigits 10 ds * 10 ^ k)

/-- A literal whose digits are those of the decimal, with zeros in front and behind. -/
theorem Writes.decimal {k : Int} (h : Writes x ds k) {t : List Char} {p : DecimalParts}
    (hparts : decimalParts? t = some p) (hnegative : p.negative = x.negative) (i j : Nat)
    (hdigits : p.whole ++ p.fraction = List.replicate i 0 ++ (ds ++ List.replicate j 0))
    (hexponent : p.exponent - p.fraction.length = k - j) : decimal? t = some x := by
  have hvalue : ofDigits 10 (ds ++ List.replicate j 0) = ofDigits 10 ds * 10 ^ j := by
    rw [ofDigits_append, ofDigits_zeros, List.length_replicate, Nat.add_zero]
  rw [decimal?, hparts]
  simp only [hdigits, dropWhile_zeros i h.head h.ne_nil, hvalue, hexponent, hnegative,
    List.length_append, List.length_replicate]
  exact ofDecimal_of_inCell h.cell h.nonzero (le_ofDigits h.ne_nil h.head) (ofDigits_lt h.digits)
    (List.length_pos_of_ne_nil h.ne_nil) j

/-- A literal with a point among its digits. -/
theorem Writes.point {k : Int} (h : Writes x ds k) (whole fraction : List Nat) (i j : Nat) (hne : whole ≠ [])
    (hdigits : whole ++ fraction = List.replicate i 0 ++ (ds ++ List.replicate j 0)) {tail : List Char}
    (htail : EndsDigits tail) {e : Int} (he : exponentPart? tail = some e)
    (hexponent : e - fraction.length = k - j) :
    decimal? (signText x.negative ++ (written whole ++ '.' :: (written fraction ++ tail))) = some x := by
  have hall : ∀ d ∈ whole ++ fraction, d < 10 := by
    intro d hd
    rw [hdigits] at hd
    simp only [List.mem_append, List.mem_replicate] at hd
    rcases hd with ⟨_, rfl⟩ | hd | ⟨_, rfl⟩
    · decide
    · exact h.digits d hd
    · decide
  exact h.decimal (decimalParts_point (fun d hd => hall d (List.mem_append_left _ hd)) hne
    (fun d hd => hall d (List.mem_append_right _ hd)) htail he) rfl i j hdigits hexponent

/-- Each of the written forms of the decimal reads as the value. -/
theorem Writes.magnitude {k : Int} (h : Writes x ds k) :
    decimal? (signText x.negative ++ magnitudeText (written ds) k) = some x := by
  have hlength : (written ds).length = ds.length := List.length_map _
  have hpos := List.length_pos_of_ne_nil h.ne_nil
  unfold magnitudeText
  simp only [hlength]
  split
  · -- Zeros up to the point and one behind it.
    next hk =>
    have hpoint := h.point (ds ++ List.replicate k.toNat 0) [0] 0 (k.toNat + 1)
      (by simp [h.ne_nil]) (by simp [List.replicate_succ']) (rfl : EndsDigits []) rfl
      (by simp only [List.length_singleton]; omega)
    rw [written_append, written_zeros] at hpoint
    exact hpoint
  · split
    · -- The point among the digits.
      next hk =>
      have htake : 0 < (ds.take (ds.length + k).toNat).length := by
        rw [List.length_take]
        omega
      have hpoint := h.point (ds.take (ds.length + k).toNat) (ds.drop (ds.length + k).toNat) 0 0
        (List.ne_nil_of_length_pos htake) (by simp) (rfl : EndsDigits []) rfl
        (by rw [List.length_drop]; omega)
      rw [List.append_nil, written, List.map_take, written, List.map_drop] at hpoint
      exact hpoint
    · split
      · -- Zeros behind the point.
        next hk =>
        have hpoint := h.point [0] (List.replicate (-((ds.length : Int) + k)).toNat 0 ++ ds)
          ((-((ds.length : Int) + k)).toNat + 1) 0 (by simp) (by simp [List.replicate_succ])
          (rfl : EndsDigits []) rfl (by simp only [List.length_append, List.length_replicate]; omega)
        rw [written_append, written_zeros, List.append_nil] at hpoint
        exact hpoint
      · -- One digit before the point, or no point.
        match ds, h with
        | [d], h =>
          exact h.decimal (decimalParts_bare h.digits h.ne_nil _) rfl 0 0 (by simp)
            (by simp only [List.length_cons, List.length_nil]; omega)
        | d :: d' :: rest, h =>
          exact h.point [d] (d' :: rest) 0 0 (List.cons_ne_nil _ _) (by simp)
            (rfl : EndsDigits ('e' :: (toString (((d :: d' :: rest).length : Int) + k - 1)).toList))
            (exponentPart_eq _) (by simp only [List.length_cons]; omega)

/-- A value other than zero has digits. -/
theorem writes_shortest (hx : x.significand ≠ 0) : ∃ ds, digitChars x.shortest.1 = written ds ∧
    Writes x ds x.shortest.2 := by
  obtain ⟨hpos, hcell⟩ := shortest_inCell hx
  obtain ⟨ds, hds, hall, hval, hne, hhead⟩ := exists_digits (b := 10) (by decide) x.shortest.1
  exact ⟨ds, hds, hx, hall, hne, hhead hpos.ne', by rwa [hval]⟩

theorem eq_zero_of_significand (hx : x.significand = 0) : x = zero x.negative := by
  obtain ⟨negative, significand, exponent, hcanonical⟩ := x
  obtain rfl : significand = 0 := hx
  obtain rfl : exponent = -1074 := hcanonical.2.2.2.resolve_left (by decide)
  rfl

/-- The written form of a float reads as the float. -/
theorem decimal_text (x : Binary64) : decimal? x.text.toList = some x := by
  by_cases hx : x.significand = 0
  · have hzero := eq_zero_of_significand hx
    rw [hzero]
    cases x.negative <;> rfl
  · obtain ⟨ds, hds, hwrites⟩ := writes_shortest hx
    have htext : x.text.toList = signText x.negative ++ magnitudeText (written ds) x.shortest.2 := by
      have hisZero : x.isZero = false := by simpa [isZero] using hx
      rw [text, hisZero, ← hds]
      exact String.toList_ofList
    rw [htext]
    exact hwrites.magnitude

end Binary64

end RunCache
