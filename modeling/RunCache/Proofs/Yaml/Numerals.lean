import RunCache.Proofs.Number.Digits
import RunCache.Proofs.Yaml.Choice
import RunCache.Yaml.Layout
import Mathlib.Tactic.IntervalCases

/-! # Written numbers may stand bare

    A number is written with digits, a point, a sign and the letter of an
    exponent, none of which marks anything.

    * **`IsNumeral`**: the shape of a written number.
    * **`numeral_int`**, **`numeral_float`**: numbers are written so. -/

namespace RunCache

variable {t : List Char} {c d : Char} {n : Nat}

/-! ## Digits -/

theorem isDigit_digitChar (hn : n < 10) : isDigit (Nat.digitChar n) = true := by
  rw [isDigit, digitValue_digitChar hn]
  rfl

theorem digit_of_mem_digitChars (hc : c ∈ digitChars n) : isDigit c = true := by
  obtain ⟨ds, hds, hall, _⟩ := exists_digits (b := 10) (by decide) n
  rw [digitChars, hds] at hc
  obtain ⟨d, hd, rfl⟩ := List.mem_map.mp hc
  exact isDigit_digitChar (hall d hd)

theorem digitChars_ne_nil (n : Nat) : digitChars n ≠ [] := by
  obtain ⟨ds, hds, _, _, hne, _⟩ := exists_digits (b := 10) (by decide) n
  rw [digitChars, hds]
  simpa using hne

/-- An integer is written with its sign and the digits of its magnitude. -/
theorem toList_toString (n : Int) :
    (toString n).toList = (if n < 0 then ['-'] else []) ++ digitChars n.natAbs := by
  cases n with
  | ofNat n =>
    have hnot : ¬ Int.ofNat n < 0 := Int.not_lt.mpr (Int.natCast_nonneg n)
    rw [if_neg hnot]
    exact String.toList_ofList
  | negSucc n =>
    rw [if_pos (Int.negSucc_lt_zero n)]
    have hrepr : (toString (Int.negSucc n)).toList = ("-" ++ Nat.repr (n + 1)).toList := rfl
    rw [hrepr, String.toList_append]
    exact congrArg _ String.toList_ofList

/-! ## Shape -/

/-- A character that numbers are written with. -/
def isNumeralChar (c : Char) : Bool := isDigit c || c = '-' || c = '.' || c = 'e'

/-- A text begins with a digit, or with a minus sign and a digit, and holds no other characters than
    those that numbers are written with. -/
structure IsNumeral (t : List Char) : Prop where
  chars : ∀ c ∈ t, isNumeralChar c = true
  head : ∃ d rest, isDigit d = true ∧ (t = d :: rest ∨ t = '-' :: d :: rest)

theorem IsNumeral.minus (h : IsNumeral t) (hhead : t.head? ≠ some '-') : IsNumeral ('-' :: t) := by
  obtain ⟨d, rest, hd, rfl | rfl⟩ := h.head
  · refine ⟨?_, d, rest, hd, .inr rfl⟩
    intro c hc
    rcases List.mem_cons.mp hc with rfl | hc
    · decide
    · exact h.chars c hc
  · exact absurd rfl hhead

theorem IsNumeral.ne_nil (h : IsNumeral t) : t ≠ [] := by
  obtain ⟨d, rest, _, rfl | rfl⟩ := h.head <;> exact List.cons_ne_nil _ _

theorem numeralChar_of_digit (h : isDigit c = true) : isNumeralChar c = true := by
  simp [isNumeralChar, h]

theorem not_minus_of_digit (h : isDigit c = true) : c ≠ '-' := by
  rintro rfl
  exact absurd h (by decide)

theorem numeral_digits (n : Nat) : IsNumeral (digitChars n) ∧ (digitChars n).head? ≠ some '-' := by
  obtain ⟨d, rest, hds⟩ := List.exists_cons_of_ne_nil (digitChars_ne_nil n)
  have hd : isDigit d = true := digit_of_mem_digitChars (by rw [hds]; simp)
  refine ⟨⟨fun c hc => numeralChar_of_digit (digit_of_mem_digitChars hc), d, rest, hd, .inl hds⟩, ?_⟩
  rw [hds]
  exact fun h => not_minus_of_digit hd (Option.some.inj h)

theorem numeral_int (n : Int) : IsNumeral (toString n).toList := by
  obtain ⟨hnumeral, hhead⟩ := numeral_digits n.natAbs
  rw [toList_toString]
  split
  · exact hnumeral.minus hhead
  · exact hnumeral

namespace Binary64

theorem magnitudeText_chars (ds : List Char) (hds : ∀ c ∈ ds, isNumeralChar c = true) (k : Int) :
    ∀ c ∈ magnitudeText ds k, isNumeralChar c = true := by
  have hzeros : ∀ n, ∀ c ∈ zeros n, isNumeralChar c = true := by
    intro n c hc
    rw [List.eq_of_mem_replicate hc]
    decide
  have hexponent : ∀ c ∈ (toString (ds.length + k - 1)).toList, isNumeralChar c = true :=
    (numeral_int _).chars
  unfold magnitudeText
  intro c hc
  simp only at hc
  split at hc
  · -- Zeros up to the point and one behind it.
    simp only [List.mem_append, List.mem_cons, List.not_mem_nil, or_false] at hc
    rcases hc with (hc | hc) | rfl | rfl
    · exact hds c hc
    · exact hzeros _ c hc
    · decide
    · decide
  · split at hc
    · -- The point among the digits.
      simp only [List.mem_append, List.mem_cons] at hc
      rcases hc with hc | rfl | hc
      · exact hds c (List.mem_of_mem_take hc)
      · decide
      · exact hds c (List.mem_of_mem_drop hc)
    · split at hc
      · -- Zeros behind the point.
        simp only [List.cons_append, List.mem_append, List.mem_cons] at hc
        rcases hc with rfl | rfl | hc | hc
        · decide
        · decide
        · exact hzeros _ c hc
        · exact hds c hc
      · -- One digit before the point, or no point, and an exponent.
        simp only [List.mem_append, List.mem_cons] at hc
        rcases hc with hc | rfl | hc
        · split at hc
          · simp only [List.mem_cons] at hc
            rcases hc with rfl | rfl | rfl | hc
            · exact hds _ (by simp)
            · decide
            · exact hds _ (by simp)
            · exact hds c (by simp [hc])
          · exact hds c hc
        · decide
        · exact hexponent c hc

theorem magnitudeText_head {d : Char} (hd : isDigit d = true) (ds : List Char) (k : Int) :
    ∃ d' rest, isDigit d' = true ∧ magnitudeText (d :: ds) k = d' :: rest := by
  unfold magnitudeText
  simp only
  split
  · exact ⟨d, _, hd, rfl⟩
  · split
    · next h =>
      obtain ⟨i, hi⟩ : ∃ i, ((d :: ds).length + k).toNat = i + 1 :=
        ⟨((d :: ds).length + k).toNat - 1, by omega⟩
      rw [hi]
      exact ⟨d, _, hd, rfl⟩
    · split
      · exact ⟨'0', _, by decide, rfl⟩
      · cases ds with
        | nil => exact ⟨d, _, hd, rfl⟩
        | cons d' ds => exact ⟨d, _, hd, rfl⟩

theorem numeral_magnitude (n : Nat) (k : Int) :
    IsNumeral (magnitudeText (digitChars n) k) ∧
      (magnitudeText (digitChars n) k).head? ≠ some '-' := by
  have hchars := magnitudeText_chars (digitChars n)
    (fun c hc => numeralChar_of_digit (digit_of_mem_digitChars hc)) k
  obtain ⟨d, ds, hds⟩ := List.exists_cons_of_ne_nil (digitChars_ne_nil n)
  have hd : isDigit d = true := digit_of_mem_digitChars (by rw [hds]; simp)
  rw [hds] at hchars ⊢
  obtain ⟨d', rest, hd', htext⟩ := magnitudeText_head hd ds k
  refine ⟨⟨hchars, d', rest, hd', .inl htext⟩, ?_⟩
  rw [htext]
  exact fun h => not_minus_of_digit hd' (Option.some.inj h)

theorem numeral_float (x : Binary64) : IsNumeral x.text.toList := by
  unfold text
  simp only
  split
  · rw [String.toList_ofList]
    split
    · exact ⟨List.all_eq_true.mp (by decide), '0', ['.', '0'], by decide, .inr rfl⟩
    · exact ⟨List.all_eq_true.mp (by decide), '0', ['.', '0'], by decide, .inl rfl⟩
  · obtain ⟨hnumeral, hhead⟩ := numeral_magnitude x.shortest.1 x.shortest.2
    rw [String.toList_ofList]
    split
    · exact hnumeral.minus hhead
    · exact hnumeral

end Binary64

namespace Yaml

/-! ## Bare numbers -/

theorem numeral_number (n : Number) : IsNumeral (numberText n) := by
  cases n with
  | int n => exact numeral_int n
  | float x => exact Binary64.numeral_float x

theorem toNat_of_digit (h : isDigit c = true) : 48 ≤ c.toNat ∧ c.toNat ≤ 57 := by
  unfold isDigit digitValue? at h
  split at h
  · next hrange => exact ⟨hrange.1, hrange.2⟩
  · cases h

/-- A digit is one of ten characters. -/
theorem exists_digit (h : isDigit c = true) : ∃ d < 10, c = Char.ofNat (48 + d) := by
  obtain ⟨hlow, hhigh⟩ := toNat_of_digit h
  refine ⟨c.toNat - 48, by omega, ?_⟩
  rw [Nat.add_sub_cancel' hlow, Char.ofNat_toNat]

/-- No character of a number is blank or a mark. -/
theorem isShown_numeralChar (h : isNumeralChar c = true) : isShown c = true ∧ isBreak c = false ∧
    c ≠ ' ' ∧ c ≠ ':' ∧ c ≠ '#' := by
  simp only [isNumeralChar, Bool.or_eq_true, decide_eq_true_eq] at h
  rcases h with ((h | rfl) | rfl) | rfl
  · obtain ⟨d, hd, rfl⟩ := exists_digit h
    interval_cases d <;> decide
  · decide
  · decide
  · decide

theorem isIndicator_digit (h : isDigit c = true) : isIndicator c = false ∧ c ≠ '.' ∧ c ≠ '?' ∧
    isGap c = false := by
  obtain ⟨d, hd, rfl⟩ := exists_digit h
  interval_cases d <;> decide

theorem hasPair_eq_false {p : Char → Char → Bool} (h : t.IsChain fun c d => p c d = false) :
    hasPair p t = false := by
  induction h with
  | nil => rfl
  | singleton => rfl
  | cons_cons hcd _ ih => rw [hasPair, hcd, ih]; rfl

theorem hasPair_numeral (h : IsNumeral t) {q : Char → Char → Bool}
    (hq : ∀ c d, isNumeralChar c = true → isNumeralChar d = true → q c d = false) :
    hasPair q t = false := by
  refine hasPair_eq_false (List.isChain_iff_getElem.mpr fun i hi => ?_)
  exact hq _ _ (h.chars _ (List.getElem_mem _)) (h.chars _ (List.getElem_mem _))

theorem isPaddedText_numeral (h : IsNumeral t) : isPaddedText t = false := by
  have hedge : ∀ o : Option Char, (∀ c, o = some c → c ∈ t) →
      o.any (fun c => c = ' ' || isBreak c) = false := by
    rintro (_ | c) hmem
    · rfl
    · obtain ⟨_, hbreak, hspace, _⟩ := isShown_numeralChar (h.chars c (hmem c rfl))
      simp [hbreak, hspace]
  exact Bool.or_eq_false_iff.mpr
    ⟨hedge _ fun c => List.mem_of_head?, hedge _ fun c => List.mem_of_getLast?⟩

/-- A numeral begins with a digit, or with a minus and a digit, and so with no mark. -/
theorem unmarked_numeral (h : IsNumeral t) : startsLikeMarker t = false ∧ startsMarked t = false := by
  obtain ⟨d, rest, hd, rfl | rfl⟩ := h.head
  · obtain ⟨hindicator, hdot, hquestion, _⟩ := isIndicator_digit hd
    have hminus := not_minus_of_digit hd
    refine ⟨?_, by simp [startsMarked, hindicator, hquestion, hminus]⟩
    unfold startsLikeMarker
    split
    · next heq => exact absurd (List.cons.inj heq).1 hminus
    · next heq => exact absurd (List.cons.inj heq).1 hdot
    · rfl
  · obtain ⟨_, _, _, hgap⟩ := isIndicator_digit hd
    have hminus := not_minus_of_digit hd
    refine ⟨?_, by simp [startsMarked, isIndicator, atGap_cons, hgap]⟩
    unfold startsLikeMarker
    split
    · next heq =>
      obtain ⟨rfl, _⟩ := List.cons.inj (List.cons.inj heq).2
      exact absurd rfl hminus
    · next heq => cases heq
    · rfl

/-- Numbers may stand bare. -/
theorem allowsPlain_numeral (h : IsNumeral t) : allowsPlain t = true := by
  have hshown : t.all isShown = true :=
    List.all_eq_true.mpr fun c hc => (isShown_numeralChar (h.chars c hc)).1
  have hbreak : t.any isBreak = false := by
    rw [List.any_eq_false]
    intro c hc
    simp [(isShown_numeralChar (h.chars c hc)).2.1]
  -- No relation that asks for a gap, a colon or a hash sign holds between two of the characters.
  have hspace : hasPair (fun c d => c = ' ' && isBreak d) t = false :=
    hasPair_numeral h fun c d hc _ => by simp [(isShown_numeralChar hc).2.2.1]
  have hcolon : hasPair (fun c d => c = ':' && isGap d) t = false :=
    hasPair_numeral h fun c d hc _ => by simp [(isShown_numeralChar hc).2.2.2.1]
  have hhash : hasPair (fun c d => isGap c && d = '#') t = false :=
    hasPair_numeral h fun c d _ hd => by simp [(isShown_numeralChar hd).2.2.2.2]
  have hlast : t.getLast? ≠ some ':' := by
    intro hlast
    exact (isShown_numeralChar (h.chars _ (List.mem_of_getLast? hlast))).2.2.2.1 rfl
  simp [allowsPlain, needsEscapes, holdsMark, hshown, hbreak, hspace, hcolon, hhash,
    isPaddedText_numeral h, hlast, unmarked_numeral h]

end Yaml

end RunCache
