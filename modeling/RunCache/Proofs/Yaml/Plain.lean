import RunCache.Proofs.Document.Depth
import RunCache.Proofs.Number.Literal
import RunCache.Proofs.Yaml.Keys

/-! # Bare scalars are read back

    A number is no word, and of the ways to read it as a number only the
    right one applies.

    * **`integer_toString`**: an integer is read as itself.
    * **`integer_fractional`**: a number with a point or an exponent is no
      integer.
    * **`plainValue_number`**, **`plainValue_text`**: bare numbers and
      texts stand for themselves. -/

namespace RunCache.Yaml

variable {s w : String} {t : List Char} {c : Char} {ds : List Nat}

/-! ## Words -/

/-- Whether a text begins as a written number does. -/
def beginsNumeral : List Char → Bool
  | '-' :: d :: _ => isDigit d
  | d :: _ => isDigit d
  | [] => false

theorem beginsNumeral_of_numeral (h : IsNumeral t) : beginsNumeral t = true := by
  obtain ⟨d, rest, hd, rfl | rfl⟩ := h.head
  · unfold beginsNumeral
    split
    · next heq =>
      obtain ⟨rfl, _⟩ := List.cons.inj heq
      exact absurd hd (by decide)
    · next heq =>
      obtain ⟨rfl, _⟩ := List.cons.inj heq
      exact hd
    · next heq => cases heq
  · exact hd

/-- A written number is no word. -/
theorem ne_word (h : IsNumeral s.toList) (hw : beginsNumeral w.toList = false) : s ≠ w := by
  rintro rfl
  rw [beginsNumeral_of_numeral h] at hw
  cases hw

theorem no_word (h : IsNumeral s.toList) :
    (s.isEmpty || isNullWord s) = false ∧ truth? s = none ∧ isNonFinite s = false := by
  have hempty : s.isEmpty = false := by
    rw [Bool.eq_false_iff, Ne, String.isEmpty_iff]
    exact ne_word h (by decide)
  refine ⟨?_, ?_, ?_⟩
  · simp [hempty, isNullWord, ne_word h (w := "~") (by decide), ne_word h (w := "null") (by decide),
      ne_word h (w := "Null") (by decide), ne_word h (w := "NULL") (by decide)]
  · rw [truth?, if_neg, if_neg]
    · rintro (h' | h' | h') <;> exact ne_word h (by decide) h'
    · rintro (h' | h' | h') <;> exact ne_word h (by decide) h'
  · rw [isNonFinite, Bool.eq_false_iff, Ne, List.contains_iff_mem]
    intro hmem
    simp only [List.mem_cons, List.not_mem_nil, or_false] at hmem
    rcases hmem with h' | h' | h' | h' | h' | h' | h' | h' | h' | h' | h' | h' <;>
      exact ne_word h (by decide) h'

/-! ## Integers -/

theorem hexDigit_digitChar {d : Nat} (hd : d < 10) : hexDigit? (Nat.digitChar d) = some d := by
  interval_cases d <;> rfl

theorem mapM_written (hds : ∀ d ∈ ds, d < 10) :
    (written ds).mapM (fun c => (hexDigit? c).filter (· < 10)) = some ds := by
  induction ds with
  | nil => rfl
  | cons d ds ih =>
    have hd := hds d (by simp)
    have ih := ih fun e he => hds e (List.mem_cons_of_mem d he)
    simp only [written, List.map_cons] at ih ⊢
    rw [List.mapM_cons, hexDigit_digitChar hd, ih]
    simp [Option.filter, hd]

theorem natOf_written (hds : ∀ d ∈ ds, d < 10) (hne : ds ≠ []) :
    natOf? 10 (written ds) = some (ofDigits 10 ds) := by
  have hempty : (written ds).isEmpty = false := by simpa [written] using hne
  rw [natOf?, hempty, mapM_written hds]
  rfl

/-- Digits of which the first is a zero only if it is the only one. -/
def Unpadded (ds : List Nat) : Prop := ∀ d rest, ds ≠ 0 :: d :: rest

theorem head_written (hds : ∀ d ∈ ds, d < 10) (h : Unpadded ds) (d : Char) (rest : List Char) :
    written ds ≠ '0' :: d :: rest := by
  intro heq
  match ds, hds, h with
  | [], _, _ => cases heq
  | [a], _, _ => exact absurd (List.cons.inj heq).2 (by simp)
  | a :: b :: ds, hds, h =>
    have ha := digitValue_digitChar (hds a (by simp))
    have hzero : Nat.digitChar a = '0' := (List.cons.inj heq).1
    rw [hzero] at ha
    obtain rfl : 0 = a := Option.some.inj ha
    exact h b ds rfl

/-- Digits are padded if they begin with a zero that is not the only digit. A sign changes nothing. -/
theorem isPadded_sign (hc : isDigit c = true) (negative : Bool) (behind : List Char) :
    isPadded (signText negative ++ c :: behind) =
      (decide (c = '0') && !behind.isEmpty && behind.all isDigit) := by
  obtain ⟨d, hd, rfl⟩ := exists_digit hc
  cases negative <;> cases behind <;> interval_cases d <;> rfl

theorem unsigned_digit (hc : isDigit c = true) {behind : List Char}
    (h : ∀ b rest, c :: behind = '0' :: b :: rest → base? b = none) :
    unsigned? (c :: behind) = if isPadded (c :: behind) then none else natOf? 10 (c :: behind) := by
  obtain ⟨d, hd, rfl⟩ := exists_digit hc
  cases behind with
  | nil => interval_cases d <;> rfl
  | cons b rest =>
    have hb : d = 0 → base? b = none := by
      rintro rfl
      exact h b rest rfl
    interval_cases d
    · unfold unsigned?
      simp [hb rfl]
    all_goals rfl

theorem unsigned_minus (cs : List Char) : unsigned? ('-' :: cs) = none := by
  have hnone : natOf? 10 ('-' :: cs) = none := rfl
  unfold unsigned?
  simp [hnone]

theorem negative_digit {behind : List Char}
    (h : ∀ b rest, c :: behind = '0' :: b :: rest → base? b = none) :
    negative? ('-' :: c :: behind) =
      if isPadded ('-' :: c :: behind) then none else natOf? 10 (c :: behind) := by
  unfold negative?
  simp only
  split
  · next heq =>
    rw [h _ _ heq]
  · rfl

/-- The digits of an integer are read with or without a minus sign. -/
theorem magnitude_written (hds : ∀ d ∈ ds, d < 10) (hne : ds ≠ []) (h : Unpadded ds) :
    unsigned? (written ds) = some (ofDigits 10 ds) ∧
      negative? ('-' :: written ds) = some (ofDigits 10 ds) := by
  have hhead := head_written hds h
  have hnat := natOf_written hds hne
  obtain ⟨d, ds, rfl⟩ := List.exists_cons_of_ne_nil hne
  have hwritten : written (d :: ds) = Nat.digitChar d :: written ds := rfl
  have hdigit := isDigit_digitChar (hds d (by simp))
  rw [hwritten] at hhead hnat ⊢
  have hbase : ∀ b rest, Nat.digitChar d :: written ds = '0' :: b :: rest → base? b = none :=
    fun b rest heq => absurd heq (hhead b rest)
  have hpadded : ∀ negative, isPadded (signText negative ++ Nat.digitChar d :: written ds) = false := by
    intro negative
    rw [isPadded_sign hdigit]
    by_cases hzero : Nat.digitChar d = '0'
    · -- A zero stands alone.
      cases hrest : written ds with
      | nil => simp
      | cons b rest => exact absurd (by rw [hzero, hrest]) (hhead b rest)
    · simp [hzero]
  have hbare : isPadded (Nat.digitChar d :: written ds) = false := hpadded false
  have hminus : isPadded ('-' :: Nat.digitChar d :: written ds) = false := hpadded true
  refine ⟨?_, ?_⟩
  · rw [unsigned_digit hdigit hbase, hbare, hnat]
    rfl
  · rw [negative_digit hbase, hminus, hnat]
    rfl

theorem integer_toString {n : Int} (hn : (Number.int n).InRange) :
    integer? (toString n).toList = some (.fits n) := by
  obtain ⟨hlow, hhigh⟩ := hn
  obtain ⟨ds, hds, hall, hval, hne, hhead⟩ := exists_digits (b := 10) (by decide) n.natAbs
  have hunpadded : Unpadded ds := by
    rintro d rest rfl
    by_cases hzero : n.natAbs = 0
    · -- Zero is written with one digit.
      rw [hzero] at hds
      exact absurd (congrArg List.length hds) (by simp [Nat.toDigits, Nat.toDigitsCore])
    · exact hhead hzero rfl
  obtain ⟨hunsigned, hnegative⟩ := magnitude_written hall hne hunpadded
  rw [toList_toString, digitChars, hds, ← written]
  by_cases hneg : n < 0
  · rw [if_pos hneg, List.singleton_append, integer?, unsigned_minus, hnegative, hval]
    have hfits : n.natAbs ≤ twoTo 63 := by omega
    have hvalue : -(n.natAbs : Int) = n := by omega
    simp only [hfits, if_true, hvalue]
  · rw [if_neg hneg, List.nil_append, integer?, hunsigned, hval]
    have hfits : n.natAbs < twoTo 64 := by omega
    have hvalue : (n.natAbs : Int) = n := by omega
    simp only [hfits, if_true, hvalue]

/-! ## Floats -/

/-- A written number that is no integer has a point or an exponent. -/
def IsFractional (t : List Char) : Prop := '.' ∈ t ∨ 'e' ∈ t

theorem natOf_none (hc : c ∈ t) (hnone : (hexDigit? c).filter (· < 10) = none) :
    natOf? 10 t = none := by
  have hmap : t.mapM (fun c => (hexDigit? c).filter (· < 10)) = none := by
    induction t with
    | nil => cases hc
    | cons d t ih =>
      rcases List.mem_cons.mp hc with rfl | hc
      · simp [List.mapM_cons, hnone]
      · cases hd : (hexDigit? d).filter (· < 10) <;> simp [List.mapM_cons, hd, ih hc]
  rw [natOf?, hmap]
  split <;> rfl

theorem natOf_fractional (h : IsFractional t) : natOf? 10 t = none := by
  rcases h with h | h
  · exact natOf_none h rfl
  · exact natOf_none h rfl

theorem base_numeralChar (h : isNumeralChar c = true) : base? c = none := by
  simp only [isNumeralChar, Bool.or_eq_true, decide_eq_true_eq] at h
  rcases h with ((h | rfl) | rfl) | rfl
  · obtain ⟨d, hd, rfl⟩ := exists_digit h
    interval_cases d <;> rfl
  · rfl
  · rfl
  · rfl

/-- What is fractional behind its first digit does not consist of digits. -/
theorem IsFractional.behind {behind : List Char} (h : IsFractional (c :: behind))
    (hc : isDigit c = true) : IsFractional behind ∧ behind.all isDigit = false := by
  have hmem : ∀ {x}, x ∈ c :: behind → isDigit x = false → x ∈ behind := by
    intro x hx hdigit
    rcases List.mem_cons.mp hx with rfl | hx
    · rw [hdigit] at hc
      cases hc
    · exact hx
  have hall : ∀ {x}, x ∈ behind → isDigit x = false → behind.all isDigit = false :=
    fun hx hdigit => List.all_eq_false.mpr ⟨_, hx, by simp [hdigit]⟩
  rcases h with h | h
  · exact ⟨.inl (hmem h rfl), hall (hmem h rfl) rfl⟩
  · exact ⟨.inr (hmem h rfl), hall (hmem h rfl) rfl⟩

/-- A written number with a point or an exponent is no integer. -/
theorem integer_fractional (h : IsNumeral t) (hfractional : IsFractional t) :
    integer? t = none ∧ isPadded t = false := by
  obtain ⟨d, behind, hd, ht⟩ := h.head
  have hchars : ∀ b rest, d :: behind = '0' :: b :: rest → base? b = none := by
    intro b rest heq
    refine base_numeralChar (h.chars b ?_)
    rcases ht with rfl | rfl <;> simp [heq]
  have hbody : IsFractional (d :: behind) := by
    rcases ht with rfl | rfl
    · exact hfractional
    · rcases hfractional with hmem | hmem
      · exact .inl (by simpa using hmem)
      · exact .inr (by simpa using hmem)
  have hpadded : ∀ negative, isPadded (signText negative ++ d :: behind) = false := by
    intro negative
    rw [isPadded_sign hd, (hbody.behind hd).2, Bool.and_false]
  have hnone := natOf_fractional hbody
  -- Without a sign, and with one.
  rcases ht with rfl | rfl
  · have hunsigned : unsigned? (d :: behind) = none := by
      rw [unsigned_digit hd hchars, hnone, ite_self]
    have hnegative : negative? (d :: behind) = none := by
      unfold negative?
      split
      · next heq => exact absurd (List.cons.inj heq).1 (not_minus_of_digit hd)
      · rfl
    exact ⟨by rw [integer?, hunsigned, hnegative], hpadded false⟩
  · have hnegative : negative? ('-' :: d :: behind) = none := by
      rw [negative_digit hchars, hnone, ite_self]
    exact ⟨by rw [integer?, unsigned_minus, hnegative], hpadded true⟩

theorem fractional_magnitude (ds : List Char) (k : Int) :
    IsFractional (Binary64.magnitudeText ds k) := by
  unfold Binary64.magnitudeText
  simp only
  split
  · exact .inl (by simp)
  · split
    · exact .inl (by simp)
    · split
      · exact .inl (by simp)
      · exact .inr (by simp)

theorem fractional_float (x : Binary64) : IsFractional x.text.toList := by
  unfold Binary64.text
  simp only
  split
  · rw [String.toList_ofList]
    exact .inl (by simp)
  · rw [String.toList_ofList]
    rcases fractional_magnitude (digitChars x.shortest.1) x.shortest.2 with h | h
    · exact .inl (List.mem_append_right _ h)
    · exact .inr (List.mem_append_right _ h)

theorem finite_numeral (h : IsNumeral t) : finite? t = decimal? t := by
  obtain ⟨d, behind, hd, ht⟩ := h.head
  have hplus : ∀ rest, t ≠ '+' :: rest := by
    rintro rest rfl
    rcases ht with ht | ht
    · rw [← (List.cons.inj ht).1] at hd
      exact absurd hd (by decide)
    · exact absurd (List.cons.inj ht).1 (by decide)
  unfold finite?
  split
  · exact absurd rfl (hplus _)
  · exact absurd rfl (hplus _)
  · rfl

/-! ## Scalars -/

theorem plain_int {n : Int} (hn : (Number.int n).InRange) :
    Plain.ofText (toString n) = .integer (.fits n) := by
  obtain ⟨hnull, htruth, _⟩ := no_word (numeral_int n)
  rw [Plain.ofText, hnull, htruth, integer_toString hn]
  rfl

theorem plain_float (x : Binary64) : Plain.ofText x.text = .float x := by
  have hnumeral := Binary64.numeral_float x
  obtain ⟨hnull, htruth, hnonFinite⟩ := no_word hnumeral
  obtain ⟨hinteger, hpadded⟩ := integer_fractional hnumeral (fractional_float x)
  rw [Plain.ofText, hnull, htruth, hinteger, hpadded, hnonFinite, finite_numeral hnumeral,
    Binary64.decimal_text]
  rfl

/-- A written number stands for the number. -/
theorem plainValue_number {n : Number} (hn : n.InRange) :
    plainValue (String.ofList (numberText n)) = .ok (.number n) := by
  cases n with
  | int n =>
    rw [numberText, String.ofList_toList, plainValue, plain_int hn]
    rfl
  | float x => rw [numberText, String.ofList_toList, plainValue, plain_float x]

/-- A text that is written bare stands for itself. -/
theorem plainValue_text (h : isBare s = true) : plainValue s = .ok (.text s) := by
  obtain ⟨_, _, hreads⟩ := ofText_plain (of_decide_eq_true h)
  rw [readsAsText, Bool.and_eq_true, decide_eq_true_eq] at hreads
  rw [plainValue, hreads.1]

end RunCache.Yaml
