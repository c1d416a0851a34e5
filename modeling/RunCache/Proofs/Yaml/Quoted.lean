import RunCache.Proofs.Number.Digits
import RunCache.Proofs.Yaml.Place
import Mathlib.Data.List.Chain
import Mathlib.Data.List.TakeWhile

/-! # Quoted text is read back

    Text between quotes alternates between characters, each of which is
    spelled in some way, and gaps.

    * **`numericEscape_hexDigits`**, **`escaped_eq`**: escapes.
    * **`Spelled`**: what stands between quotes for a text.
    * **`readQuoted_spelled`**: it is read as that text.
    * **`spelled_double`**, **`spelled_single`**: both quoted styles spell
      their text. -/

namespace RunCache.Yaml

variable {single : Bool} {w t : List Char} {m : Mark} {c : Char}

/-! ## Escapes -/

/-- The upper-case hexadecimal digit of a number. -/
def upperDigit (d : Nat) : Char := (Nat.digitChar d).toUpper

theorem hexDigit_upperDigit {d : Nat} (hd : d < 16) : hexDigit? (upperDigit d) = some d := by
  interval_cases d <;> decide

theorem hexNumber_upperDigits {ds : List Nat} (hds : ∀ d ∈ ds, d < 16) (v : Nat)
    (rest : List Char) :
    hexNumber? ds.length v (ds.map upperDigit ++ rest) =
      some (ds.foldl (fun n d => n * 16 + d) v) := by
  induction ds generalizing v with
  | nil => rfl
  | cons d ds ih =>
    have hd := hexDigit_upperDigit (hds d (by simp))
    simp only [List.length_cons, List.map_cons, List.cons_append, hexNumber?, hd, List.foldl_cons]
    exact ih (fun e he => hds e (List.mem_cons_of_mem d he)) _

theorem exists_hexDigits {k n : Nat} (hk : 0 < k) (hn : n < 16 ^ k) :
    ∃ ds : List Nat, hexDigits k n = ds.map upperDigit ∧ ds.length = k ∧ (∀ d ∈ ds, d < 16) ∧
      ofDigits 16 ds = n := by
  obtain ⟨ds, hds, hall, hval, _, _⟩ := exists_digits (b := 16) (by decide) n
  have hlen : ds.length ≤ k := by
    have h := (Nat.length_toDigits_le_iff (b := 16) (by decide) hk).mpr hn
    rwa [hds, List.length_map] at h
  refine ⟨List.replicate (k - ds.length) 0 ++ ds, ?_, ?_, ?_, ?_⟩
  · rw [hexDigits, hds, List.map_append, List.map_replicate, List.map_map]
    simp only [List.length_map]
    rfl
  · rw [List.length_append, List.length_replicate]
    omega
  · intro d hd
    rcases List.mem_append.mp hd with hd | hd
    · rw [List.eq_of_mem_replicate hd]
      decide
    · exact hall d hd
  · rw [ofDigits_append, ofDigits_zeros, Nat.zero_mul, Nat.zero_add, hval]

theorem length_hexDigits {k n : Nat} (hk : 0 < k) (hn : n < 16 ^ k) : (hexDigits k n).length = k := by
  obtain ⟨ds, hds, hlen, _⟩ := exists_hexDigits hk hn
  rw [hds, List.length_map, hlen]

/-- A character by its number. -/
theorem numericEscape_hexDigits {k : Nat} (hk : 0 < k) (hc : c.toNat < 16 ^ k) (rest : List Char) :
    numericEscape k (hexDigits k c.toNat ++ rest) = .ok (c, k + 1) := by
  obtain ⟨ds, hds, hlen, hall, hval⟩ := exists_hexDigits hk hc
  have hnumber : hexNumber? k 0 (hexDigits k c.toNat ++ rest) = some c.toNat := by
    rw [hds, ← hlen, hexNumber_upperDigits hall, ← hval]
    rfl
  have hvalid : ¬ ((0xD800 ≤ c.toNat ∧ c.toNat ≤ 0xDFFF) ∨ 0x10FFFF < c.toNat) := by
    have h : c.toNat < 0xD800 ∨ 0xDFFF < c.toNat ∧ c.toNat < 0x110000 := c.valid
    omega
  simp only [numericEscape, hnumber]
  rw [if_neg hvalid, Char.ofNat_toNat]

/-- What stands behind a backslash for a character. -/
def IsEscapeOf (c : Char) (e : List Char) : Prop :=
  e ≠ [] ∧ (∀ d ∈ e, isShown d = true ∧ isBreak d = false) ∧
    ∀ rest, readEscape (e ++ rest) = .ok (c, e.length)

theorem IsEscapeOf.ite {p : Prop} [Decidable p] {e e' : List Char} (h : p → IsEscapeOf c e)
    (h' : ¬ p → IsEscapeOf c e') : IsEscapeOf c (if p then e else e') := by
  split
  · next hp => exact h hp
  · next hp => exact h' hp

theorem shown_hexDigits {k n : Nat} (hk : 0 < k) (hn : n < 16 ^ k) :
    ∀ d ∈ hexDigits k n, isShown d = true ∧ isBreak d = false := by
  obtain ⟨ds, hds, _, hall, _⟩ := exists_hexDigits hk hn
  intro d hd
  rw [hds] at hd
  obtain ⟨i, hi, rfl⟩ := List.mem_map.mp hd
  have hi := hall i hi
  interval_cases i <;> decide

theorem IsEscapeOf.letter {letter : Char} (hletter : isShown letter = true ∧ isBreak letter = false)
    (hread : ∀ cs, readEscape (letter :: cs) = .ok (c, 1)) : IsEscapeOf c [letter] :=
  ⟨List.cons_ne_nil _ _, List.forall_mem_singleton.mpr hletter, hread⟩

theorem IsEscapeOf.numeric {k : Nat} {letter : Char} (hk : 0 < k) (hc : c.toNat < 16 ^ k)
    (hletter : isShown letter = true ∧ isBreak letter = false)
    (hread : ∀ cs, readEscape (letter :: cs) = numericEscape k cs) :
    IsEscapeOf c (letter :: hexDigits k c.toNat) := by
  refine ⟨List.cons_ne_nil _ _, ?_, fun rest => ?_⟩
  · intro d hd
    rcases List.mem_cons.mp hd with rfl | hd
    · exact hletter
    · exact shown_hexDigits hk hc d hd
  · rw [List.cons_append, hread, numericEscape_hexDigits hk hc, List.length_cons,
      length_hexDigits hk hc]

/-- Every escape is read as its character. -/
theorem escaped_eq (c : Char) : ∃ e, escaped c = '\\' :: e ∧ IsEscapeOf c e := by
  refine ⟨_, rfl, ?_⟩
  -- One letter for each of the characters that have one.
  iterate 9
    refine .ite (fun h => ?_) fun _ => ?_
    · subst h
      exact .letter (by decide) fun _ => rfl
  refine .ite (fun h => ?_) fun _ => ?_
  · rcases h with rfl | rfl <;> exact .letter (by decide) fun _ => rfl
  iterate 3
    refine .ite (fun h => ?_) fun _ => ?_
    · subst h
      exact .letter (by decide) fun _ => rfl
  -- A number for the others.
  have hvalid : c.toNat < 0xD800 ∨ 0xDFFF < c.toNat ∧ c.toNat < 0x110000 := c.valid
  refine .ite (fun h => ?_) fun _ => .ite (fun h => ?_) fun _ => ?_
  · exact .numeric (by decide) (by omega) (by decide) fun _ => rfl
  · exact .numeric (by decide) (by omega) (by decide) fun _ => rfl
  · exact .numeric (by decide) (by omega) (by decide) fun _ => rfl

/-! ## Pieces -/

/-- Steps beyond the length of the text make no difference. -/
theorem readPiece_steps {i j : Nat} {k : Cursor} (hi : k.rest.length < i) (hj : k.rest.length < j) :
    readPiece single i k = readPiece single j k := by
  induction i generalizing j k with
  | zero => omega
  | succ i ih =>
    cases j with
    | zero => omega
    | succ j =>
      rw [readPiece.eq_def single (i + 1) k, readPiece.eq_def single (j + 1) k]
      simp only
      cases hrest : k.rest with
      | nil => rfl
      | cons x xs =>
        have hskip : ∀ n, readPiece single i (k.skip (n + 1)) = readPiece single j (k.skip (n + 1)) := by
          intro n
          have hlen : (k.skip (n + 1)).rest.length ≤ xs.length := by
            simp [Cursor.skip, hrest]
          rw [hrest, List.length_cons] at hi hj
          exact ih (by omega) (by omega)
        simp only [hskip 0, hskip 1, hskip]

/-- How a character is spelled between quotes. -/
structure Spells (single : Bool) (p : List Char) (c : Char) : Prop where
  line : ∀ d ∈ p, isBreak d = false
  head : ∃ x, p.head? = some x ∧ isGap x = false
  read : ∀ steps m rest, readPiece single (steps + 1) ⟨m, p ++ rest⟩ =
    (readPiece single steps ⟨m.right p.length, rest⟩).map fun (xs, stop, k) => (c :: xs, stop, k)

/-- What stands between quotes for a text: its characters as they are spelled, and gaps. -/
inductive Spelled (single : Bool) : (written text : List Char) → Prop
  | nil : Spelled single [] []
  | char {p w t : List Char} {c : Char} :
    Spells single p c → Spelled single w t → Spelled single (p ++ w) (c :: t)
  | gap {g w t : List Char} : (∀ c ∈ g, IsGapChar c) → (g.foldl Gap.add {}).text ≠ [] →
    (∀ m : Mark, m.column ≠ 0 → (m.after g).column ≠ 0) → w.head?.any isGap = false →
    Spelled single w t → Spelled single (g ++ w) ((g.foldl Gap.add {}).text ++ t)

/-- The quote around a text. -/
def quoteOf (single : Bool) : Char := if single then '\'' else '"'

theorem readPiece_quote {rest : List Char} (hrest : rest.head? ≠ some '\'') (steps : Nat) :
    readPiece single (steps + 1) ⟨m, quoteOf single :: rest⟩ =
      .ok ([], .quote, ⟨m, quoteOf single :: rest⟩) := by
  cases single with
  | false => rfl
  | true =>
    cases rest with
    | nil => rfl
    | cons x rest =>
      have hx : x ≠ '\'' := fun h => hrest (by simp [h])
      rw [readPiece.eq_def]
      simp [quoteOf, isBlank, isBreak, hx]

theorem isGap_quoteOf (single : Bool) : isGap (quoteOf single) = false := by
  cases single <;> decide

theorem IsGapChar.isGap (h : IsGapChar c) : isGap c = true := by
  rcases h with rfl | ⟨_, hbreak⟩
  · decide
  · simp [Yaml.isGap, hbreak]

theorem readPiece_gap {rest : List Char} (hc : isGap c = true) (steps : Nat) :
    readPiece single (steps + 1) ⟨m, c :: rest⟩ = .ok ([], .gap false, ⟨m, c :: rest⟩) := by
  have hc : (isBlank c || isBreak c) = true := hc
  rw [readPiece.eq_def]
  simp only
  rw [if_pos hc]

/-- A spelled character comes before what is read behind it. -/
theorem readQuoted_char {p rest : List Char} (h : Spells single p c) (hm : m.column ≠ 0)
    (steps : Nat) : readQuoted single (steps + 1) ⟨m, p ++ rest⟩ =
      (readQuoted single (steps + 1) ⟨m.after p, rest⟩).map fun (xs, k) => (c :: xs, k) := by
  have hcolumn : (m.right p.length).column ≠ 0 := by
    simp only [Mark.right]
    omega
  have hpos : 0 < p.length := by
    obtain ⟨x, hx, _⟩ := h.head
    cases p with
    | nil => cases hx
    | cons => simp
  have hpiece : readPiece single ((p ++ rest).length + 1) ⟨m, p ++ rest⟩ =
      (readPiece single (rest.length + 1) ⟨m.right p.length, rest⟩).map
        fun (xs, stop, k) => (c :: xs, stop, k) := by
    rw [h.read, readPiece_steps (k := ⟨m.right p.length, rest⟩) (by simp [hpos]) (Nat.lt_succ_self _)]
  rw [Mark.after_of_line h.line, readQuoted.eq_def, readQuoted.eq_def single (steps + 1) ⟨_, rest⟩]
  simp only [Cursor.atDocumentMarker_of_column hm, Cursor.atDocumentMarker_of_column hcolumn,
    Bool.false_eq_true, if_false, hpiece]
  -- Both readers go on alike behind the character, in all that may come there.
  cases readPiece single (rest.length + 1) ⟨m.right p.length, rest⟩ with
  | error e => rfl
  | ok r =>
    obtain ⟨xs, stop, k⟩ := r
    cases stop with
    | quote => rfl
    | gap escaped =>
      simp only [Except.map]
      cases readGap none { broken := escaped } k.mark k.rest with
      | error e => rfl
      | ok g =>
        simp only
        split
        · rfl
        · cases readQuoted single steps g.2 <;> rfl

/-- What is spelled between quotes is read up to the closing one. -/
theorem readQuoted_spelled {rest : List Char} (h : Spelled single w t)
    (hrest : rest.head? ≠ some '\'') (hm : m.column ≠ 0) {steps : Nat} (hsteps : w.length < steps) :
    readQuoted single steps ⟨m, w ++ quoteOf single :: rest⟩ =
      .ok (t, ⟨(m.after w).right 1, rest⟩) := by
  obtain ⟨steps, rfl⟩ : ∃ i, steps = i + 1 := ⟨steps - 1, by omega⟩
  induction h generalizing m steps with
  | nil =>
    rw [readQuoted.eq_def]
    simp only [List.nil_append, Cursor.atDocumentMarker_of_column hm, readPiece_quote hrest]
    rfl
  | @char p w t c hp _ ih =>
    have hcolumn : (m.after p).column ≠ 0 := by
      rw [Mark.after_of_line hp.line]
      simp only [Mark.right]
      omega
    rw [List.length_append] at hsteps
    rw [List.append_assoc, readQuoted_char hp hm, ih hcolumn steps (by omega), Mark.after_append]
    rfl
  | @gap g w t hg hne hcolumn hhead _ ih =>
    -- What is spelled behind blanks does not begin with another one, so the gap ends there.
    have hstart : (w ++ quoteOf single :: rest).head?.any isGap = false := by
      cases w with
      | nil => exact isGap_quoteOf single
      | cons x w => exact hhead
    have hpiece : ∀ i, readPiece single (i + 1) ⟨m, g ++ (w ++ quoteOf single :: rest)⟩ =
        .ok ([], .gap false, ⟨m, g ++ (w ++ quoteOf single :: rest)⟩) := by
      cases g with
      | nil => exact absurd rfl hne
      | cons x g => exact fun i => readPiece_gap (hg x (by simp)).isGap i
    have hlen : 0 < g.length := by
      refine List.length_pos_of_ne_nil ?_
      rintro rfl
      exact hne rfl
    rw [List.length_append] at hsteps
    obtain ⟨steps, rfl⟩ : ∃ i, steps = i + 1 := ⟨steps - 1, by omega⟩
    rw [List.append_assoc, readQuoted.eq_def]
    simp only [Cursor.atDocumentMarker_of_column hm, hpiece, readGap_eq hg hstart,
      ih (hcolumn m hm) steps (by omega), Mark.after_append]
    simp

/-! ## Between double quotes -/

theorem spells_double (hc : c ≠ ' ') : Spells false (doubleQuoted c) c := by
  unfold doubleQuoted
  split
  · -- Behind a backslash.
    obtain ⟨e, he, hne, hline, hread⟩ := escaped_eq c
    have hslash : isBlank '\\' = false ∧ isBreak '\\' = false := by decide
    rw [he]
    refine ⟨?_, ⟨'\\', rfl, by decide⟩, fun steps m rest => ?_⟩
    · intro d hd
      rcases List.mem_cons.mp hd with rfl | hd
      · exact hslash.2
      · exact (hline d hd).2
    · cases e with
      | nil => exact absurd rfl hne
      | cons b e =>
        have hbreak := (hline b (by simp)).2
        have hread := hread rest
        rw [List.cons_append] at hread
        rw [readPiece.eq_def]
        simp [hslash.1, hslash.2, hbreak, hread, Cursor.skip]
  · next h =>
    simp only [Bool.or_eq_true, Bool.not_eq_true', decide_eq_true_eq, not_or, Bool.not_eq_false,
      Bool.not_eq_true] at h
    obtain ⟨⟨⟨hshown, hbreak⟩, hquote⟩, hslash⟩ := h
    have hblank : isBlank c = false := by simp [isBlank_of_isShown hshown, hc]
    refine ⟨by simpa using hbreak, ⟨c, rfl, by simp [isGap, hblank, hbreak]⟩, fun steps m rest => ?_⟩
    rw [readPiece.eq_def]
    simp [hblank, hbreak, hquote, hslash, Cursor.skip]

/-- A text is spaces and what comes behind them. -/
theorem exists_spaces (t : List Char) : ∃ n rest, t = spaces n ++ rest ∧ rest.head? ≠ some ' ' := by
  refine ⟨(t.takeWhile (· = ' ')).length, t.dropWhile (· = ' '), ?_, ?_⟩
  · have hspaces : t.takeWhile (· = ' ') = spaces (t.takeWhile (· = ' ')).length :=
      List.eq_replicate_iff.mpr ⟨rfl, fun c hc => by simpa using List.mem_takeWhile_imp hc⟩
    rw [← hspaces, List.takeWhile_append_dropWhile]
  · have h := List.head?_dropWhile_not (fun c : Char => decide (c = ' ')) t
    intro hhead
    rw [hhead] at h
    simp at h

/-- Spaces within a line are a gap. -/
theorem Spelled.padded {n : Nat} (hn : 0 < n) (hhead : w.head?.any isGap = false)
    (h : Spelled single w t) : Spelled single (spaces n ++ w) (spaces n ++ t) := by
  have hgap := @Spelled.gap single (spaces n) _ _
    (fun c hc => .inl (List.eq_of_mem_replicate hc)) (by
      rw [Gap.text_spaces, spaces, Ne, List.replicate_eq_nil_iff]
      omega) (fun m hm => by
      rw [Mark.after_spaces]
      simp only [Mark.right]
      omega) hhead h
  rwa [Gap.text_spaces] at hgap

theorem flatMap_doubleQuoted_spaces (n : Nat) : (spaces n).flatMap doubleQuoted = spaces n := by
  induction n with
  | zero => rfl
  | succ n ih =>
    rw [spaces, List.replicate_succ, List.flatMap_cons, ← spaces, ih]
    rfl

/-- The text between double quotes is spelled. -/
theorem spelled_double (t : List Char) : Spelled false (t.flatMap doubleQuoted) t := by
  induction hlen : t.length using Nat.strong_induction_on generalizing t with
  | _ n ih =>
    cases t with
    | nil => exact .nil
    | cons c t =>
      by_cases hc : c = ' '
      · subst hc
        obtain ⟨k, rest, rfl, hhead⟩ := exists_spaces t
        have hrest := ih rest.length (by
          rw [← hlen, List.length_cons, List.length_append]
          omega) rest rfl
        have hstart : (rest.flatMap doubleQuoted).head?.any isGap = false := by
          cases rest with
          | nil => rfl
          | cons d rest =>
            obtain ⟨_, ⟨x, hx, hgap⟩, _⟩ := spells_double (c := d) fun h => hhead (by simp [h])
            rw [List.flatMap_cons, List.head?_append, hx]
            exact hgap
        rw [show ' ' :: (spaces k ++ rest) = spaces (k + 1) ++ rest from rfl, List.flatMap_append,
          flatMap_doubleQuoted_spaces]
        exact hrest.padded (by omega) hstart
      · rw [List.flatMap_cons]
        exact .char (spells_double hc) (ih t.length (by simp [← hlen]) t rfl)

/-! ## Between single quotes -/

/-- A character between single quotes. -/
def quotedOnce (c : Char) : List Char := if c = '\'' then ['\'', '\''] else [c]

theorem spells_single (hc : isGap c = false) : Spells true (quotedOnce c) c := by
  have hparts : isBlank c = false ∧ isBreak c = false := by simpa [isGap] using hc
  unfold quotedOnce
  split
  · next h =>
    subst h
    exact ⟨by simp [isBreak], ⟨_, rfl, by decide⟩, fun steps m rest => rfl⟩
  · next h =>
    refine ⟨by simpa using hparts.2, ⟨c, rfl, hc⟩, fun steps m rest => ?_⟩
    rw [readPiece.eq_def]
    simp [hparts.1, hparts.2, h, Cursor.skip]

theorem singleQuoted_cons (hc : isBreak c = false) (indent : Nat) (t : List Char) :
    singleQuoted indent false (c :: t) = quotedOnce c ++ singleQuoted indent false t := by
  simp [singleQuoted, hc, quotedOnce]

theorem singleQuoted_spaces (indent n : Nat) (t : List Char) :
    singleQuoted indent false (spaces n ++ t) = spaces n ++ singleQuoted indent false t := by
  induction n with
  | zero => rfl
  | succ n ih =>
    rw [spaces, List.replicate_succ, List.cons_append, ← spaces, singleQuoted_cons isBreak_space, ih]
    rfl

theorem singleQuoted_breaks {bs : List Char} (hbs : ∀ b ∈ bs, isBreak b = true) (hne : bs ≠ [])
    (ht : t.head?.any isBreak = false) (indent : Nat) (afterBreak : Bool) :
    singleQuoted indent afterBreak (bs ++ t) =
      bs ++ spaces indent ++ singleQuoted indent false t := by
  have hbehind : singleQuoted indent true t = spaces indent ++ singleQuoted indent false t := by
    cases t with
    | nil => simp [singleQuoted]
    | cons c t =>
      have hc : isBreak c = false := ht
      simp [singleQuoted, hc]
  induction bs generalizing afterBreak with
  | nil => exact absurd rfl hne
  | cons b bs ih =>
    rw [List.cons_append, singleQuoted, if_pos (hbs b (by simp))]
    by_cases hnil : bs = []
    · rw [hnil, List.nil_append, hbehind]
      simp
    · rw [ih (fun d hd => hbs d (List.mem_cons_of_mem b hd)) hnil]
      simp

theorem isChain_of_hasPair {p : Char → Char → Bool} {cs : List Char} (h : hasPair p cs = false) :
    cs.IsChain fun c d => p c d = false := by
  induction cs with
  | nil => exact .nil
  | cons c cs ih =>
    cases cs with
    | nil => exact .singleton c
    | cons d cs =>
      rw [hasPair, Bool.or_eq_false_iff] at h
      exact .cons_cons h.1 (ih h.2)

/-- A text is breaks and what comes behind them. -/
theorem exists_breaks (t : List Char) : ∃ bs rest, t = bs ++ rest ∧ (∀ b ∈ bs, isBreak b = true) ∧
    rest.head?.any isBreak = false := by
  refine ⟨t.takeWhile isBreak, t.dropWhile isBreak, List.takeWhile_append_dropWhile.symm,
    fun b hb => List.mem_takeWhile_imp hb, ?_⟩
  have h := List.head?_dropWhile_not isBreak t
  cases hhead : (t.dropWhile isBreak).head? with
  | none => rfl
  | some c =>
    rw [hhead] at h
    exact h

/-- What may stand between single quotes. -/
structure FitsSingle (t : List Char) : Prop where
  shown : ∀ c ∈ t, isShown c = true
  feed : '\n' ∉ t
  apart : t.IsChain fun c d => (c = ' ' → isBreak d = false) ∧ (isBreak c = true → d ≠ ' ')

/-- What comes behind a part of the text fits as well. -/
theorem FitsSingle.behind {s rest : List Char} (h : FitsSingle (s ++ rest)) : FitsSingle rest :=
  ⟨fun c hc => h.shown c (List.mem_append_right s hc),
    fun hfeed => h.feed (List.mem_append_right s hfeed), (List.isChain_append.mp h.apart).2.1⟩

/-- Behind spaces comes no break. -/
theorem FitsSingle.behind_spaces {n : Nat} {rest : List Char}
    (h : FitsSingle (spaces (n + 1) ++ rest)) (hhead : rest.head? ≠ some ' ') :
    rest.head?.any isGap = false := by
  have hlast : (spaces (n + 1)).getLast? = some ' ' := by
    rw [spaces, List.getLast?_replicate, if_neg (by omega)]
  cases rest with
  | nil => rfl
  | cons d rest =>
    have happart := (List.isChain_append.mp h.apart).2.2 ' ' hlast d rfl
    have hd : d ≠ ' ' := fun hd => hhead (by simp [hd])
    simp [isGap, isBlank_of_isShown (h.shown d (by simp)), hd, happart.1]

/-- Behind breaks comes no space. -/
theorem FitsSingle.behind_breaks {bs rest : List Char} (h : FitsSingle (bs ++ rest))
    (hbs : ∀ b ∈ bs, isBreak b = true) (hne : bs ≠ []) (hhead : rest.head?.any isBreak = false) :
    rest.head?.any isGap = false := by
  obtain ⟨last, hlast⟩ : ∃ last, bs.getLast? = some last := ⟨_, List.getLast?_eq_some_getLast hne⟩
  cases rest with
  | nil => rfl
  | cons d rest =>
    have happart := (List.isChain_append.mp h.apart).2.2 last hlast d rfl
    have hd := happart.2 (hbs last (List.mem_of_getLast? hlast))
    have hbreak : isBreak d = false := hhead
    simp [isGap, isBlank_of_isShown (h.shown d (by simp)), hd, hbreak]

theorem singleQuoted_head {rest : List Char} (hrest : rest.head?.any isGap = false) (indent : Nat) :
    (singleQuoted indent false rest).head?.any isGap = false := by
  cases rest with
  | nil => rfl
  | cons c rest =>
    have hc : isGap c = false := hrest
    have hparts : isBlank c = false ∧ isBreak c = false := by simpa [isGap] using hc
    obtain ⟨_, ⟨x, hx, hgap⟩, _⟩ := spells_single hc
    rw [singleQuoted_cons hparts.2, List.head?_append, hx]
    exact hgap

/-- Breaks in front of a text are spelled as a gap that ends with the indentation. -/
theorem Spelled.broken {indent : Nat} {bs rest : List Char}
    (h : Spelled true (singleQuoted indent false rest) rest) (hindent : 0 < indent)
    (hfits : FitsSingle (bs ++ rest)) (hbs : ∀ b ∈ bs, isBreak b = true) (hne : bs ≠ [])
    (hhead : rest.head?.any isBreak = false) :
    Spelled true (singleQuoted indent false (bs ++ rest)) (bs ++ rest) := by
  have hrest := singleQuoted_head (hfits.behind_breaks hbs hne hhead) indent
  have hchars : ∀ d ∈ bs ++ spaces indent, IsGapChar d := by
    intro d hd
    rcases List.mem_append.mp hd with hd | hd
    · exact .inr ⟨hfits.shown d (List.mem_append_left _ hd), hbs d hd⟩
    · exact .inl (List.eq_of_mem_replicate hd)
  have hcolumn : ∀ m : Mark, m.column ≠ 0 → (m.after (bs ++ spaces indent)).column ≠ 0 := by
    intro m _
    rw [Mark.after_append, Mark.after_spaces]
    simp only [Mark.right]
    omega
  have htext : ((bs ++ spaces indent).foldl Gap.add {}).text = bs := by
    obtain ⟨c, bs, rfl⟩ := List.exists_cons_of_ne_nil hne
    exact Gap.text_breaks (hbs c (by simp)) (fun hc => hfits.feed (by simp [hc]))
      (fun b hb => hbs b (List.mem_cons_of_mem c hb)) indent
  have hgap := Spelled.gap hchars (by rwa [htext]) hcolumn hrest h
  rw [htext] at hgap
  rwa [singleQuoted_breaks hbs hne hhead]

/-- The text between single quotes is spelled. -/
theorem spelled_single {indent : Nat} (hindent : 0 < indent) (t : List Char) (h : FitsSingle t) :
    Spelled true (singleQuoted indent false t) t := by
  induction hlen : t.length using Nat.strong_induction_on generalizing t with
  | _ n ih =>
    have hbehind : ∀ s rest, t = s ++ rest → s ≠ [] →
        Spelled true (singleQuoted indent false rest) rest := by
      rintro s rest rfl hne
      have hpos := List.length_pos_of_ne_nil hne
      exact ih rest.length (by rw [← hlen, List.length_append]; omega) rest h.behind rfl
    cases t with
    | nil => exact .nil
    | cons c t =>
      by_cases hspace : c = ' '
      · -- Spaces are a gap.
        subst hspace
        obtain ⟨k, rest, rfl, hhead⟩ := exists_spaces t
        have hwhole : ' ' :: (spaces k ++ rest) = spaces (k + 1) ++ rest := rfl
        rw [hwhole] at h ⊢
        rw [singleQuoted_spaces]
        exact (hbehind _ rest hwhole (by simp [spaces])).padded (by omega)
          (singleQuoted_head (h.behind_spaces hhead) indent)
      · by_cases hbreak : isBreak c = true
        · -- Breaks are a gap.
          obtain ⟨bs, rest, rfl, hbs, hhead⟩ := exists_breaks t
          have hall : ∀ b ∈ c :: bs, isBreak b = true := List.forall_mem_cons.mpr ⟨hbreak, hbs⟩
          exact (hbehind (c :: bs) rest rfl (List.cons_ne_nil _ _)).broken hindent h hall
            (List.cons_ne_nil _ _) hhead
        · have hbreak : isBreak c = false := Bool.eq_false_iff.mpr hbreak
          have hgap : isGap c = false := by
            simp [isGap, hbreak, isBlank_of_isShown (h.shown c (by simp)), hspace]
          rw [singleQuoted_cons hbreak]
          exact .char (spells_single hgap) (hbehind [c] t rfl (List.cons_ne_nil _ _))

end RunCache.Yaml
