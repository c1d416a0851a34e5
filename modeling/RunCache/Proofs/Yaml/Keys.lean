import Mathlib.Data.String.Basic
import RunCache.Proofs.Yaml.Tokens
import RunCache.Yaml.Layout

/-! # Keys are read back

    A key stands on a line with its value, where it is noted until the
    colon behind it is found, or between two marks on lines of its own.

    * **`scalarToken`**: the token of a text.
    * **`reaches_text`**: a text behind which the line ends.
    * **`reads_key`**: a key up to its colon. -/

namespace RunCache.Yaml

variable {s : String} {t : List Char} {c : Char} {m : Mark}

/-! ## Written keys -/

/-- Whether a text is written without any mark. -/
def isBare (s : String) : Bool := decide (Style.ofText s = .plain)

/-- The token of a text. -/
def scalarToken (s : String) : Token := .scalar (isBare s) s

theorem length_le_utf8ByteSize (s : String) : s.toList.length ≤ s.utf8ByteSize := by
  rw [← String.utf8Len_toList]
  induction s.toList with
  | nil => exact Nat.le_refl _
  | cons c cs ih =>
    have hpos := c.utf8Size_pos
    rw [String.utf8Len_cons, List.length_cons]
    omega

theorem length_ite_le {p : Prop} [Decidable p] {s t : List Char} {n : Nat} (hs : p → s.length ≤ n)
    (ht : ¬ p → t.length ≤ n) : (if p then s else t).length ≤ n := by
  split
  · next h => exact hs h
  · next h => exact ht h

theorem length_escaped (hc : isShown c = false ∨ c.toNat ≤ 0xFFFF) : (escaped c).length ≤ 6 := by
  have hsmall : c.toNat ≤ 0xFFFF := by
    rcases hc with hc | hc
    · simp only [isShown, Bool.or_eq_false_iff, decide_eq_false_iff_not] at hc
      omega
    · exact hc
  rw [escaped, List.length_cons, Nat.succ_le_succ_iff]
  iterate 13
    refine length_ite_le (fun _ => Nat.le_of_ble_eq_true rfl) fun _ => ?_
  refine length_ite_le (fun hbyte => ?_) fun _ => length_ite_le (fun _ => ?_) fun h => absurd hsmall h
  · rw [List.length_cons, length_hexDigits (by decide) (by omega)]
    decide
  · rw [List.length_cons, length_hexDigits (by decide) (by omega)]

/-- What a character is written with between double quotes is short. -/
theorem length_doubleQuoted (c : Char) : (doubleQuoted c).length ≤ 6 := by
  unfold doubleQuoted
  split
  · next h =>
    refine length_escaped ?_
    by_cases hshown : isShown c = true
    · right
      simp only [hshown, Bool.not_true, Bool.false_or, Bool.or_eq_true, decide_eq_true_eq] at h
      rcases h with (h | rfl) | rfl
      · rcases break_cases hshown h with rfl | rfl | rfl <;> decide
      · decide
      · decide
    · exact .inl (Bool.eq_false_iff.mpr hshown)
  · exact Nat.le_of_ble_eq_true rfl

theorem doubleQuoted_line (c : Char) : ∀ d ∈ doubleQuoted c, isBreak d = false := by
  by_cases hc : c = ' '
  · subst hc
    exact List.forall_mem_singleton.mpr isBreak_space
  · exact (spells_double hc).line

theorem singleQuoted_eq (ht : ∀ c ∈ t, isBreak c = false) (indent : Nat) :
    singleQuoted indent false t = t.flatMap quotedOnce := by
  induction t with
  | nil => rfl
  | cons c t ih =>
    rw [singleQuoted_cons (ht c (by simp)), ih fun d hd => ht d (List.mem_cons_of_mem c hd),
      List.flatMap_cons]

theorem quotedOnce_line (hc : isBreak c = false) : ∀ d ∈ quotedOnce c, isBreak d = false := by
  intro d hd
  unfold quotedOnce at hd
  split at hd
  · have hquote : d = '\'' := by simpa using hd
    rw [hquote]
    decide
  · rwa [List.mem_singleton.mp hd]

theorem length_quotedOnce (c : Char) : (quotedOnce c).length ≤ 6 := by
  unfold quotedOnce
  split <;> exact Nat.le_of_ble_eq_true rfl

theorem length_flatMap_le {f : Char → List Char} (hf : ∀ c, (f c).length ≤ 6) (t : List Char) :
    (t.flatMap f).length ≤ 6 * t.length := by
  induction t with
  | nil => exact Nat.le_refl _
  | cons c t ih =>
    have hc := hf c
    rw [List.flatMap_cons, List.length_append, List.length_cons]
    omega

/-- A key that stands on a line with its value is written within the line, and the colon behind it
    is near. -/
theorem written_short (h : isShortKey s = true) (indent : Nat) :
    (∀ c ∈ (Style.ofText s).write indent s.toList, isBreak c = false) ∧
      ((Style.ofText s).write indent s.toList).length ≤ Lexer.maxKeyLength := by
  simp only [isShortKey, Bool.and_eq_true, Bool.not_eq_true', decide_eq_true_eq] at h
  obtain ⟨hline, hsize⟩ := h
  have hline : ∀ c ∈ s.toList, isBreak c = false := by simpa using hline
  have hlength := length_le_utf8ByteSize s
  have hbound : maxKeyLength = 128 ∧ Lexer.maxKeyLength = 1024 := ⟨rfl, rfl⟩
  -- The bound on keys leaves room for the longest spelling of each of their bytes.
  cases hstyle : Style.ofText s with
  | plain => exact ⟨hline, by simp only [Style.write]; omega⟩
  | single =>
    rw [Style.write, singleQuoted_eq hline]
    refine ⟨?_, ?_⟩
    · intro c hc
      simp only [List.cons_append, List.mem_cons, List.mem_append, List.not_mem_nil, or_false] at hc
      rcases hc with rfl | hc | rfl
      · decide
      · obtain ⟨d, hd, hc⟩ := List.mem_flatMap.mp hc
        exact quotedOnce_line (hline d hd) c hc
      · decide
    · have h := length_flatMap_le length_quotedOnce s.toList
      simp only [List.cons_append, List.length_cons, List.length_append, List.length_nil]
      omega
  | double =>
    rw [Style.write]
    refine ⟨?_, ?_⟩
    · intro c hc
      simp only [List.cons_append, List.mem_cons, List.mem_append, List.not_mem_nil, or_false] at hc
      rcases hc with rfl | hc | rfl
      · decide
      · obtain ⟨d, _, hc⟩ := List.mem_flatMap.mp hc
        exact doubleQuoted_line d c hc
      · decide
    · have h := length_flatMap_le length_doubleQuoted s.toList
      simp only [List.cons_append, List.length_cons, List.length_append, List.length_nil]
      omega
  | literal =>
    -- Only texts with a break are written as lines.
    have hfeed := hline '\n' (ofText_literal hstyle).2
    exact absurd hfeed (by decide)

/-! ## How written texts begin and end -/

/-- A written text begins with a token. -/
theorem startsToken_written (s : String) (indent : Nat) (rest : List Char) :
    Lexer.StartsToken ((Style.ofText s).write indent s.toList ++ rest) := by
  cases hstyle : Style.ofText s with
  | plain =>
    obtain ⟨hfits, hallows, _⟩ := ofText_plain hstyle
    obtain ⟨c, behind, hs⟩ := List.exists_cons_of_ne_nil hfits.ne_nil
    rw [hs] at hallows
    obtain ⟨hindicator, _, hgap, horder⟩ := Lexer.startsBare_of_allows hallows
    rw [Style.write, hs]
    refine Lexer.startsToken_cons hgap ?_ horder
    rintro rfl
    exact absurd hindicator (by decide)
  | single => exact Lexer.startsToken_cons (by decide) (by decide) (by decide)
  | double => exact Lexer.startsToken_cons (by decide) (by decide) (by decide)
  | literal => exact Lexer.startsToken_cons (by decide) (by decide) (by decide)

theorem startsToken_text (s : String) (column : Nat) (rest : List Char) :
    Lexer.StartsToken (textLines column s ++ rest) := by
  rw [textLines]
  simp only [List.append_assoc]
  exact startsToken_written s (column + 2) _

theorem getLast_literalLines (indent : Nat) (afterBreak : Bool) (t : List Char) :
    (literalLines indent afterBreak t).getLast? = t.getLast? := by
  induction t generalizing afterBreak with
  | nil => rfl
  | cons c t ih =>
    rw [literalLines]
    split
    · rw [List.getLast?_cons, List.getLast?_cons, ih]
    · rw [List.getLast?_append, List.getLast?_cons, List.getLast?_cons, ih]
      rfl

/-- Lines end with a break. -/
theorem exists_literalLines (indent : Nat) (hne : t ≠ []) : ∃ lines b, isBreak b = true ∧
    literalLines indent true t ++ lineEnd t = lines ++ [b] := by
  by_cases hend : endsWithBreak t = true
  · have hlast := List.getLast?_eq_some_getLast hne
    have hbreak : isBreak (t.getLast hne) = true := by
      rw [endsWithBreak, hlast] at hend
      exact hend
    obtain ⟨lines, hlines⟩ := List.getLast?_eq_some_iff.mp
      ((getLast_literalLines indent true t).trans hlast)
    exact ⟨lines, t.getLast hne, hbreak, by rw [hlines, lineEnd, if_pos hend, List.append_nil]⟩
  · exact ⟨_, '\n', by decide, by rw [lineEnd, if_neg hend]⟩

namespace Lexer

variable {rest more : List Char} {tokens tokens' : List Token} {indent : Int}
  {outer outer' : List Int} {allowed : Bool} {column n : Nat}

/-! ## Texts and the end of their lines -/

theorem reads_space (hrest : StartsToken rest) (hindent : indent ≤ m.column) (tokens : List Token)
    (outer : List Int) (allowed : Bool) :
    Reads (state ⟨m, ' ' :: rest⟩ tokens indent outer allowed none)
      (state ⟨m.right 1, rest⟩ tokens indent outer allowed none) := by
  have hle : indent ≤ (m.right 1).column := by
    simp only [Mark.right]
    omega
  exact reads_of_arrive (arrive_within (n := 1) hrest (live_none _) hle)
    (arrive_at hrest (live_none _) hle) (by simp [state])

theorem passed_behind (hm : column < m.column) {m' : Mark} (hline : m.line < m'.line) :
    Passed (noted allowed tokens column m) m' :=
  passed_noted (by omega) hline

/-- Bare text in the last place of a line. -/
theorem reaches_bare (h : allowsPlain t = true) (hne : t ≠ []) (hm : column < m.column)
    (hrest : Indented column rest) (tokens : List Token) (outer : List Int) (allowed : Bool) :
    Reaches (state ⟨m, t ++ '\n' :: rest⟩ tokens column outer allowed none) rest
      (.scalar true (String.ofList t) :: tokens) column outer := by
  obtain ⟨n, more, rfl, hn, hmore⟩ := hrest
  have htail : EndsPlain ((column : Int) + 1) ('\n' :: spaces n ++ more) ('\n' :: spaces n) more :=
    .line (by omega) hmore.gap
  refine (reads_bare h hne htail (Int.ofNat_le.mpr (Nat.le_of_lt hm)) tokens outer allowed).reaches ?_
  have hmark : m.after (t ++ '\n' :: spaces n) = (m.after (t ++ ['\n'])).right n := by
    rw [Mark.after_append, Mark.after_append, Mark.after_cons_break (by decide),
      Mark.after_spaces, Mark.after_cons_break (by decide), Mark.after_nil]
  rw [hmark]
  refine reaches_of_passed ?_ hmore (passed_behind hm ?_)
  · exact Mark.column_after_spaces (b := '\n') (by decide) m t 0
  · have h := Mark.line_lt_after (s := t ++ ['\n']) (c := '\n') (by simp) (by decide) m
    simpa [Mark.right] using h

/-- Quoted text in the last place of a line. -/
theorem reaches_quoted {single : Bool} {w : List Char} (hspelled : Spelled single w t)
    (hm : column < m.column) (hrest : Indented column rest) (tokens : List Token) (outer : List Int)
    (allowed : Bool) :
    Reaches (state ⟨m, quoteOf single :: (w ++ quoteOf single :: '\n' :: rest)⟩ tokens column outer
      allowed none) rest (.scalar false (String.ofList t) :: tokens) column outer := by
  have hhead : ('\n' :: rest).head? ≠ some '\'' := by simp
  have hreads := reads_quoted hspelled hhead (Int.ofNat_le.mpr (Nat.le_of_lt hm)) tokens outer allowed
  refine hreads.reaches (reaches_of_line hrest (passed_behind hm ?_))
  have h := Mark.line_le_after m (quoteOf single :: (w ++ [quoteOf single]))
  simp only [Mark.down]
  omega

/-- A literal text, which ends behind the line of its last break. -/
theorem reaches_literal (hshown : ∀ c ∈ t, isShown c = true) (hne : t ≠ [])
    (hm : column < m.column) (hrest : Indented column rest) (tokens : List Token) (outer : List Int)
    (allowed : Bool) :
    Reaches (state ⟨m, literalHeader t ++ '\n' :: (literalLines (column + 2) true t ++ lineEnd t ++
      rest)⟩ tokens column outer allowed none) rest (.scalar false (String.ofList t) :: tokens) column
      outer := by
  obtain ⟨n, more, rfl, hn, hmore⟩ := hrest
  obtain ⟨lines, b, hb, hlines⟩ := exists_literalLines (column + 2) hne
  have hreads := reads_literal hshown hne hn hmore.gap (Nat.le_of_lt hm) tokens outer allowed
  have hmark : m.after (literalHeader t ++ '\n' :: (literalLines (column + 2) true t ++ lineEnd t ++
      spaces n)) = (m.after (literalHeader t ++ '\n' :: (lines ++ [b]))).right n := by
    rw [hlines, ← List.cons_append, ← List.append_assoc, Mark.after_append, Mark.after_spaces]
  rw [hmark] at hreads
  refine hreads.reaches (reaches_of_passed ?_ hmore (passed_none _))
  have h := Mark.column_after_spaces hb m (literalHeader t ++ '\n' :: lines) 0
  simpa [spaces] using h

/-- A text in the last place of a line, and what belongs to it of the lines behind. -/
theorem reaches_text (s : String) (hm : column < m.column) (hrest : Indented column rest)
    (tokens : List Token) (outer : List Int) (allowed : Bool) :
    Reaches (state ⟨m, textLines column s ++ rest⟩ tokens column outer allowed none) rest
      (scalarToken s :: tokens) column outer := by
  have htoken : scalarToken s = .scalar (isBare s) (String.ofList s.toList) := by
    rw [String.ofList_toList]
    rfl
  rw [htoken]
  cases hstyle : Style.ofText s with
  | plain =>
    obtain ⟨hfits, hallows, _⟩ := ofText_plain hstyle
    have hreaches := reaches_bare hallows hfits.ne_nil hm hrest tokens outer allowed
    simpa [textLines, isBare, hstyle, Style.write] using hreaches
  | single =>
    have hspelled := spelled_single (Nat.succ_pos (column + 1)) s.toList (ofText_single hstyle)
    have hreaches := reaches_quoted hspelled hm hrest tokens outer allowed
    simpa [textLines, isBare, hstyle, Style.write, quoteOf] using hreaches
  | double =>
    have hreaches := reaches_quoted (spelled_double s.toList) hm hrest tokens outer allowed
    simpa [textLines, isBare, hstyle, Style.write, quoteOf] using hreaches
  | literal =>
    obtain ⟨hshown, hfeed⟩ := ofText_literal hstyle
    have hreaches := reaches_literal hshown (List.ne_nil_of_mem hfeed) hm hrest tokens outer allowed
    simpa [textLines, isBare, hstyle, Style.write, lineEnd] using hreaches

/-! ## Keys -/

/-- The text of a key that stands on a line with its value. -/
theorem reads_keyText (h : isShortKey s = true) (width : Nat) (hgap : atGap rest = true)
    (hindent : indent ≤ m.column) (tokens : List Token) (outer : List Int) :
    Reads (state ⟨m, (Style.ofText s).write width s.toList ++ ':' :: rest⟩ tokens indent outer true
        none)
      (state ⟨m.after ((Style.ofText s).write width s.toList), ':' :: rest⟩ (scalarToken s :: tokens)
        indent outer false (noted true tokens indent m)) := by
  have hquoted : ∀ (single : Bool) (w : List Char), Spelled single w s.toList →
      isBare s = false →
      Reads (state ⟨m, quoteOf single :: (w ++ quoteOf single :: ':' :: rest)⟩ tokens indent outer
          true none)
        (state ⟨m.after (quoteOf single :: (w ++ [quoteOf single])), ':' :: rest⟩
          (scalarToken s :: tokens) indent outer false (noted true tokens indent m)) := by
    intro single w hspelled hbare
    have hhead : (':' :: rest).head? ≠ some '\'' := by simp
    have hreads := reads_quoted hspelled hhead hindent tokens outer true
    rw [String.ofList_toList] at hreads
    rwa [scalarToken, hbare]
  cases hstyle : Style.ofText s with
  | plain =>
    obtain ⟨hfits, hallows, _⟩ := ofText_plain hstyle
    have hreads := reads_bare hallows hfits.ne_nil (.key hgap) hindent tokens outer true
    simpa [scalarToken, isBare, hstyle, Style.write] using hreads
  | single =>
    simp only [isShortKey, Bool.and_eq_true, Bool.not_eq_true', List.any_eq_false] at h
    have hline : ∀ c ∈ s.toList, isBreak c = false := fun c hc => Bool.eq_false_iff.mpr (h.1 c hc)
    -- Without a break in it the text does not depend on the indentation of its lines.
    have hspelled := spelled_single Nat.one_pos s.toList (ofText_single hstyle)
    rw [singleQuoted_eq hline] at hspelled
    have hreads := hquoted true _ hspelled (by simp [isBare, hstyle])
    simpa [Style.write, quoteOf, singleQuoted_eq hline] using hreads
  | double =>
    have hreads := hquoted false _ (spelled_double s.toList) (by simp [isBare, hstyle])
    simpa [Style.write, quoteOf] using hreads
  | literal =>
    simp only [isShortKey, Bool.and_eq_true, Bool.not_eq_true', List.any_eq_false] at h
    exact absurd (by decide : isBreak '\n' = true) (h.1 '\n' (ofText_literal hstyle).2)

/-- A key is read up to its colon. Behind a key that stands on a line with its value no other key
    may begin. -/
theorem reads_key (key : String) (hm : m.column = column) (hgap : atGap rest = true)
    (h : Opens .blockDict column indent tokens outer tokens' outer') :
    ∃ m' : Mark, column < m'.column ∧ (isShortKey key = false → m'.column = column + 1) ∧
      Reads (state ⟨m, keyLines column key ++ rest⟩ tokens indent outer true none)
        (state ⟨m', rest⟩ (.value :: scalarToken key :: .key :: tokens') column outer'
          (!isShortKey key) none) := by
  have hle : indent ≤ m.column := hm ▸ h.le
  cases hshort : isShortKey key with
  | true =>
    -- On one line with its value: that it was a key shows only at the colon.
    obtain ⟨hline, hlength⟩ := written_short hshort (column + 2)
    have htext := reads_keyText hshort (column + 2) hgap hle tokens outer
    have hmark := Mark.after_of_line (m := m) hline
    have hkey : keyLines column key ++ rest =
        (Style.ofText key).write (column + 2) key.toList ++ ':' :: rest := by
      rw [keyLines, if_pos hshort, List.append_assoc]
      rfl
    rw [hkey]
    generalize (Style.ofText key).write (column + 2) key.toList = w at *
    have hplace : (m.after w).line = m.line ∧ (m.after w).index = m.index + w.length ∧
        (m.after w).column = m.column + w.length := by
      rw [hmark]
      exact ⟨rfl, rfl, rfl⟩
    obtain ⟨hsame, hindex, hcolumn⟩ := hplace
    subst hm
    have hcolon := reads_colon (scalarToken key) hgap hsame (by omega) (by omega) h
    exact ⟨(m.after w).right 1, by simp only [Mark.right]; omega, nofun, htext.trans hcolon⟩
  | false =>
    -- Behind a mark of its own: it is a key from the beginning.
    have hkey : keyLines column key ++ rest =
        '?' :: ' ' :: (textLines column key ++ (spaces column ++ ':' :: rest)) := by
      simp [keyLines, hshort]
    have hstart : StartsToken (':' :: rest) := startsToken_cons (by decide) (by decide) (by decide)
    have hgap' : atGap (' ' :: (textLines column key ++ (spaces column ++ ':' :: rest))) = true := rfl
    have hright : column ≤ (m.right 1).column ∧ column < ((m.right 1).right 1).column := by
      simp only [Mark.right]
      omega
    have hmark := reads_keyMark hm hgap' h
    have hspace := reads_space (startsToken_text key column (spaces column ++ ':' :: rest))
      (Int.ofNat_le.mpr hright.1) (.key :: tokens') outer' true
    have htext := reaches_text key hright.2 ⟨column, ':' :: rest, rfl, Nat.le_refl _, hstart⟩
      (.key :: tokens') outer' true
    obtain ⟨m', hm', hreads⟩ := htext.state hstart (Int.le_refl _)
    have hvalue := reads_valueMark hm' hgap (scalarToken key :: .key :: tokens') outer'
    rw [hkey]
    exact ⟨m'.right 1, by simp only [Mark.right]; omega, fun _ => by simp only [Mark.right]; omega,
      hmark.trans (hspace.trans (hreads.trans hvalue))⟩

end Lexer

end RunCache.Yaml
