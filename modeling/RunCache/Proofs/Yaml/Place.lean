import RunCache.Yaml.Style

/-! # Places in a YAML text

    Where the cursor is behind a text that it has passed.

    * **`Mark.after`**: the place behind a text.
    * **`readGap_eq`**: passing blanks and breaks.
    * **`Gap.text_spaces`**, **`Gap.text_breaks`**: what they contribute. -/

namespace RunCache.Yaml

variable {s t cs : List Char} {m : Mark} {c : Char} {n : Nat}

/-! ## Classes of characters -/

theorem isBreak_space : isBreak ' ' = false := by decide

theorem isBlank_of_isShown (h : isShown c = true) : isBlank c = decide (c = ' ') := by
  by_cases htab : c = '\t'
  · subst htab
    revert h
    decide
  · simp [isBlank, htab]

/-- Of the breaks only three are shown. -/
theorem break_cases (hshown : isShown c = true) (hbreak : isBreak c = true) :
    c = '\n' ∨ c = '\u2028' ∨ c = '\u2029' := by
  simp only [isBreak, Bool.or_eq_true, decide_eq_true_eq] at hbreak
  rcases hbreak with (((h | h) | h) | h) | h
  · exact .inl h
  · subst h
    revert hshown
    decide
  · subst h
    revert hshown
    decide
  · exact .inr (.inl h)
  · exact .inr (.inr h)

/-! ## The place behind a text -/

/-- The place behind a text, in which a carriage return is no break of its own. -/
def Mark.after (m : Mark) : List Char → Mark
  | [] => m
  | c :: cs => Mark.after (if isBreak c then m.down 1 else m.right 1) cs

namespace Mark

@[simp] theorem after_nil (m : Mark) : m.after [] = m := rfl

theorem after_cons_break (h : isBreak c = true) (cs : List Char) :
    m.after (c :: cs) = (m.down 1).after cs := by
  rw [after, if_pos h]

theorem after_cons_of_not_break (h : isBreak c = false) (cs : List Char) :
    m.after (c :: cs) = (m.right 1).after cs := by
  rw [after, h]
  rfl

theorem after_append (m : Mark) (s t : List Char) : m.after (s ++ t) = (m.after s).after t := by
  induction s generalizing m with
  | nil => rfl
  | cons c s ih => exact ih _

@[simp] theorem right_zero (m : Mark) : m.right 0 = m := rfl

theorem right_right (m : Mark) (i j : Nat) : (m.right i).right j = m.right (i + j) := by
  simp [right, Nat.add_assoc]

/-- Within a line the place moves to the right. -/
theorem after_of_line (h : ∀ c ∈ s, isBreak c = false) : m.after s = m.right s.length := by
  induction s generalizing m with
  | nil => rfl
  | cons c s ih =>
    rw [after_cons_of_not_break (h c (by simp)), ih fun d hd => h d (List.mem_cons_of_mem c hd),
      right_right, List.length_cons, Nat.add_comm]

theorem after_spaces (m : Mark) (n : Nat) : m.after (spaces n) = m.right n := by
  have hspaces : ∀ c ∈ spaces n, isBreak c = false := by
    intro c hc
    rw [List.eq_of_mem_replicate hc]
    exact isBreak_space
  rw [after_of_line hspaces, spaces, List.length_replicate]

/-- Spaces at the start of a line are its column. -/
theorem column_after_spaces {b : Char} (hb : isBreak b = true) (m : Mark) (s : List Char) (n : Nat) :
    (m.after (s ++ b :: spaces n)).column = n := by
  rw [after_append, after_cons_break hb, after_spaces]
  simp [right, down]

theorem column_after_breaks {bs : List Char} (hbs : ∀ b ∈ bs, isBreak b = true) (hne : bs ≠ [])
    (m : Mark) (s : List Char) (n : Nat) : (m.after (s ++ (bs ++ spaces n))).column = n := by
  obtain ⟨init, b, rfl⟩ : ∃ init b, bs = init ++ [b] :=
    ⟨_, _, (List.dropLast_concat_getLast hne).symm⟩
  have h := column_after_spaces (hbs b (by simp)) m (s ++ init) n
  simpa using h

theorem line_le_after (m : Mark) (s : List Char) : m.line ≤ (m.after s).line := by
  induction s generalizing m with
  | nil => exact Nat.le_refl _
  | cons c s ih =>
    refine Nat.le_trans ?_ (ih _)
    split <;> simp [down, right]

/-- A break leads to a later line. -/
theorem line_lt_after (hc : c ∈ s) (hb : isBreak c = true) (m : Mark) :
    m.line < (m.after s).line := by
  obtain ⟨before, behind, rfl⟩ := List.append_of_mem hc
  rw [after_append, after_cons_break hb]
  have hbefore := line_le_after m before
  have hbehind := line_le_after ((m.after before).down 1) behind
  simp only [down] at hbehind ⊢
  omega

end Mark

/-! ## Cursors -/

namespace Cursor

/-- Characters of one kind up to the first one of another kind. -/
theorem span_append {p : Char → Bool} (hs : ∀ c ∈ s, p c = true) (ht : t.head?.any p = false)
    (m : Mark) : (⟨m, s ++ t⟩ : Cursor).span p = (s, ⟨m.right s.length, t⟩) := by
  have htake : t.takeWhile p = [] ∧ t.dropWhile p = t := by
    cases t with
    | nil => simp
    | cons c t => simp_all
  rw [span, List.takeWhile_append_of_pos hs, List.dropWhile_append_of_pos hs, htake.1, htake.2,
    List.append_nil]

theorem skipWhile_append {p : Char → Bool} (hs : ∀ c ∈ s, p c = true) (ht : t.head?.any p = false)
    (m : Mark) : (⟨m, s ++ t⟩ : Cursor).skipWhile p = ⟨m.right s.length, t⟩ := by
  rw [skipWhile, span_append hs ht]

theorem skipWhile_of_head {p : Char → Bool} (ht : t.head?.any p = false) (m : Mark) :
    (⟨m, t⟩ : Cursor).skipWhile p = ⟨m, t⟩ := by
  have h := skipWhile_append (s := []) (fun c hc => nomatch hc) ht m
  simpa using h

theorem takeBreak_cons (hshown : isShown c = true) (hbreak : isBreak c = true) (m : Mark)
    (t : List Char) : (⟨m, c :: t⟩ : Cursor).takeBreak = ([c], ⟨m.down 1, t⟩) := by
  rcases break_cases hshown hbreak with rfl | rfl | rfl <;> rfl

theorem atMarker_of_column (h : m.column ≠ 0) (t : List Char) (marker : Char) :
    (⟨m, t⟩ : Cursor).atMarker marker = false := by
  simp [atMarker, h]

theorem atDocumentMarker_of_column (h : m.column ≠ 0) (t : List Char) :
    (⟨m, t⟩ : Cursor).atDocumentMarker = false := by
  simp [atDocumentMarker, atMarker_of_column h]

end Cursor

/-! ## Gaps -/

/-- A space or a break that is shown. -/
def IsGapChar (c : Char) : Prop := c = ' ' ∨ (isShown c = true ∧ isBreak c = true)

/-- One character more of a gap. -/
def Gap.add (g : Gap) (c : Char) : Gap :=
  if isBlank c then g.addBlank c else g.addBreak [c]

theorem readGap_space (margin : Option Int) (g : Gap) (m : Mark) (t : List Char) :
    readGap margin g m (' ' :: t) = readGap margin (g.add ' ') (m.right 1) t := by
  rw [readGap.eq_def margin g m (' ' :: t)]
  simp only
  rw [if_pos (by decide), if_neg (by simp)]
  rfl

theorem readGap_break (hshown : isShown c = true) (hbreak : isBreak c = true)
    (margin : Option Int) (g : Gap) (m : Mark) (t : List Char) :
    readGap margin g m (c :: t) = readGap margin (g.add c) (m.down 1) t := by
  rw [readGap.eq_def margin g m (c :: t)]
  rcases break_cases hshown hbreak with rfl | rfl | rfl <;> rfl

theorem readGap_stop (ht : t.head?.any isGap = false) (margin : Option Int) (g : Gap) (m : Mark) :
    readGap margin g m t = .ok (g, ⟨m, t⟩) := by
  cases t with
  | nil => rfl
  | cons c t =>
    simp only [List.head?_cons, Option.any_some, isGap, Bool.or_eq_false_iff] at ht
    have hcr : c ≠ '\r' := by
      rintro rfl
      exact absurd ht.2 (by decide)
    have hseparator : ¬ (c = '\u2028' ∨ c = '\u2029') := by
      rintro (rfl | rfl) <;> exact absurd ht.2 (by decide)
    unfold readGap
    rw [ht.1, if_neg Bool.false_ne_true, if_neg hcr, if_neg hseparator, ht.2,
      if_neg Bool.false_ne_true]

/-- Blanks and breaks are passed up to the first character of another kind. -/
theorem readGap_eq (hs : ∀ c ∈ s, IsGapChar c) (ht : t.head?.any isGap = false)
    (margin : Option Int) (g : Gap) (m : Mark) :
    readGap margin g m (s ++ t) = .ok (s.foldl Gap.add g, ⟨m.after s, t⟩) := by
  induction s generalizing g m with
  | nil => exact readGap_stop ht margin g m
  | cons c s ih =>
    have ih := ih fun d hd => hs d (List.mem_cons_of_mem c hd)
    rcases hs c (by simp) with rfl | ⟨hshown, hbreak⟩
    · rw [List.cons_append, readGap_space, ih, Mark.after_cons_of_not_break isBreak_space]
      rfl
    · rw [List.cons_append, readGap_break hshown hbreak, ih, Mark.after_cons_break hbreak]
      rfl

theorem foldl_addBlank (g : Gap) (hg : g.broken = false) (n : Nat) :
    (spaces n).foldl Gap.add g = { g with blanks := g.blanks ++ spaces n } := by
  induction n generalizing g with
  | zero => simp [spaces]
  | succ n ih =>
    rw [spaces, List.replicate_succ, List.foldl_cons, ← spaces, ih]
    · simp [Gap.add, Gap.addBlank, isBlank, hg]
    · simp [Gap.add, Gap.addBlank, isBlank, hg]

/-- Spaces within a line contribute themselves. -/
theorem Gap.text_spaces (n : Nat) : ((spaces n).foldl Gap.add {}).text = spaces n := by
  rw [foldl_addBlank {} rfl]
  rfl

theorem foldl_addBlank_broken (g : Gap) (hg : g.broken = true) (n : Nat) :
    (spaces n).foldl Gap.add g = g := by
  induction n with
  | zero => rfl
  | succ n ih =>
    rw [spaces, List.replicate_succ, List.foldl_cons, ← spaces]
    simpa [Gap.add, Gap.addBlank, isBlank, hg] using ih

theorem not_isBlank_of_isBreak (h : isBreak c = true) : isBlank c = false := by
  simp only [isBreak, Bool.or_eq_true, decide_eq_true_eq] at h
  rcases h with (((rfl | rfl) | rfl) | rfl) | rfl <;> decide

theorem foldl_addBreak (hs : ∀ c ∈ s, isBreak c = true) (g : Gap) (hg : g.broken = true) :
    s.foldl Gap.add g = { g with more := g.more ++ s } := by
  induction s generalizing g with
  | nil => simp
  | cons c s ih =>
    have hblank := not_isBlank_of_isBreak (hs c (by simp))
    rw [List.foldl_cons, ih (fun d hd => hs d (List.mem_cons_of_mem c hd))]
    · simp [Gap.add, Gap.addBreak, hblank, hg]
    · simp [Gap.add, Gap.addBreak, hblank, hg]

/-- Breaks other than line feeds contribute themselves, whatever the indentation behind them. -/
theorem Gap.text_breaks (hc : isBreak c = true) (hfeed : c ≠ '\n')
    (hs : ∀ d ∈ s, isBreak d = true) (n : Nat) :
    ((c :: s ++ spaces n).foldl Gap.add {}).text = c :: s := by
  have hblank := not_isBlank_of_isBreak hc
  have hfirst : Gap.add {} c = { first := [c], broken := true } := by
    simp [Gap.add, Gap.addBreak, hblank]
  rw [List.foldl_append, List.foldl_cons, hfirst, foldl_addBreak hs _ rfl,
    foldl_addBlank_broken _ rfl]
  simp [Gap.text, hfeed]

end RunCache.Yaml
