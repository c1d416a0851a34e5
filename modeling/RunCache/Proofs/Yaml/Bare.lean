import RunCache.Proofs.Yaml.Quoted

/-! # Bare text is read back

    Bare text consists of pieces without blanks and spaces between them.
    It ends before the colon of a key or at the end of its line.

    * **`FitsPlain`**: what may stand bare.
    * **`readPlain_colon`**, **`readPlain_gap`**: what ends a piece.
    * **`readPlain_eq`**: bare text is read up to its end. -/

namespace RunCache.Yaml

variable {p rest t tail more soFar : List Char} {m : Mark} {c : Char} {margin : Int} {gap : Gap}

theorem not_isGap_of_shown (hshown : isShown c = true) (hbreak : isBreak c = false) (hc : c ≠ ' ') :
    isGap c = false := by
  simp [isGap, isBlank_of_isShown hshown, hbreak, hc]

theorem atGap_cons (c : Char) (t : List Char) : atGap (c :: t) = isGap c := rfl

/-! ## Pieces -/

/-- A piece ends before a gap and before a colon with a gap behind it. -/
theorem readPlainPiece_eq (hp : ∀ c ∈ p, isGap c = false)
    (hlast : p.getLast? = some ':' → atGap rest = false)
    (hstop : atGap rest = true ∨ ∃ behind, rest = ':' :: behind ∧ atGap behind = true) :
    readPlainPiece false m (p ++ rest) = .ok (p, ⟨m.right p.length, rest⟩) := by
  induction p generalizing m with
  | nil =>
    rcases hstop with hgap | ⟨behind, rfl, hgap⟩
    · cases rest with
      | nil => rfl
      | cons x rest =>
        have hx : (isBlank x || isBreak x) = true := hgap
        simp [readPlainPiece, hx]
    · simp [readPlainPiece, hgap]
  | cons c p ih =>
    have hc : (isBlank c || isBreak c) = false := hp c (by simp)
    have hcolon : ¬ (c = ':' ∧ atGap (p ++ rest) = true) := by
      rintro ⟨rfl, hgap⟩
      cases p with
      | nil =>
        rw [List.nil_append, hlast rfl] at hgap
        cases hgap
      | cons d p =>
        rw [List.cons_append, atGap_cons, hp d (by simp)] at hgap
        cases hgap
    have hlast : p.getLast? = some ':' → atGap rest = false := by
      intro h
      refine hlast ?_
      rw [List.getLast?_cons, h]
      rfl
    rw [List.cons_append, readPlainPiece, hc, ih (fun d hd => hp d (List.mem_cons_of_mem c hd)) hlast]
    simp [hcolon, Except.map, Mark.right_right, Nat.add_comm]

/-! ## Whole texts -/

/-- What may stand bare. -/
structure FitsPlain (t : List Char) : Prop where
  ne_nil : t ≠ []
  shown : ∀ c ∈ t, isShown c = true
  line : ∀ c ∈ t, isBreak c = false
  apart : t.IsChain fun c d => (c = ':' → d ≠ ' ') ∧ (c = ' ' → d ≠ '#')
  head : t.head? ≠ some ' ' ∧ t.head? ≠ some '#'
  last : t.getLast? ≠ some ' ' ∧ t.getLast? ≠ some ':'

/-- A piece of such a text. -/
structure IsPiece (p : List Char) : Prop where
  ne_nil : p ≠ []
  gap : ∀ c ∈ p, isGap c = false
  last : p.getLast? ≠ some ':'
  head : p.head? ≠ some '#'

/-- Text up to its first space, the spaces there and the rest. -/
theorem exists_first_space (t : List Char) : ∃ p n rest, t = p ++ (spaces n ++ rest) ∧
    (∀ c ∈ p, c ≠ ' ') ∧ rest.head? ≠ some ' ' ∧ (n = 0 → rest = []) := by
  induction t with
  | nil => exact ⟨[], 0, [], rfl, by simp, by simp, fun _ => rfl⟩
  | cons c t ih =>
    by_cases hc : c = ' '
    · obtain ⟨n, rest, hrest, hhead⟩ := exists_spaces (c :: t)
      refine ⟨[], n, rest, hrest, by simp, hhead, ?_⟩
      rintro rfl
      rw [spaces, List.replicate_zero, List.nil_append] at hrest
      rw [← hrest, hc] at hhead
      exact absurd rfl hhead
    · obtain ⟨p, n, rest, rfl, hp, hhead, hnil⟩ := ih
      exact ⟨c :: p, n, rest, rfl, List.forall_mem_cons.mpr ⟨hc, hp⟩, hhead, hnil⟩

/-- What stands before the first spaces ends without a colon, and what stands behind them may stand
    bare as well. -/
theorem FitsPlain.behind {n : Nat} (h : FitsPlain (p ++ (spaces (n + 1) ++ rest)))
    (hhead : rest.head? ≠ some ' ') : p.getLast? ≠ some ':' ∧ FitsPlain rest := by
  obtain ⟨_, hrest, hjoint⟩ := List.isChain_append.mp h.apart
  obtain ⟨_, hrest, hspace⟩ := List.isChain_append.mp hrest
  have hlastSpace : (spaces (n + 1)).getLast? = some ' ' := by
    rw [spaces, List.getLast?_replicate, if_neg (by omega)]
  have hne : rest ≠ [] := by
    rintro rfl
    refine h.last.1 ?_
    rw [List.append_nil, List.getLast?_append, hlastSpace]
    rfl
  have hlast : (p ++ (spaces (n + 1) ++ rest)).getLast? = rest.getLast? := by
    rw [List.getLast?_append, List.getLast?_append, List.getLast?_eq_some_getLast hne]
    rfl
  refine ⟨fun hcolon => (hjoint ':' hcolon ' ' rfl).1 rfl rfl, hne, ?_, ?_, hrest, ⟨hhead, ?_⟩,
    hlast ▸ h.last⟩
  · exact fun c hc => h.shown c (List.mem_append_right _ (List.mem_append_right _ hc))
  · exact fun c hc => h.line c (List.mem_append_right _ (List.mem_append_right _ hc))
  · intro hhash
    exact (hspace ' ' hlastSpace '#' hhash).2 rfl rfl

/-- Bare text is a piece, or a piece, spaces and further text. -/
theorem FitsPlain.cases (h : FitsPlain t) : ∃ p, IsPiece p ∧
    (t = p ∨ ∃ n rest, t = p ++ (spaces (n + 1) ++ rest) ∧ FitsPlain rest) := by
  obtain ⟨p, n, rest, rfl, hp, hhead, hnil⟩ := exists_first_space t
  have hgap : ∀ c ∈ p, isGap c = false := fun c hc =>
    not_isGap_of_shown (h.shown c (List.mem_append_left _ hc)) (h.line c (List.mem_append_left _ hc))
      (hp c hc)
  have hne : p ≠ [] := by
    rintro rfl
    cases n with
    | zero =>
      rw [hnil rfl] at h
      exact h.ne_nil rfl
    | succ n => exact h.head.1 rfl
  have hhash : p.head? ≠ some '#' := by
    obtain ⟨x, p, rfl⟩ := List.exists_cons_of_ne_nil hne
    exact h.head.2
  cases n with
  | zero =>
    -- Without a space behind the piece nothing follows it.
    rw [hnil rfl, spaces, List.replicate_zero, List.append_nil, List.append_nil] at h ⊢
    exact ⟨p, ⟨hne, hgap, h.last.2, hhash⟩, .inl rfl⟩
  | succ n =>
    obtain ⟨hcolon, hrest⟩ := h.behind hhead
    exact ⟨p, ⟨hne, hgap, hcolon, hhash⟩, .inr ⟨n, rest, rfl, hrest⟩⟩

/-- What may stand behind bare text: a colon before a gap, or the end of the line and the
    indentation of the next one, which is less than the margin. -/
inductive EndsPlain (margin : Int) : (tail : List Char) → (passed more : List Char) → Prop
  | key {behind : List Char} : atGap behind = true → EndsPlain margin (':' :: behind) [] (':' :: behind)
  | line {n : Nat} {more : List Char} : (n : Int) < margin → more.head?.any isGap = false →
    EndsPlain margin ('\n' :: spaces n ++ more) ('\n' :: spaces n) more

theorem EndsPlain.length_le {passed : List Char} (h : EndsPlain margin tail passed more) :
    more.length ≤ tail.length := by
  cases h with
  | key => exact Nat.le_refl _
  | line =>
    rw [List.length_append]
    exact Nat.le_add_left _ _

theorem not_isBreak_of_not_isGap (h : isGap c = false) : isBreak c = false := by
  simp only [isGap, Bool.or_eq_false_iff] at h
  exact h.2

/-- A piece is taken whole. -/
theorem IsPiece.read (hp : IsPiece p)
    (hstop : atGap rest = true ∨ ∃ behind, rest = ':' :: behind ∧ atGap behind = true) :
    (p ++ rest).head? ≠ some '#' ∧ p.isEmpty = false ∧
      readPlainPiece false m (p ++ rest) = .ok (p, ⟨m.after p, rest⟩) := by
  have hmark : m.after p = m.right p.length :=
    Mark.after_of_line fun c hc => not_isBreak_of_not_isGap (hp.gap c hc)
  refine ⟨?_, by simpa using hp.ne_nil, ?_⟩
  · have hhead := hp.head
    obtain ⟨x, p, rfl⟩ := List.exists_cons_of_ne_nil hp.ne_nil
    exact hhead
  · rw [hmark]
    exact readPlainPiece_eq hp.gap (fun h => absurd h hp.last) hstop

/-- A colon before a gap ends the text. -/
theorem readPlain_colon (hp : IsPiece p) (hrest : atGap rest = true)
    (hstart : (⟨m, p ++ ':' :: rest⟩ : Cursor).atDocumentMarker = false) (steps : Nat) :
    readPlain false margin soFar gap (steps + 1) ⟨m, p ++ ':' :: rest⟩ =
      .ok (soFar ++ gap.text ++ p, false, ⟨m.after p, ':' :: rest⟩) := by
  obtain ⟨hhead, hempty, hpiece⟩ := hp.read (m := m) (.inr ⟨rest, rfl, hrest⟩)
  have hcolon : atGap (':' :: rest) = false := rfl
  rw [readPlain]
  simp only [hstart, hhead, decide_false, Bool.or_false, Bool.false_eq_true, if_false, hpiece, hempty,
    hcolon, Bool.false_and]

/-- Behind a gap reading goes on, unless the line there begins left of the margin. -/
theorem readPlain_gap {g : Gap} {k : Cursor} (hp : IsPiece p) (hrest : rest.head?.any isGap = true)
    (hgap : readGap (some margin) {} (m.after p) rest = .ok (g, k))
    (hstart : (⟨m, p ++ rest⟩ : Cursor).atDocumentMarker = false) (steps : Nat) :
    readPlain false margin soFar gap (steps + 1) ⟨m, p ++ rest⟩ =
      if (k.mark.column : Int) < margin then .ok (soFar ++ gap.text ++ p, g.broken, k)
      else readPlain false margin (soFar ++ gap.text ++ p) g steps k := by
  obtain ⟨c, rest, rfl⟩ : ∃ c cs, rest = c :: cs :=
    List.exists_cons_of_ne_nil (by rintro rfl; cases hrest)
  have hc : atGap (c :: rest) = true := hrest
  obtain ⟨hhead, hempty, hpiece⟩ := hp.read (m := m) (.inl hc)
  rw [readPlain]
  simp only [hstart, hhead, decide_false, Bool.or_false, Bool.false_eq_true, if_false, hpiece, hempty,
    hc, List.isEmpty_cons, Bool.not_false, Bool.and_self, if_true, hgap, Bool.true_and,
    decide_eq_true_eq]

theorem readPlain_last {passed : List Char} (hp : IsPiece p)
    (htail : EndsPlain margin tail passed more)
    (hstart : (⟨m, p ++ tail⟩ : Cursor).atDocumentMarker = false) (steps : Nat) :
    readPlain false margin soFar gap (steps + 1) ⟨m, p ++ tail⟩ =
      .ok (soFar ++ gap.text ++ p, !passed.isEmpty, ⟨m.after (p ++ passed), more⟩) := by
  cases htail with
  | key hbehind =>
    rw [readPlain_colon hp hbehind hstart, List.append_nil]
    rfl
  | @line n more hn hmore =>
    have hbreak : ∀ c ∈ '\n' :: spaces n, IsGapChar c := by
      intro c hc
      rcases List.mem_cons.mp hc with rfl | hc
      · exact .inr ⟨by decide, by decide⟩
      · exact .inl (List.eq_of_mem_replicate hc)
    have hcolumn : ((m.after p).after ('\n' :: spaces n)).column = n :=
      Mark.column_after_spaces (by decide) _ [] n
    have hbroken : (('\n' :: spaces n).foldl Gap.add {}).broken = true := by
      rw [List.foldl_cons, foldl_addBlank_broken _ rfl]
      rfl
    have hgap := readGap_eq hbreak hmore (some margin) {} (m.after p)
    rw [readPlain_gap hp rfl hgap hstart, hcolumn, if_pos hn, hbroken, ← Mark.after_append]
    rfl

/-- Bare text is read up to its end. -/
theorem readPlain_eq {passed : List Char} (h : FitsPlain t) (htail : EndsPlain margin tail passed more)
    (hstart : (⟨m, t ++ tail⟩ : Cursor).atDocumentMarker = false)
    (hmargin : margin ≤ m.column + 1) {steps : Nat} (hsteps : t.length < steps) :
    readPlain false margin soFar gap steps ⟨m, t ++ tail⟩ =
      .ok (soFar ++ gap.text ++ t, !passed.isEmpty, ⟨m.after (t ++ passed), more⟩) := by
  induction hlen : t.length using Nat.strong_induction_on generalizing t m soFar gap steps with
  | _ len ih =>
    obtain ⟨steps, rfl⟩ : ∃ i, steps = i + 1 := ⟨steps - 1, by omega⟩
    obtain ⟨p, hp, rfl | ⟨n, rest, rfl, hrest⟩⟩ := h.cases
    · -- The last piece, or one with spaces and further pieces behind it.
      exact readPlain_last hp htail hstart steps
    · have hpos := List.length_pos_of_ne_nil hp.ne_nil
      rw [List.length_append, List.length_append, spaces, List.length_replicate] at hlen
      have hnext : (rest ++ tail).head?.any isGap = false := by
        obtain ⟨x, behind, rfl⟩ := List.exists_cons_of_ne_nil hrest.ne_nil
        refine not_isGap_of_shown (hrest.shown x (by simp)) (hrest.line x (by simp)) fun hx => ?_
        exact hrest.head.1 (by simp [hx])
      have hmark : (m.after p).after (spaces (n + 1)) = m.right (p.length + (n + 1)) := by
        rw [Mark.after_of_line fun c hc => not_isBreak_of_not_isGap (hp.gap c hc), Mark.after_spaces,
          Mark.right_right]
      have hcolumn : (m.right (p.length + (n + 1))).column = m.column + (p.length + (n + 1)) := rfl
      have hmargin' : ¬ ((m.right (p.length + (n + 1))).column : Int) < margin := by omega
      rw [List.append_assoc, List.append_assoc] at hstart ⊢
      have hgap := readGap_eq (s := spaces (n + 1))
        (fun c hc => .inl (List.eq_of_mem_replicate hc)) hnext (some margin) {} (m.after p)
      rw [readPlain_gap hp rfl hgap hstart]
      simp only [hmark, hmargin', if_false]
      rw [List.length_append, List.length_append, spaces, List.length_replicate] at hsteps
      rw [ih rest.length (by omega) hrest
        (Cursor.atDocumentMarker_of_column (by omega) _) (by omega) (by omega) rfl,
        Gap.text_spaces, ← hmark]
      simp only [← List.append_assoc, ← Mark.after_append]

end RunCache.Yaml
