import RunCache.Proofs.Yaml.Arrival

/-! # Reading the tokens of a written document

    Every mark and every text that a document is written with is read as
    one token, behind which the lexer is in a known state.

    * **`Opens`**: a block that is opened unless it is open.
    * **`reads_dash`**, **`reads_keyMark`**, **`reads_valueMark`**: marks.
    * **`reads_quoted`**, **`reads_bare`**, **`reads_literal`**: texts.
    * **`reads_brackets`**: a list or mapping without entries. -/

namespace RunCache.Yaml.Lexer

variable {l : Lexer} {m : Mark} {rest more t w : List Char} {tokens tokens' : List Token}
  {indent : Int} {outer outer' : List Int} {allowed : Bool} {p : Option PendingKey} {column n : Nat}
  {c : Char} {block : Token}

/-! ## Opening blocks -/

/-- The tokens and indentations once a block at a column is open: it is new, or was open before. -/
inductive Opens (block : Token) (column : Nat) :
    Int → List Token → List Int → List Token → List Int → Prop
  | new {indent : Int} (tokens : List Token) (outer : List Int) : indent < column →
    Opens block column indent tokens outer (block :: tokens) (indent :: outer)
  | same (tokens : List Token) (outer : List Int) :
    Opens block column column tokens outer tokens outer

theorem Opens.le (h : Opens block column indent tokens outer tokens' outer') : indent ≤ column := by
  cases h with
  | new _ _ hlt => exact Int.le_of_lt hlt
  | same => exact Int.le_refl _

theorem Opens.indentTo (h : Opens block column indent tokens outer tokens' outer')
    (allowed : Bool) (p : Option PendingKey) (k : Cursor) :
    (state k tokens indent outer allowed p).indentTo column none block =
      state k tokens' column outer' allowed p := by
  cases h with
  | new _ _ hlt => simp [Lexer.indentTo, state, inFlow, push, hlt]
  | same => simp [Lexer.indentTo, state, inFlow]

/-! ## Markers -/

theorem atMarker_of_head {k : Cursor} {marker : Char} (h : k.rest.head? ≠ some marker) :
    k.atMarker marker = false := by
  unfold Cursor.atMarker
  split
  · next x y z rest hrest =>
    have hx : x ≠ marker := fun hx => h (by rw [hrest, hx]; rfl)
    simp [hx]
  · simp

theorem atMarker_of_gap (h : atGap rest = true) (marker c : Char) (hmarker : isGap marker = false) :
    (⟨m, c :: rest⟩ : Cursor).atMarker marker = false := by
  unfold Cursor.atMarker
  split
  · next x y z behind hrest =>
    have hrest : c :: rest = x :: y :: z :: behind := hrest
    have hy : isGap y = true := by
      rw [(List.cons.inj hrest).2] at h
      exact h
    have hne : y ≠ marker := fun heq => by rw [heq, hmarker] at hy; cases hy
    simp [hne]
  · simp

/-! ## Marks -/

/-- The mark of a list entry. -/
theorem reads_dash (hm : m.column = column) (hgap : atGap rest = true)
    (h : Opens .blockList column indent tokens outer tokens' outer') :
    Reads (state ⟨m, '-' :: rest⟩ tokens indent outer true none)
      (state ⟨m.right 1, rest⟩ (.dash :: tokens') column outer' true none) := by
  have hstart : StartsToken ('-' :: rest) := startsToken_cons (by decide) (by decide) (by decide)
  refine reads_of_addToken (arrive_at hstart (live_none m) (hm ▸ h.le)) rfl ?_ (by simp [state])
  have hdash : (⟨m, '-' :: rest⟩ : Cursor).atMarker '-' = false :=
    atMarker_of_gap hgap _ _ (by decide)
  have hdot : (⟨m, '-' :: rest⟩ : Cursor).atMarker '.' = false :=
    atMarker_of_head fun h => absurd (Option.some.inj h) (by decide)
  have hopen := h.indentTo true none ⟨m, '-' :: rest⟩
  rw [← hm] at hopen ⊢
  simp only [state] at hopen ⊢
  simp [addToken, hdash, hdot, hgap, addDash, hopen, inFlow, dropPending, pendingKey, setPending,
    Except.map, allowKey, push, skip, Cursor.skip]

/-- The mark of a key. -/
theorem reads_keyMark (hm : m.column = column) (hgap : atGap rest = true)
    (h : Opens .blockDict column indent tokens outer tokens' outer') :
    Reads (state ⟨m, '?' :: rest⟩ tokens indent outer true none)
      (state ⟨m.right 1, rest⟩ (.key :: tokens') column outer' true none) := by
  have hstart : StartsToken ('?' :: rest) := startsToken_cons (by decide) (by decide) (by decide)
  refine reads_of_addToken (arrive_at hstart (live_none m) (hm ▸ h.le)) rfl ?_ (by simp [state])
  have hmarker : ∀ marker, marker ≠ '?' → (⟨m, '?' :: rest⟩ : Cursor).atMarker marker = false :=
    fun marker hne => atMarker_of_head fun h => hne (Option.some.inj h).symm
  have hopen := h.indentTo true none ⟨m, '?' :: rest⟩
  rw [← hm] at hopen ⊢
  simp only [state] at hopen ⊢
  simp [addToken, hmarker, hgap, addKey, hopen, inFlow, dropPending, pendingKey, setPending,
    Except.map, allowKey, push, skip, Cursor.skip]

/-- The mark of a value on a line of its own. -/
theorem reads_valueMark (hm : m.column = column) (hgap : atGap rest = true) (tokens : List Token)
    (outer : List Int) :
    Reads (state ⟨m, ':' :: rest⟩ tokens column outer true none)
      (state ⟨m.right 1, rest⟩ (.value :: tokens) column outer true none) := by
  have hstart : StartsToken (':' :: rest) := startsToken_cons (by decide) (by decide) (by decide)
  refine reads_of_addToken (arrive_at hstart (live_none m) (Int.ofNat_le.mpr hm.ge)) rfl ?_
    (by simp [state])
  have hmarker : ∀ marker, marker ≠ ':' → (⟨m, ':' :: rest⟩ : Cursor).atMarker marker = false :=
    fun marker hne => atMarker_of_head fun h => hne (Option.some.inj h).symm
  have hsame : Opens .blockDict column column tokens outer tokens outer := .same tokens outer
  have hopen := hsame.indentTo true none ⟨m, ':' :: rest⟩
  rw [← hm] at hopen ⊢
  simp only [state] at hopen ⊢
  simp [addToken, hmarker, hgap, addValue, hopen, inFlow, pendingKey, allowKey, push, skip,
    Cursor.skip]

/-! ## Texts -/

/-- What is noted where a text begins. -/
def noted (allowed : Bool) (tokens : List Token) (indent : Int) (m : Mark) : Option PendingKey :=
  if allowed then some { tokensBefore := tokens.length, mark := m, required := decide (indent = m.column) }
  else none

theorem savePending_state (k : Cursor) :
    (state k tokens indent outer allowed none).savePending =
      .ok (state k tokens indent outer allowed (noted allowed tokens indent k.mark)) := by
  cases allowed <;>
    simp [savePending, state, dropPending, pendingKey, setPending, inFlow, noted, Except.map]

/-- A note of an earlier line is given up, unless a key is required. -/
theorem passed_noted (hindent : indent ≠ m.column) {m' : Mark} (hline : m.line < m'.line) :
    Passed (noted allowed tokens indent m) m' := by
  intro q hq
  cases allowed with
  | false => cases hq
  | true =>
    obtain rfl := Option.some.inj hq
    exact ⟨decide_eq_false hindent, hline⟩

/-- Text between quotes. -/
theorem reads_quoted {single : Bool} (h : Spelled single w t) (hrest : rest.head? ≠ some '\'')
    (hindent : indent ≤ m.column) (tokens : List Token) (outer : List Int) (allowed : Bool) :
    Reads (state ⟨m, quoteOf single :: (w ++ quoteOf single :: rest)⟩ tokens indent outer allowed none)
      (state ⟨m.after (quoteOf single :: (w ++ [quoteOf single])), rest⟩
        (.scalar false (String.ofList t) :: tokens) indent outer false
        (noted allowed tokens indent m)) := by
  have hstart : StartsToken (quoteOf single :: (w ++ quoteOf single :: rest)) := by
    refine startsToken_cons (isGap_quoteOf single) ?_ ?_ <;> cases single <;> decide
  refine reads_of_addToken (arrive_at hstart (live_none m) hindent) rfl ?_
    (by simp [state]; omega)
  have hmarker : ∀ marker, quoteOf single ≠ marker →
      (⟨m, quoteOf single :: (w ++ quoteOf single :: rest)⟩ : Cursor).atMarker marker = false :=
    fun marker hne => atMarker_of_head fun h => hne (Option.some.inj h)
  have hbreak : isBreak (quoteOf single) = false := by cases single <;> decide
  have hlength : w.length < (w ++ quoteOf single :: rest).length + 1 := by
    rw [List.length_append]
    omega
  have hread := readQuoted_spelled (m := m.right 1) h hrest (by simp [Mark.right]) hlength
  have hmark : m.after (quoteOf single :: (w ++ [quoteOf single])) =
      ((m.right 1).after w).right 1 := by
    rw [Mark.after_cons_of_not_break hbreak, Mark.after_append, Mark.after_cons_of_not_break hbreak,
      Mark.after_nil]
  -- The quote itself does not count as text, so the reader starts behind it.
  have hquoted : (state ⟨m, quoteOf single :: (w ++ quoteOf single :: rest)⟩ tokens indent outer
      allowed none).addQuoted single = .ok (state ⟨m.after (quoteOf single :: (w ++ [quoteOf single])), rest⟩
        (.scalar false (String.ofList t) :: tokens) indent outer false
        (noted allowed tokens indent m)) := by
    rw [addQuoted, addProperty, savePending_state]
    simp only [state, Cursor.skip, List.drop_succ_cons, List.drop_zero]
    rw [hread, hmark]
    rfl
  have hdash := hmarker '-' (by cases single <;> decide)
  have hdot := hmarker '.' (by cases single <;> decide)
  rw [← hquoted]
  simp only [state] at hdash hdot ⊢
  cases single <;> simp only [addToken, hdash, hdot] <;> simp [quoteOf, inFlow]

/-- How a bare text begins. -/
structure StartsBare (c : Char) (behind : List Char) : Prop where
  indicator : isIndicator c = false
  mark : c = '-' ∨ c = '?' ∨ c = ':' → atGap behind = false
  gap : isGap c = false
  order : c ≠ '\ufeff'

theorem startsBare_of_allows {behind : List Char} (h : allowsPlain (c :: behind) = true) :
    StartsBare c behind := by
  have hfits := fitsPlain_of_allows h (List.cons_ne_nil _ _)
  simp only [allowsPlain, Bool.not_eq_true', Bool.or_eq_false_iff] at h
  obtain ⟨⟨_, hmarked⟩, hmark⟩ := h
  simp only [startsMarked, Bool.or_eq_false_iff] at hmarked
  simp only [holdsMark, Bool.or_eq_false_iff] at hmark
  have hspace : c ≠ ' ' := fun hc => hfits.head.1 (by simp [hc])
  refine ⟨hmarked.1, ?_, not_isGap_of_shown (hfits.shown c (by simp)) (hfits.line c (by simp)) hspace,
    ?_⟩
  · rintro (rfl | rfl | rfl)
    · simpa using hmarked.2
    · simpa using hmarked.2
    · -- A colon is neither the last character nor before a gap.
      cases behind with
      | nil => exact absurd rfl hfits.last.2
      | cons d behind =>
        have hpair := hmark.1.1
        rw [hasPair, Bool.or_eq_false_iff] at hpair
        simpa [atGap_cons] using hpair.1
  · rintro rfl
    exact absurd (hfits.shown '\ufeff' (by simp)) (by decide)

/-- Nothing behind a bare text makes it a document marker. -/
theorem atMarker_bare {margin : Int} {tail passed : List Char} (h : startsLikeMarker t = false)
    (hne : t ≠ []) (htail : EndsPlain margin tail passed more) {marker : Char}
    (hmarker : marker = '-' ∨ marker = '.') :
    (⟨m, t ++ tail⟩ : Cursor).atMarker marker = false := by
  have hhead : ∀ d, tail.head? = some d → d ≠ marker := by
    intro d hd
    cases htail with
    | key =>
      obtain rfl := Option.some.inj hd
      rcases hmarker with rfl | rfl <;> decide
    | line =>
      obtain rfl := Option.some.inj hd
      rcases hmarker with rfl | rfl <;> decide
  unfold Cursor.atMarker
  split
  · next x y z rest hrest =>
    have hrest : t ++ tail = x :: y :: z :: rest := hrest
    by_cases hall : x = marker ∧ y = marker ∧ z = marker
    · exfalso
      obtain ⟨rfl, rfl, rfl⟩ := hall
      -- A marker would begin with the text, and go on into what is behind it if that is short.
      match t, h, hne with
      | [a], _, _ =>
        exact hhead _ (congrArg List.head? (List.cons.inj hrest).2) rfl
      | [a, b], _, _ =>
        exact hhead _ (congrArg List.head? (List.cons.inj (List.cons.inj hrest).2).2) rfl
      | a :: b :: d :: t, h, _ =>
        simp only [List.cons_append, List.cons.injEq] at hrest
        obtain ⟨rfl, rfl, rfl, _⟩ := hrest
        rcases hmarker with rfl | rfl <;> cases h
    · simp only [Bool.and_eq_false_iff, decide_eq_false_iff_not]
      grind
  · simp

theorem addToken_bare {behind tail passed : List Char} {margin : Int}
    (h : allowsPlain (c :: behind) = true) (htail : EndsPlain margin tail passed more) :
    (state ⟨m, c :: behind ++ tail⟩ tokens indent outer allowed p).addToken c (behind ++ tail) =
      (state ⟨m, c :: behind ++ tail⟩ tokens indent outer allowed p).addPlain := by
  obtain ⟨hindicator, hmark, hgap, _⟩ := startsBare_of_allows h
  have hmarker : startsLikeMarker (c :: behind) = false := by
    simp only [allowsPlain, Bool.not_eq_true', Bool.or_eq_false_iff] at h
    exact h.1.1.2
  have hdash := atMarker_bare (m := m) hmarker (List.cons_ne_nil _ _) htail (.inl rfl)
  have hdot := atMarker_bare (m := m) hmarker (List.cons_ne_nil _ _) htail (.inr rfl)
  -- An indicator that begins bare text stands close to what is behind it.
  have hbehind : c = '-' ∨ c = '?' ∨ c = ':' → atGap (behind ++ tail) = false := by
    intro hc
    have hgap := hmark hc
    cases behind with
    | nil => cases hgap
    | cons d behind => exact hgap
  have hblank : isBlank c = false := (Bool.or_eq_false_iff.mp hgap).1
  have hnext : atGap (behind ++ tail) = false → (behind ++ tail).head?.any isBlank = false := by
    intro h
    cases hrest : behind ++ tail with
    | nil => rfl
    | cons d rest =>
      rw [hrest] at h
      exact (Bool.or_eq_false_iff.mp h).1
  have hstarts : startsPlain false c (behind ++ tail) = true := by
    unfold startsPlain
    simp [isIndicator] at hindicator
    split
    · next hc =>
      rw [hnext (hbehind (.inl hc))]
      rfl
    · split
      · next hc => simp [hbehind (.inr hc)]
      · simp [hblank, hindicator]
  simp only [isIndicator, List.contains_cons, Bool.or_eq_false_iff, beq_eq_false_iff_ne] at hindicator
  simp only [state] at hdash hdot ⊢
  simp only [addToken, hdash, hdot]
  simp [hindicator, inFlow, hstarts]
  grind


/-- Text without any mark. -/
theorem reads_bare {tail passed : List Char} (h : allowsPlain t = true) (hne : t ≠ [])
    (htail : EndsPlain (indent + 1) tail passed more) (hindent : indent ≤ m.column)
    (tokens : List Token) (outer : List Int) (allowed : Bool) :
    Reads (state ⟨m, t ++ tail⟩ tokens indent outer allowed none)
      (state ⟨m.after (t ++ passed), more⟩ (.scalar true (String.ofList t) :: tokens) indent outer
        (!passed.isEmpty) (noted allowed tokens indent m)) := by
  have hmarker : startsLikeMarker t = false := by
    simp only [allowsPlain, Bool.not_eq_true', Bool.or_eq_false_iff] at h
    exact h.1.1.2
  have hdocument : (⟨m, t ++ tail⟩ : Cursor).atDocumentMarker = false := by
    rw [Cursor.atDocumentMarker, atMarker_bare hmarker hne htail (.inl rfl),
      atMarker_bare hmarker hne htail (.inr rfl)]
    rfl
  have hread : readPlain false (indent + 1) [] {} ((t ++ tail).length + 1) ⟨m, t ++ tail⟩ =
      .ok (t, !passed.isEmpty, ⟨m.after (t ++ passed), more⟩) :=
    readPlain_eq (fitsPlain_of_allows h hne) htail hdocument (by omega) (by rw [List.length_append]; omega)
  have hplain : (state ⟨m, t ++ tail⟩ tokens indent outer allowed none).addPlain =
      .ok (state ⟨m.after (t ++ passed), more⟩ (.scalar true (String.ofList t) :: tokens) indent outer
        (!passed.isEmpty) (noted allowed tokens indent m)) := by
    rw [addPlain, savePending_state]
    simp only [state, inFlow, ne_eq, not_true_eq_false, decide_false, hread]
    rfl
  obtain ⟨c, behind, rfl⟩ := List.exists_cons_of_ne_nil hne
  obtain ⟨hindicator, _, hgap, horder⟩ := startsBare_of_allows h
  have hcomment : c ≠ '#' := by
    rintro rfl
    exact absurd hindicator (by decide)
  have hlength : more.length < (c :: behind ++ tail).length := by
    have hle := htail.length_le
    rw [List.length_append, List.length_cons]
    omega
  refine reads_of_addToken (arrive_at (startsToken_cons hgap hcomment horder) (live_none m) hindent)
    rfl ?_ hlength
  rw [← hplain]
  exact addToken_bare h htail

theorem addToken_bar (text : List Char) :
    (state ⟨m, '|' :: text⟩ tokens indent outer allowed p).addToken '|' text =
      (state ⟨m, '|' :: text⟩ tokens indent outer allowed p).addBlock false := by
  have hmarker : ∀ marker, '|' ≠ marker → (⟨m, '|' :: text⟩ : Cursor).atMarker marker = false :=
    fun marker hne => atMarker_of_head fun h => hne (Option.some.inj h)
  have hdash := hmarker '-' (by decide)
  have hdot := hmarker '.' (by decide)
  simp only [state] at hdash hdot ⊢
  simp only [addToken, hdash, hdot]
  simp [inFlow]

/-- Text over several lines. -/
theorem reads_literal (hshown : ∀ c ∈ t, isShown c = true) (hne : t ≠ []) (hn : n ≤ column)
    (hmore : more.head?.any isGap = false) (hm : column ≤ m.column) (tokens : List Token)
    (outer : List Int) (allowed : Bool) :
    Reads (state ⟨m, literalHeader t ++ '\n' :: (literalLines (column + 2) true t ++ lineEnd t ++
        (spaces n ++ more))⟩ tokens column outer allowed none)
      (state ⟨m.after (literalHeader t ++ '\n' :: (literalLines (column + 2) true t ++ lineEnd t ++
        spaces n)), more⟩ (.scalar false (String.ofList t) :: tokens) column outer true none) := by
  rw [literalHeader_eq, List.cons_append, List.cons_append]
  have hstart : ∀ text, StartsToken ('|' :: text) :=
    fun text => startsToken_cons (by decide) (by decide) (by decide)
  refine reads_of_addToken (arrive_at (hstart _) (live_none m) (Int.ofNat_le.mpr hm)) rfl ?_
    (by simp [state]; omega)
  have hread := readBlock_eq (m := m.right 1) hshown hne (Nat.lt_succ_of_le (Nat.le_succ_of_le hn))
    hmore
  rw [addToken_bar, addBlock]
  simp only [state, dropPending, pendingKey, List.head?_cons, Option.join_some, Option.any_none,
    Bool.false_eq_true, if_false, Cursor.skip, setPending, List.drop_succ_cons, List.drop_zero]
  rw [hread, Mark.after_cons_of_not_break (by decide)]
  rfl

/-! ## Keys and brackets -/

/-- A colon behind a text of the same line makes the text a key. -/
theorem reads_colon {m' : Mark} (text : Token) (hgap : atGap rest = true)
    (hline : m'.line = m.line) (hnear : m'.index ≤ m.index + maxKeyLength)
    (hindent : indent ≤ m'.column)
    (h : Opens .blockDict m.column indent tokens outer tokens' outer') :
    Reads (state ⟨m', ':' :: rest⟩ (text :: tokens) indent outer false
        (noted true tokens indent m))
      (state ⟨m'.right 1, rest⟩ (.value :: text :: .key :: tokens') m.column outer' false none) := by
  have hstart : StartsToken (':' :: rest) := startsToken_cons (by decide) (by decide) (by decide)
  have hlive : Live (noted true tokens indent m) m' := by
    intro q hq
    obtain rfl := Option.some.inj hq
    simp [PendingKey.isStale, hline, hnear]
  refine reads_of_addToken (arrive_at hstart hlive hindent) rfl ?_ (by simp [state])
  have hmarker : ∀ marker, ':' ≠ marker → (⟨m', ':' :: rest⟩ : Cursor).atMarker marker = false :=
    fun marker hne => atMarker_of_head fun h => hne (Option.some.inj h)
  have hdash := hmarker '-' (by decide)
  have hdot := hmarker '.' (by decide)
  simp only [state] at hdash hdot ⊢
  simp only [addToken, hdash, hdot]
  simp only [hgap, addValue, pendingKey, noted, List.head?_cons, Option.join_some, if_true,
    insertAfter, List.length_cons]
  cases h with
  | new _ _ hlt =>
    have htwo : tokens.length + 1 + 1 - tokens.length = 2 := by omega
    simp [Lexer.indentTo, inFlow, hlt, insertAfter, setPending, allowKey, push, skip, Cursor.skip,
      htwo]
  | same =>
    simp [Lexer.indentTo, inFlow, setPending, allowKey, push, skip, Cursor.skip]

/-- The brackets of a list or mapping, and their tokens. -/
inductive Brackets : Char → Char → Token → Token → Prop
  | list : Brackets '[' ']' .openList .closeList
  | dict : Brackets '\x7b' '\x7d' .openDict .closeDict

/-- Brackets with nothing between them. -/
theorem reads_brackets {first last : Char} {opening closing : Token}
    (h : Brackets first last opening closing) (hindent : indent ≤ m.column) :
    Reads (state ⟨m, first :: last :: rest⟩ tokens indent outer allowed none)
      (state ⟨m.right 2, rest⟩ (closing :: opening :: tokens) indent outer false
        (noted allowed tokens indent m)) := by
  have hfirst : StartsToken (first :: last :: rest) := by
    cases h <;> exact startsToken_cons (by decide) (by decide) (by decide)
  have hlast : StartsToken (last :: rest) := by
    cases h <;> exact startsToken_cons (by decide) (by decide) (by decide)
  have hmarker : ∀ (m : Mark) (c marker : Char) (rest : List Char), c ≠ marker →
      (⟨m, c :: rest⟩ : Cursor).atMarker marker = false :=
    fun m c marker rest hne => atMarker_of_head fun h => hne (Option.some.inj h)
  -- The lexer between the brackets.
  generalize hinside : ({ state ⟨m.right 1, last :: rest⟩ (opening :: tokens) indent outer true none with
      flow := 1, pending := [none, noted allowed tokens indent m] } : Lexer) = inside
  have hopen : Reads (state ⟨m, first :: last :: rest⟩ tokens indent outer allowed none) inside := by
    refine reads_of_addToken (arrive_at hfirst (live_none m) hindent) rfl ?_
      (by simp [← hinside, state])
    have hopen : (state ⟨m, first :: last :: rest⟩ tokens indent outer allowed none).openFlow opening =
        .ok inside := by
      rw [openFlow, savePending_state, ← hinside]
      rfl
    rw [← hopen]
    simp only [state]
    cases h <;> simp [addToken, hmarker]
  have harrive : inside.arrive = .ok inside := by
    have hskip := skipToToken_spaces hlast inside (m.right 1) 0 (last :: rest).length
    have hnear : ∀ q ∈ noted allowed tokens indent m, PendingKey.isStale q (m.right 1) = false := by
      intro q hq
      cases allowed with
      | false => cases hq
      | true =>
        obtain rfl := Option.some.inj hq
        simp [PendingKey.isStale, Mark.right, maxKeyLength]
    rw [show spaces 0 ++ last :: rest = last :: rest from rfl, Mark.right_zero] at hskip
    rw [arrive]
    simp only [← hinside, state] at hskip ⊢
    rw [hskip]
    cases hnoted : noted allowed tokens indent m with
    | none => simp [dropStale, Except.map, dedentTo, inFlow]
    | some q =>
      rw [hnoted] at hnear
      simp [dropStale, Except.map, dedentTo, inFlow, hnear q rfl, Option.filter]
  refine hopen.trans (reads_of_addToken harrive (by rw [← hinside]; rfl) ?_
    (by simp [← hinside, state]))
  have hclose : inside.closeFlow closing = .ok (state ⟨m.right 2, rest⟩ (closing :: opening :: tokens)
      indent outer false (noted allowed tokens indent m)) := by
    rw [← hinside]
    rfl
  rw [← hclose]
  simp only [← hinside, state]
  cases h <;> simp [addToken, hmarker]

end RunCache.Yaml.Lexer
