import RunCache.Proofs.Yaml.Choice
import RunCache.Yaml.Token

/-! # From token to token

    A run of the lexer alternates between arriving at the next token and
    adding it.  Where it arrives it has left blanks and breaks behind,
    given up the keys that can no longer be ones and closed the blocks
    that are deeper.

    * **`Lexer.arrive`**: the lexer at its next token.
    * **`Lexer.Reads`**: reading goes on from another lexer.
    * **`Reaches`**: reading goes on at the start of a line.
    * **`state`**, **`behind`**: a lexer outside of brackets, and one
      behind an entry.
    * **`arrive_within`**, **`arrive_line`**, **`arrive_at`**: arriving in
      the same line, in the next one, and where the lexer is. -/

namespace RunCache.Yaml.Lexer

variable {l l' l'' : Lexer} {m : Mark} {rest more : List Char} {tokens : List Token} {indent indent' : Int}
  {outer : List Int} {allowed : Bool} {p : Option PendingKey} {n : Nat} {c : Char}

/-! ## Runs -/

/-- The lexer at its next token. -/
def arrive (l : Lexer) : Except Fault Lexer :=
  (skipToToken (l.cursor.rest.length + 1) l).dropStale.map fun l => l.dedentTo l.cursor.mark.column

/-- What a run does at the next token. -/
def proceed (steps : Nat) (l : Lexer) : Except Fault Lexer :=
  match l.cursor.rest with
  | [] => l.finish
  | c :: rest =>
    match l.addToken c rest with
    | .error e => .error e
    | .ok l => run steps l

theorem run_succ (steps : Nat) (l : Lexer) :
    run (steps + 1) l = match l.arrive with
      | .error e => .error e
      | .ok l => proceed steps l := by
  rw [run, arrive]
  cases (skipToToken (l.cursor.rest.length + 1) l).dropStale <;> rfl

/-- Reading from a lexer goes on as from another one, with steps left for all of its text. -/
def Reads (l l' : Lexer) : Prop :=
  ∀ steps, l.cursor.rest.length < steps → ∃ steps', l'.cursor.rest.length < steps' ∧
    run steps l = run steps' l'

theorem Reads.trans (h : Reads l l') (h' : Reads l' l'') : Reads l l'' := by
  intro steps hsteps
  obtain ⟨i, hi, hrun⟩ := h steps hsteps
  obtain ⟨j, hj, hrun'⟩ := h' i hi
  exact ⟨j, hj, hrun.trans hrun'⟩

/-- Lexers that arrive at the same token read the same. -/
theorem reads_of_arrive (h : l.arrive = .ok l'') (h' : l'.arrive = .ok l'')
    (hle : l'.cursor.rest.length ≤ l.cursor.rest.length) : Reads l l' := by
  intro steps hsteps
  obtain ⟨i, rfl⟩ : ∃ i, steps = i + 1 := ⟨steps - 1, by omega⟩
  refine ⟨i + 1, by omega, ?_⟩
  rw [run_succ, run_succ, h, h']

/-- Adding a token is a step. -/
theorem reads_of_addToken (h : l.arrive = .ok l') (hrest : l'.cursor.rest = c :: rest)
    (htoken : l'.addToken c rest = .ok l'')
    (hlt : l''.cursor.rest.length < l.cursor.rest.length) : Reads l l'' := by
  intro steps hsteps
  obtain ⟨i, rfl⟩ : ∃ i, steps = i + 1 := ⟨steps - 1, by omega⟩
  refine ⟨i, by omega, ?_⟩
  rw [run_succ, h]
  simp only [proceed, hrest, htoken]

/-! ## Lexers outside of brackets -/

/-- A lexer outside of brackets. -/
def state (k : Cursor) (tokens : List Token) (indent : Int) (outer : List Int) (allowed : Bool)
    (p : Option PendingKey) : Lexer :=
  { cursor := k, tokens, count := tokens.length, indent, outer, keyAllowed := allowed, pending := [p] }

/-- A lexer behind an entry: blocks that are deeper than the place it has come to are closed. -/
def behind (k : Cursor) (tokens : List Token) (indent : Int) (outer : List Int) : Lexer :=
  (state k tokens indent outer true none).dedentTo k.mark.column

theorem closeBlocks_of_le {count : Nat} {column : Int} (h : indent ≤ column) :
    closeBlocks tokens count column indent outer = (tokens, count, indent, outer) := by
  cases outer with
  | nil => rfl
  | cons i outer => rw [closeBlocks, if_neg (by omega)]

theorem closeBlocks_closeBlocks (tokens : List Token) (count : Nat) (column indent : Int)
    (outer : List Int) : ∀ tokens' count' indent' outer',
      closeBlocks tokens count column indent outer = (tokens', count', indent', outer') →
      closeBlocks tokens' count' column indent' outer' = (tokens', count', indent', outer') := by
  induction outer generalizing tokens count indent with
  | nil =>
    intro tokens' count' indent' outer' h
    simp only [closeBlocks, Prod.mk.injEq] at h
    obtain ⟨rfl, rfl, rfl, rfl⟩ := h
    rfl
  | cons i outer ih =>
    intro tokens' count' indent' outer' h
    rw [closeBlocks] at h
    split at h
    · exact ih _ _ _ tokens' count' indent' outer' h
    · next hle =>
      simp only [Prod.mk.injEq] at h
      obtain ⟨rfl, rfl, rfl, rfl⟩ := h
      exact closeBlocks_of_le (Int.not_lt.mp hle)

theorem state_dedentTo {column : Int} (h : indent ≤ column) (k : Cursor) (tokens : List Token)
    (outer : List Int) (allowed : Bool) (p : Option PendingKey) :
    (state k tokens indent outer allowed p).dedentTo column =
      state k tokens indent outer allowed p := by
  simp [dedentTo, state, inFlow, closeBlocks_of_le h]

theorem dedentTo_dedentTo (l : Lexer) (column : Int) :
    (l.dedentTo column).dedentTo column = l.dedentTo column := by
  unfold dedentTo
  by_cases h : l.inFlow = true
  · simp [h]
  · simp only [Bool.not_eq_true] at h
    have hidem := closeBlocks_closeBlocks l.tokens l.count column l.indent l.outer _ _ _ _ rfl
    have hflow : ∀ (t : List Token) (n : Nat) (i : Int) (o : List Int),
        ({ l with tokens := t, count := n, indent := i, outer := o } : Lexer).inFlow = false :=
      fun _ _ _ _ => h
    simp [h, hflow, hidem]

theorem behind_of_le {k : Cursor} (h : indent ≤ k.mark.column) :
    behind k tokens indent outer = state k tokens indent outer true none :=
  state_dedentTo h k tokens outer true none

theorem behind_close {k : Cursor} {i : Int} (h : (k.mark.column : Int) < indent) :
    behind k tokens indent (i :: outer) = behind k (.blockEnd :: tokens) i outer := by
  simp [behind, dedentTo, state, inFlow, closeBlocks, h]

theorem behind_eq_state (k : Cursor) (tokens : List Token) (indent : Int) (outer : List Int) :
    ∃ tokens' indent' outer',
      behind k tokens indent outer = state k tokens' indent' outer' true none := by
  induction outer generalizing tokens indent with
  | nil => exact ⟨tokens, indent, [], by simp [behind, dedentTo, state, inFlow, closeBlocks]⟩
  | cons i outer ih =>
    by_cases h : (k.mark.column : Int) < indent
    · rw [behind_close h]
      exact ih _ _
    · exact ⟨tokens, indent, i :: outer, behind_of_le (Int.not_lt.mp h)⟩

/-! ## The next token -/

/-- Whether a text begins with a token, or is empty. -/
structure StartsToken (text : List Char) : Prop where
  gap : text.head?.any isGap = false
  comment : text.head? ≠ some '#'
  mark : text.head? ≠ some '\ufeff'

theorem startsToken_nil : StartsToken [] := ⟨rfl, nofun, nofun⟩

theorem startsToken_cons (hgap : isGap c = false) (hcomment : c ≠ '#') (hmark : c ≠ '\ufeff') :
    StartsToken (c :: rest) :=
  ⟨hgap, fun h => hcomment (Option.some.inj h), fun h => hmark (Option.some.inj h)⟩

theorem StartsToken.not_isBreak (h : StartsToken rest) : rest.head?.any isBreak = false := by
  have hgap := h.gap
  cases rest with
  | nil => rfl
  | cons c rest => exact (Bool.or_eq_false_iff.mp hgap).2

theorem StartsToken.not_isBlank (h : StartsToken rest) (tabs : Bool) :
    rest.head?.any (fun c => c = ' ' || (tabs && c = '\t')) = false := by
  have hgap := h.gap
  cases rest with
  | nil => rfl
  | cons c rest =>
    have hblank : isBlank c = false := (Bool.or_eq_false_iff.mp hgap).1
    simp only [isBlank, Bool.or_eq_false_iff, decide_eq_false_iff_not] at hblank
    simp [hblank.1, hblank.2]

/-- Spaces before a token are passed. -/
theorem skipToToken_spaces (h : StartsToken more) (l : Lexer) (m : Mark) (n steps : Nat) :
    skipToToken (steps + 1) { l with cursor := ⟨m, spaces n ++ more⟩ } =
      { l with cursor := ⟨m.right n, more⟩ } := by
  have hmark : (spaces n ++ more).head? ≠ some '\ufeff' := by
    cases n with
    | zero => exact h.mark
    | succ n => exact fun heq => absurd (Option.some.inj heq) (by decide)
  have hskip : ∀ tabs : Bool, (⟨m, spaces n ++ more⟩ : Cursor).skipWhile
      (fun c => c = ' ' || (tabs && c = '\t')) = ⟨m.right n, more⟩ := by
    intro tabs
    have hspaces : ∀ c ∈ spaces n, (c = ' ' || (tabs && c = '\t')) = true := by
      intro c hc
      simp [List.eq_of_mem_replicate hc]
    have hpass := Cursor.skipWhile_append hspaces (h.not_isBlank tabs) m
    rwa [spaces, List.length_replicate] at hpass
  rw [skipToToken]
  simp only [hmark, and_false, if_false, hskip, h.comment, h.not_isBreak, Bool.false_eq_true]

/-- A break before a token allows a key. -/
theorem skipToToken_line (h : StartsToken more) (hflow : l.inFlow = false) (m : Mark)
    (n steps : Nat) :
    skipToToken (steps + 2) { l with cursor := ⟨m, '\n' :: (spaces n ++ more)⟩ } =
      { l with cursor := ⟨(m.down 1).right n, more⟩, keyAllowed := true } := by
  have hskip : ∀ tabs : Bool, (⟨m, '\n' :: (spaces n ++ more)⟩ : Cursor).skipWhile
      (fun c => c = ' ' || (tabs && c = '\t')) = ⟨m, '\n' :: (spaces n ++ more)⟩ :=
    fun tabs => Cursor.skipWhile_of_head (by simp) m
  have hmark : ('\n' :: (spaces n ++ more)).head? ≠ some '\ufeff' :=
    fun heq => absurd (Option.some.inj heq) (by decide)
  have hcomment : ('\n' :: (spaces n ++ more)).head? ≠ some '#' :=
    fun heq => absurd (Option.some.inj heq) (by decide)
  have hbreak : ('\n' :: (spaces n ++ more)).head?.any isBreak = true := by simp [isBreak]
  have hallowed : (l.keyAllowed || !l.inFlow) = true := by simp [hflow]
  have hflow' : ∀ k : Cursor, ({ l with cursor := k } : Lexer).inFlow = l.inFlow := fun _ => rfl
  rw [skipToToken]
  simp only [hmark, and_false, if_false, hskip, hcomment, hbreak, if_true, hflow', hallowed]
  exact skipToToken_spaces h { l with keyAllowed := true } (m.down 1) n steps

/-! ## Keys that are given up -/

/-- A pending key is not required and stands in an earlier line. -/
def Passed (p : Option PendingKey) (m : Mark) : Prop :=
  ∀ q ∈ p, q.required = false ∧ q.mark.line < m.line

theorem passed_none (m : Mark) : Passed none m := nofun

/-- A pending key stands in the same line and near. -/
def Live (p : Option PendingKey) (m : Mark) : Prop := ∀ q ∈ p, PendingKey.isStale q m = false

theorem live_none (m : Mark) : Live none m := nofun

theorem dropStale_of_passed {k : Cursor} (h : Passed p k.mark) (tokens : List Token) (indent : Int)
    (outer : List Int) (allowed : Bool) :
    (state k tokens indent outer allowed p).dropStale =
      .ok (state k tokens indent outer allowed none) := by
  cases p with
  | none => rfl
  | some q =>
    obtain ⟨hrequired, hline⟩ := h q rfl
    have hstale : PendingKey.isStale q k.mark = true := by simp [PendingKey.isStale, hline]
    simp [dropStale, state, hrequired, hstale, Option.filter]

theorem dropStale_of_live {k : Cursor} (h : Live p k.mark) (tokens : List Token) (indent : Int)
    (outer : List Int) (allowed : Bool) :
    (state k tokens indent outer allowed p).dropStale =
      .ok (state k tokens indent outer allowed p) := by
  cases p with
  | none => rfl
  | some q =>
    have hstale := h q rfl
    simp [dropStale, state, hstale, Option.filter]

/-! ## Arriving -/

/-- Arriving in the same line. -/
theorem arrive_within (h : StartsToken more) (hlive : Live p (m.right n))
    (hindent : indent ≤ (m.right n).column) :
    (state ⟨m, spaces n ++ more⟩ tokens indent outer allowed p).arrive =
      .ok (state ⟨m.right n, more⟩ tokens indent outer allowed p) := by
  have hskip := skipToToken_spaces h (state ⟨m, spaces n ++ more⟩ tokens indent outer allowed p) m n
    (spaces n ++ more).length
  have hdrop := dropStale_of_live (k := ⟨m.right n, more⟩) hlive tokens indent outer allowed
  have hdedent := state_dedentTo hindent ⟨m.right n, more⟩ tokens outer allowed p
  rw [arrive]
  simp only [state] at hskip hdrop hdedent ⊢
  rw [hskip, hdrop]
  simp only [Except.map]
  rw [hdedent]

/-- A lexer at a token has arrived. -/
theorem arrive_at (h : StartsToken rest) (hlive : Live p m) (hindent : indent ≤ m.column) :
    (state ⟨m, rest⟩ tokens indent outer allowed p).arrive =
      .ok (state ⟨m, rest⟩ tokens indent outer allowed p) :=
  arrive_within (n := 0) h hlive hindent

/-- Arriving in the next line. -/
theorem arrive_line (h : StartsToken more) (hpassed : Passed p (m.down 1)) :
    (state ⟨m, '\n' :: (spaces n ++ more)⟩ tokens indent outer allowed p).arrive =
      .ok (behind ⟨(m.down 1).right n, more⟩ tokens indent outer) := by
  have hskip := skipToToken_line h
    (l := state ⟨m, '\n' :: (spaces n ++ more)⟩ tokens indent outer allowed p) rfl m n
    (spaces n ++ more).length
  have hdrop := dropStale_of_passed (k := ⟨(m.down 1).right n, more⟩) hpassed tokens indent outer true
  rw [arrive]
  simp only [state, behind] at hskip hdrop ⊢
  rw [List.length_cons, hskip, hdrop]
  rfl

/-- Arriving where a line has begun. -/
theorem arrive_behind_of_passed (h : StartsToken rest) (hpassed : Passed p m) :
    (state ⟨m, rest⟩ tokens indent outer true p).arrive =
      .ok (behind ⟨m, rest⟩ tokens indent outer) := by
  have hskip := skipToToken_spaces h (state ⟨m, rest⟩ tokens indent outer true p) m 0 rest.length
  have hdrop := dropStale_of_passed (k := ⟨m, rest⟩) hpassed tokens indent outer true
  rw [arrive]
  simp only [state, behind] at hskip hdrop ⊢
  rw [show spaces 0 ++ rest = rest from rfl, Mark.right_zero] at hskip
  rw [hskip, hdrop]
  rfl

theorem arrive_behind {k : Cursor} (h : StartsToken k.rest) :
    (behind k tokens indent outer).arrive = .ok (behind k tokens indent outer) := by
  obtain ⟨tokens', indent', outer', heq⟩ := behind_eq_state k tokens indent outer
  have hagain : behind k tokens' indent' outer' = behind k tokens indent outer := by
    rw [behind, ← heq, behind, dedentTo_dedentTo]
  rw [heq, arrive_behind_of_passed h (passed_none _), ← heq, hagain]

/-! ## Lines -/

/-- The first line of a text is indented to a column at most. -/
def Indented (column : Nat) (text : List Char) : Prop :=
  ∃ n more, text = spaces n ++ more ∧ n ≤ column ∧ StartsToken more

theorem Indented.mono (h : Indented n rest) {column : Nat} (hle : n ≤ column) :
    Indented column rest := by
  obtain ⟨i, more, rfl, hi, hmore⟩ := h
  exact ⟨i, more, rfl, Nat.le_trans hi hle, hmore⟩

theorem indented_nil (column : Nat) : Indented column [] :=
  ⟨0, [], rfl, Nat.zero_le _, startsToken_nil⟩

/-- The cursor at the first token of a line. -/
def lineCursor (m : Mark) (text : List Char) : Cursor := (⟨m, text⟩ : Cursor).skipWhile (· = ' ')

theorem lineCursor_spaces (h : StartsToken more) (m : Mark) (n : Nat) :
    lineCursor m (spaces n ++ more) = ⟨m.right n, more⟩ := by
  have hspaces : ∀ c ∈ spaces n, decide (c = ' ') = true := by
    intro c hc
    simp [List.eq_of_mem_replicate hc]
  have hstop : more.head?.any (fun c => decide (c = ' ')) = false := by
    simpa using h.not_isBlank false
  have hpass := Cursor.skipWhile_append hspaces hstop m
  rwa [spaces, List.length_replicate] at hpass

/-- Reading goes on at the start of a line, where deeper blocks are closed. -/
def Reaches (l : Lexer) (text : List Char) (tokens : List Token) (indent : Int)
    (outer : List Int) : Prop :=
  ∃ m : Mark, m.column = 0 ∧ Reads l (behind (lineCursor m text) tokens indent outer)

theorem Reads.reaches (h : Reads l l') (h' : Reaches l' rest tokens indent outer) :
    Reaches l rest tokens indent outer := by
  obtain ⟨m, hm, hreads⟩ := h'
  exact ⟨m, hm, h.trans hreads⟩

/-- The end of a line leads to the next one. -/
theorem reaches_of_line (h : Indented n rest) (hpassed : Passed p (m.down 1)) :
    Reaches (state ⟨m, '\n' :: rest⟩ tokens indent outer allowed p) rest tokens indent outer := by
  obtain ⟨i, more, rfl, _, hmore⟩ := h
  refine ⟨m.down 1, rfl, ?_⟩
  rw [lineCursor_spaces hmore]
  refine reads_of_arrive (arrive_line hmore hpassed) (arrive_behind hmore) ?_
  obtain ⟨_, _, _, heq⟩ := behind_eq_state ⟨(m.down 1).right i, more⟩ tokens indent outer
  rw [heq]
  simp only [state, List.length_cons, List.length_append]
  omega

/-- The line is reached where a text has taken its indentation. -/
theorem reaches_of_passed (hm : m.column = 0) (h : StartsToken more) (hpassed : Passed p (m.right n)) :
    Reaches (state ⟨m.right n, more⟩ tokens indent outer true p) (spaces n ++ more) tokens indent
      outer := by
  refine ⟨m, hm, ?_⟩
  rw [lineCursor_spaces h]
  refine reads_of_arrive (arrive_behind_of_passed h hpassed) (arrive_behind h) ?_
  obtain ⟨_, _, _, heq⟩ := behind_eq_state ⟨m.right n, more⟩ tokens indent outer
  rw [heq]
  exact Nat.le_refl _

/-- A token at the column of its block. -/
theorem Reaches.state (h : Reaches l (spaces n ++ rest) tokens indent outer) (hrest : StartsToken rest)
    (hindent : indent ≤ n) :
    ∃ m : Mark, m.column = n ∧ Reads l (state ⟨m, rest⟩ tokens indent outer true none) := by
  obtain ⟨m, hm, hreads⟩ := h
  have hcolumn : (m.right n).column = n := by simp [Mark.right, hm]
  refine ⟨m.right n, hcolumn, ?_⟩
  rw [lineCursor_spaces hrest, behind_of_le (by rw [hcolumn]; exact hindent)] at hreads
  exact hreads

/-- A line of less indentation closes a block. -/
theorem Reaches.close (h : Reaches l rest tokens indent (indent' :: outer)) (hrest : Indented n rest)
    (hindent : (n : Int) < indent) : Reaches l rest (.blockEnd :: tokens) indent' outer := by
  obtain ⟨m, hm, hreads⟩ := h
  obtain ⟨i, more, rfl, hi, hmore⟩ := hrest
  refine ⟨m, hm, ?_⟩
  rw [lineCursor_spaces hmore] at hreads ⊢
  rwa [behind_close (by simp only [Mark.right]; omega)] at hreads

end RunCache.Yaml.Lexer
