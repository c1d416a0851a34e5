import RunCache.Proofs.Yaml.Keys
import RunCache.Proofs.Yaml.Numerals

/-! # A written document becomes its tokens

    Reading follows the layout: a value is read from behind its key or
    its mark up to the line behind it, items and entries line by line.

    * **`valueTokens`**: the tokens that a value is written for.
    * **`ReadsValue`**: a value is read as its tokens.
    * **`scan_render`**: the tokens of a written document. -/

namespace RunCache.Yaml

/-! ## Tokens -/

mutual

/-- The tokens of a value. A list at the column of the mapping around it opens no block. -/
def valueTokens (indentless : Bool) : Value → List Token
  | .null => [.scalar true "null"]
  | .bool b => [.scalar true (if b then "true" else "false")]
  | .number n => [.scalar true (String.ofList (numberText n))]
  | .text s => [scalarToken s]
  | .list [] => [.openList, .closeList]
  | .list (x :: xs) =>
    if indentless then itemTokens (x :: xs) else .blockList :: itemTokens (x :: xs) ++ [.blockEnd]
  | .dict [] => [.openDict, .closeDict]
  | .dict (e :: es) => .blockDict :: entryTokens (e :: es) ++ [.blockEnd]

/-- The tokens of the items of a list. -/
def itemTokens : List Value → List Token
  | [] => []
  | x :: xs => .dash :: valueTokens false x ++ itemTokens xs

/-- The tokens of the entries of a mapping. -/
def entryTokens : List (String × Value) → List Token
  | [] => []
  | (k, v) :: es =>
    .key :: scalarToken k :: .value :: valueTokens (isShortKey k) v ++ entryTokens es

end

/-! ## Layout -/

/-- A value behind a key. -/
def behindKey (column : Nat) (key : String) (v : Value) : List Char :=
  if isShortKey key then Layout.afterKey column v else Layout.afterMark column v

theorem items_cons (column : Nat) (x : Value) (xs : List Value) (rest : List Char) :
    Layout.items column (x :: xs) ++ rest =
      spaces column ++ '-' :: (Layout.afterMark column x ++ (Layout.items column xs ++ rest)) := by
  simp only [Layout.items, List.append_assoc, List.cons_append]

theorem entries_cons (column : Nat) (key : String) (v : Value) (es : List (String × Value))
    (rest : List Char) :
    Layout.entries column ((key, v) :: es) ++ rest = spaces column ++
      (keyLines column key ++ (behindKey column key v ++ (Layout.entries column es ++ rest))) := by
  simp only [Layout.entries, behindKey, List.append_assoc]

namespace Lexer

variable {l : Lexer} {m : Mark} {rest : List Char} {tokens tokens' : List Token} {indent : Int}
  {outer outer' : List Int} {column : Nat} {v : Value}

/-! ## Lines of a block -/

theorem startsToken_dash (rest : List Char) : StartsToken ('-' :: rest) :=
  startsToken_cons (by decide) (by decide) (by decide)

theorem indented_items (h : Indented column rest) (xs : List Value) :
    Indented column (Layout.items column xs ++ rest) := by
  cases xs with
  | nil => exact h
  | cons x xs =>
    rw [items_cons]
    exact ⟨column, _, rfl, Nat.le_refl _, startsToken_dash _⟩

theorem startsToken_keyLines (column : Nat) (key : String) (rest : List Char) :
    StartsToken (keyLines column key ++ rest) := by
  unfold keyLines
  split
  · rw [List.append_assoc]
    exact startsToken_written key (column + 2) _
  · exact startsToken_cons (by decide) (by decide) (by decide)

theorem indented_entries (h : Indented column rest) (es : List (String × Value)) :
    Indented column (Layout.entries column es ++ rest) := by
  cases es with
  | nil => exact h
  | cons e es =>
    rw [entries_cons]
    exact ⟨column, _, rfl, Nat.le_refl _, startsToken_keyLines column e.1 _⟩

/-! ## Values on one line -/

/-- A value is read up to the line behind it, from behind its key and from behind its mark. -/
def ReadsValue (v : Value) : Prop :=
  ∀ (column : Nat) (m : Mark) (rest : List Char) (tokens : List Token) (outer : List Int),
    Indented column rest →
    (column < m.column →
      Reaches (state ⟨m, Layout.afterKey column v ++ rest⟩ tokens column outer false none) rest
        ((valueTokens true v).reverse ++ tokens) column outer) ∧
    (m.column = column + 1 →
      Reaches (state ⟨m, Layout.afterMark column v ++ rest⟩ tokens column outer true none) rest
        ((valueTokens false v).reverse ++ tokens) column outer)

/-- Values on one line are read alike behind a key and behind a mark. -/
theorem readsValue_of_line {line : Nat → List Char} {ts : List Token}
    (hkey : ∀ column, Layout.afterKey column v = ' ' :: line column)
    (hmark : ∀ column, Layout.afterMark column v = ' ' :: line column)
    (htokens : ∀ indentless, valueTokens indentless v = ts)
    (hline : ∀ (column : Nat) (m : Mark) (rest : List Char) (tokens : List Token) (outer : List Int)
      (allowed : Bool), Indented column rest → column < m.column → StartsToken (line column ++ rest) ∧
        Reaches (state ⟨m, line column ++ rest⟩ tokens column outer allowed none) rest
          (ts.reverse ++ tokens) column outer) :
    ReadsValue v := by
  intro column m rest tokens outer hrest
  have hread : ∀ allowed, column < m.column →
      Reaches (state ⟨m, ' ' :: line column ++ rest⟩ tokens column outer allowed none) rest
        (ts.reverse ++ tokens) column outer := by
    intro allowed hm
    obtain ⟨hstart, hreaches⟩ := hline column (m.right 1) rest tokens outer allowed hrest
      (by simp only [Mark.right]; omega)
    exact (reads_space hstart (Int.ofNat_le.mpr (Nat.le_of_lt hm)) tokens outer allowed).reaches hreaches
  rw [hkey, hmark, htokens, htokens]
  exact ⟨hread false, fun hm => hread true (by omega)⟩

theorem readsValue_bare {t : List Char} (h : allowsPlain t = true) (hne : t ≠ [])
    (hkey : ∀ column, Layout.afterKey column v = ' ' :: (t ++ ['\n']))
    (hmark : ∀ column, Layout.afterMark column v = ' ' :: (t ++ ['\n']))
    (htokens : ∀ indentless, valueTokens indentless v = [.scalar true (String.ofList t)]) :
    ReadsValue v := by
  refine readsValue_of_line hkey hmark htokens ?_
  intro column m rest tokens outer allowed hrest hm
  rw [List.append_assoc]
  refine ⟨?_, reaches_bare h hne hm hrest tokens outer allowed⟩
  obtain ⟨c, behind, rfl⟩ := List.exists_cons_of_ne_nil hne
  obtain ⟨hindicator, _, hgap, horder⟩ := startsBare_of_allows h
  refine startsToken_cons hgap ?_ horder
  rintro rfl
  exact absurd hindicator (by decide)

theorem readsValue_text (s : String) : ReadsValue (.text s) := by
  refine readsValue_of_line (fun _ => rfl) (fun _ => rfl) (fun _ => rfl) ?_
  intro column m rest tokens outer allowed hrest hm
  exact ⟨startsToken_text s column rest, reaches_text s hm hrest tokens outer allowed⟩

theorem readsValue_brackets {first last : Char} {opening closing : Token}
    (h : Brackets first last opening closing)
    (hkey : ∀ column, Layout.afterKey column v = [' ', first, last, '\n'])
    (hmark : ∀ column, Layout.afterMark column v = [' ', first, last, '\n'])
    (htokens : ∀ indentless, valueTokens indentless v = [opening, closing]) :
    ReadsValue v := by
  refine readsValue_of_line hkey hmark htokens ?_
  intro column m rest tokens outer allowed hrest hm
  refine ⟨by cases h <;> exact startsToken_cons (by decide) (by decide) (by decide), ?_⟩
  refine (reads_brackets h (Int.ofNat_le.mpr (Nat.le_of_lt hm))).reaches ?_
  exact reaches_of_line hrest (passed_behind hm (by simp [Mark.right, Mark.down]))

/-! ## Blocks -/

theorem atGap_afterKey (column : Nat) (v : Value) (rest : List Char) :
    atGap (Layout.afterKey column v ++ rest) = true := by
  unfold Layout.afterKey
  split
  all_goals first | rfl | (split <;> rfl)

theorem atGap_afterMark (column : Nat) (v : Value) (rest : List Char) :
    atGap (Layout.afterMark column v ++ rest) = true := by
  unfold Layout.afterMark
  split
  all_goals first | rfl | (split <;> rfl)

theorem atGap_behindKey (column : Nat) (key : String) (v : Value) (rest : List Char) :
    atGap (behindKey column key v ++ rest) = true := by
  unfold behindKey
  split
  · exact atGap_afterKey column v rest
  · exact atGap_afterMark column v rest

/-- An item of a list whose value is read. -/
theorem reads_item (hv : ReadsValue v) (hm : m.column = column) (hrest : Indented column rest)
    (h : Opens .blockList column indent tokens outer tokens' outer') :
    Reaches (state ⟨m, '-' :: (Layout.afterMark column v ++ rest)⟩ tokens indent outer true none) rest
      ((valueTokens false v).reverse ++ .dash :: tokens') column outer' := by
  refine (reads_dash hm (atGap_afterMark column v rest) h).reaches ?_
  exact (hv column (m.right 1) rest (.dash :: tokens') outer' hrest).2 (by simp [Mark.right, hm])

/-- An entry of a mapping whose value is read. -/
theorem reads_entry (hv : ReadsValue v) (key : String) (hm : m.column = column)
    (hrest : Indented column rest)
    (h : Opens .blockDict column indent tokens outer tokens' outer') :
    Reaches (state ⟨m, keyLines column key ++ (behindKey column key v ++ rest)⟩ tokens indent outer true
        none) rest
      ((valueTokens (isShortKey key) v).reverse ++ .value :: scalarToken key :: .key :: tokens') column
      outer' := by
  obtain ⟨m', hcolumn, hlong, hreads⟩ := reads_key key hm (atGap_behindKey column key v rest) h
  refine hreads.reaches ?_
  have hvalue := hv column m' rest (.value :: scalarToken key :: .key :: tokens') outer' hrest
  unfold behindKey
  cases hshort : isShortKey key with
  | true => exact hvalue.1 hcolumn
  | false => exact hvalue.2 (hlong hshort)

mutual

/-- Every value is read as its tokens. -/
theorem readsValue : (v : Value) → ReadsValue v
  | .null => readsValue_bare (t := "null".toList) (by decide) (by decide) (fun _ => rfl) (fun _ => rfl)
      (fun _ => rfl)
  | .bool true => readsValue_bare (t := "true".toList) (by decide) (by decide) (fun _ => rfl)
      (fun _ => rfl) (fun _ => rfl)
  | .bool false => readsValue_bare (t := "false".toList) (by decide) (by decide) (fun _ => rfl)
      (fun _ => rfl) (fun _ => rfl)
  | .number n => readsValue_bare (allowsPlain_numeral (numeral_number n)) (numeral_number n).ne_nil
      (fun _ => rfl) (fun _ => rfl) (fun _ => rfl)
  | .text s => readsValue_text s
  | .list [] => readsValue_brackets .list (fun _ => rfl) (fun _ => rfl) (fun _ => rfl)
  | .dict [] => readsValue_brackets .dict (fun _ => rfl) (fun _ => rfl) (fun _ => rfl)
  | .list (x :: xs) => by
    intro column m rest tokens outer hrest
    refine ⟨fun hm => ?_, fun hm => ?_⟩
    · -- Items at the column of the mapping.
      have hline : Indented column (Layout.items column (x :: xs) ++ rest) := indented_items hrest _
      have hstart : Reaches (state ⟨m, Layout.afterKey column (.list (x :: xs)) ++ rest⟩ tokens column
          outer false none) (Layout.items column (x :: xs) ++ rest) tokens column outer :=
        reaches_of_line hline (passed_none _)
      have hitems := readsItems (x :: xs) hstart hrest
      simpa [valueTokens] using hitems
    · -- Items further in, the first one on this line.
      have hline := indented_items (hrest.mono (Nat.le_add_right column 2)) xs
      have hstart : Layout.afterMark column (.list (x :: xs)) ++ rest = ' ' :: '-' ::
          (Layout.afterMark (column + 2) x ++ (Layout.items (column + 2) xs ++ rest)) := by
        simp [Layout.afterMark]
      have hitem := reads_item (readsValue x) (m := m.right 1) (by simp [Mark.right, hm]) hline
        (.new tokens outer (Int.ofNat_lt.mpr (Nat.lt_add_of_pos_right Nat.two_pos)))
      have hspace := reads_space (m := m) (startsToken_dash (Layout.afterMark (column + 2) x ++
        (Layout.items (column + 2) xs ++ rest))) (by omega : (column : Int) ≤ m.column) tokens outer true
      have hitems := readsItems xs (hspace.reaches hitem) (hrest.mono (Nat.le_add_right column 2))
      have hclosed := hitems.close hrest (by omega)
      rw [hstart]
      simpa [valueTokens, itemTokens] using hclosed
  | .dict ((key, v) :: es) => by
    intro column m rest tokens outer hrest
    have hinner : Indented (column + 2) rest := hrest.mono (Nat.le_add_right column 2)
    -- The block from its first key on.
    have hblock : ∀ (l : Lexer) (m' : Mark), m'.column = column + 2 →
        Reads l (state ⟨m', keyLines (column + 2) key ++ (behindKey (column + 2) key v ++
          (Layout.entries (column + 2) es ++ rest))⟩ tokens column outer true none) →
        Reaches l rest ((valueTokens true (.dict ((key, v) :: es))).reverse ++ tokens) column outer := by
      intro l m' hm' hreads
      have hentry := reads_entry (readsValue v) key hm' (indented_entries hinner es)
        (.new tokens outer (Int.ofNat_lt.mpr (Nat.lt_add_of_pos_right Nat.two_pos)))
      have hentries := readsEntries es (hreads.reaches hentry) hinner
      have hclosed := hentries.close hrest (by omega)
      simpa [valueTokens, entryTokens] using hclosed
    refine ⟨fun hm => ?_, fun hm => ?_⟩
    · have hline := indented_entries hinner ((key, v) :: es)
      have hstart : Reaches (state ⟨m, Layout.afterKey column (.dict ((key, v) :: es)) ++ rest⟩ tokens
          column outer false none) (Layout.entries (column + 2) ((key, v) :: es) ++ rest) tokens column
          outer :=
        reaches_of_line hline (passed_none _)
      rw [entries_cons] at hstart
      obtain ⟨m', hm', hreads⟩ := hstart.state (startsToken_keyLines _ _ _) (by omega)
      exact hblock _ m' hm' hreads
    · have hstart : Layout.afterMark column (.dict ((key, v) :: es)) ++ rest = ' ' ::
          (keyLines (column + 2) key ++ (behindKey (column + 2) key v ++
            (Layout.entries (column + 2) es ++ rest))) := by
        simp [Layout.afterMark, behindKey]
      rw [hstart]
      exact hblock _ (m.right 1) (by simp [Mark.right, hm])
        (reads_space (startsToken_keyLines _ _ _) (by omega) tokens outer true)

/-- The items of a list are read line by line. -/
theorem readsItems : (xs : List Value) → {l : Lexer} → {column : Nat} → {rest : List Char} →
    {tokens : List Token} → {outer : List Int} →
    Reaches l (Layout.items column xs ++ rest) tokens column outer → Indented column rest →
    Reaches l rest ((itemTokens xs).reverse ++ tokens) column outer
  | [], _, _, _, _, _, h, _ => h
  | x :: xs, l, column, rest, tokens, outer, h, hrest => by
    rw [items_cons] at h
    obtain ⟨m, hm, hreads⟩ := h.state (startsToken_dash _) (Int.le_refl _)
    have hitem := reads_item (readsValue x) hm (indented_items hrest xs) (.same tokens outer)
    have hitems := readsItems xs (hreads.reaches hitem) hrest
    simpa [itemTokens] using hitems

/-- The entries of a mapping are read line by line. -/
theorem readsEntries : (es : List (String × Value)) → {l : Lexer} → {column : Nat} →
    {rest : List Char} → {tokens : List Token} → {outer : List Int} →
    Reaches l (Layout.entries column es ++ rest) tokens column outer → Indented column rest →
    Reaches l rest ((entryTokens es).reverse ++ tokens) column outer
  | [], _, _, _, _, _, h, _ => h
  | (key, v) :: es, l, column, rest, tokens, outer, h, hrest => by
    rw [entries_cons] at h
    obtain ⟨m, hm, hreads⟩ := h.state (startsToken_keyLines _ _ _) (Int.le_refl _)
    have hentry := reads_entry (readsValue v) key hm (indented_entries hrest es) (.same tokens outer)
    have hentries := readsEntries es (hreads.reaches hentry) hrest
    simpa [entryTokens] using hentries

end

/-! ## The whole text -/

/-- At the end of the text the blocks that are open are closed. -/
theorem run_end (h : Reads l (state ⟨m, []⟩ tokens 0 [-1] true none)) {steps : Nat}
    (hsteps : l.cursor.rest.length < steps) :
    ∃ l', run steps l = .ok l' ∧ l'.tokens = .blockEnd :: tokens := by
  obtain ⟨i, hi, hrun⟩ := h steps hsteps
  obtain ⟨i, rfl⟩ : ∃ j, i = j + 1 := ⟨i - 1, by omega⟩
  have harrive : (state ⟨m, []⟩ tokens 0 [-1] true none).arrive =
      .ok (state ⟨m, []⟩ tokens 0 [-1] true none) :=
    arrive_at startsToken_nil (live_none m) (Int.natCast_nonneg _)
  rw [hrun, run_succ, harrive]
  exact ⟨_, rfl, rfl⟩

end Lexer

open Lexer in
/-- A written document becomes the tokens of its entries. -/
theorem scan_render (key : String) (v : Value) (es : List (String × Value)) :
    Token.scan (Layout.entries 0 ((key, v) :: es)) =
      .ok (.blockDict :: entryTokens ((key, v) :: es) ++ [.blockEnd]) := by
  have hnil : ∀ es, Layout.entries 0 es ++ [] = Layout.entries 0 es := fun es => List.append_nil _
  have hend : Indented 0 [] := indented_nil 0
  have hstart : Layout.entries 0 ((key, v) :: es) =
      keyLines 0 key ++ (behindKey 0 key v ++ (Layout.entries 0 es ++ [])) := by
    rw [← hnil, entries_cons]
    rfl
  have hentry : Reaches (state ⟨⟨0, 0, 0⟩, Layout.entries 0 ((key, v) :: es)⟩ [] (-1) [] true none)
      (Layout.entries 0 es ++ [])
      ((valueTokens (isShortKey key) v).reverse ++ [.value, scalarToken key, .key, .blockDict]) 0 [-1] := by
    rw [hstart]
    exact reads_entry (readsValue v) key rfl (indented_entries hend es) (.new [] [] (by decide))
  obtain ⟨m, hm, hreads⟩ := (readsEntries es hentry hend).state (n := 0) startsToken_nil (Int.le_refl _)
  have hsteps : ∀ n, n < n + 2 := fun n => Nat.lt_succ_of_lt (Nat.lt_succ_self n)
  obtain ⟨l', hrun, htokens⟩ := run_end hreads (hsteps _)
  have hrun : run ((Layout.entries 0 ((key, v) :: es)).length + 2)
      { cursor := Cursor.start (Layout.entries 0 ((key, v) :: es)) } = .ok l' := hrun
  rw [Token.scan, hrun]
  simp [Except.map, htokens, entryTokens]

end RunCache.Yaml
