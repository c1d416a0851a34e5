import RunCache.Proofs.Yaml.Blocks

/-! # The tokens of a value become its node

    * **`valueNode`**: the node that a value is written for.
    * **`builds`**: it is built from the tokens of the value.
    * **`parse_entries`**: the tree of a written document. -/

namespace RunCache.Yaml

/-! ## Nodes -/

mutual

/-- The node of a value. -/
def valueNode : Value → Node
  | .null => .scalar {} true "null"
  | .bool b => .scalar {} true (if b then "true" else "false")
  | .number n => .scalar {} true (String.ofList (numberText n))
  | .text s => .scalar {} (isBare s) s
  | .list xs => .list {} (itemNodes xs)
  | .dict es => .dict {} (entryNodes es)

/-- The nodes of the items of a list. -/
def itemNodes : List Value → List Node
  | [] => []
  | x :: xs => valueNode x :: itemNodes xs

/-- The nodes of the entries of a mapping. -/
def entryNodes : List (String × Value) → List (Node × Node)
  | [] => []
  | (k, v) :: es => (.scalar {} (isBare k) k, valueNode v) :: entryNodes es

end

/-! ## How nodes begin -/

/-- A token with which a node may begin behind a mark. -/
def beginsNode : Token → Bool
  | .scalar .. | .openList | .openDict | .blockList | .blockDict => true
  | _ => false

theorem valueTokens_marked (v : Value) : ∃ t ts, valueTokens false v = t :: ts ∧ beginsNode t = true := by
  cases v with
  | list xs => cases xs <;> exact ⟨_, _, rfl, rfl⟩
  | dict es => cases es <;> exact ⟨_, _, rfl, rfl⟩
  | _ => exact ⟨_, _, rfl, rfl⟩

theorem valueTokens_part (indentless : Bool) (v : Value) (ts : List Token) :
    endsBlockEntry (valueTokens indentless v ++ ts) = false := by
  cases v with
  | list xs => cases xs <;> cases indentless <;> rfl
  | dict es => cases es <;> rfl
  | _ => rfl

/-- Tokens that do not go on with an item. -/
def EndsItems (ts : List Token) : Prop := ∀ rest, ts ≠ .dash :: rest

variable {v : Value} {ts : List Token} {n : Names} {steps : Nat}

theorem endsItems_entries (es : List (String × Value)) (ts : List Token) :
    EndsItems (entryTokens es ++ .blockEnd :: ts) := by
  cases es <;> exact nofun

/-! ## Steps of building -/

/-- A value is built from its tokens. A list at the column of the mapping around it is built where
    such a list may stand and other tokens than those of an item follow. -/
def Builds (v : Value) : Prop :=
  ∀ (steps : Nat) (allowed indentless : Bool) (ts : List Token) (n : Names),
    2 * (valueTokens indentless v).length + 1 < steps →
    (indentless = true → allowed = true ∧ EndsItems ts) →
    Node.build steps true allowed (valueTokens indentless v ++ ts) n = .ok (valueNode v, ts, n)

theorem buildBlockList_item (hv : Builds v) (hsteps : 2 * (valueTokens false v).length + 1 < steps)
    (items : List Node) (ts : List Token) (n : Names) :
    Node.buildBlockList (steps + 1) items (.dash :: (valueTokens false v ++ ts)) n =
      Node.buildBlockList steps (valueNode v :: items) ts n := by
  have hbuild := hv steps false false ts n hsteps nofun
  obtain ⟨t, rest, htokens, hbegins⟩ := valueTokens_marked v
  rw [htokens, List.cons_append] at hbuild ⊢
  rw [Node.buildBlockList.eq_def]
  cases t with
  | scalar | openList | openDict | blockList | blockDict => simp only [hbuild]
  | _ => cases hbegins

theorem buildIndentless_item (hv : Builds v) (hsteps : 2 * (valueTokens false v).length + 1 < steps)
    (items : List Node) (ts : List Token) (n : Names) :
    Node.buildIndentless (steps + 1) items (.dash :: (valueTokens false v ++ ts)) n =
      Node.buildIndentless steps (valueNode v :: items) ts n := by
  have hbuild := hv steps false false ts n hsteps nofun
  obtain ⟨t, rest, htokens, hbegins⟩ := valueTokens_marked v
  rw [htokens, List.cons_append] at hbuild ⊢
  rw [Node.buildIndentless.eq_def]
  cases t with
  | scalar | openList | openDict | blockList | blockDict => simp only [hbuild]
  | _ => cases hbegins

theorem buildIndentless_end (h : EndsItems ts) (items : List Node) (n : Names) :
    Node.buildIndentless (steps + 1) items ts n = .ok (items.reverse, ts, n) := by
  rw [Node.buildIndentless.eq_def]
  split
  · cases ‹steps + 1 = 0›
  · split
    · exact absurd rfl (h _)
    · rfl

theorem buildBlockDict_entry (hv : Builds v) (key : String) (fields : List (Node × Node))
    (hsteps : 2 * (valueTokens (isShortKey key) v).length + 2 < steps) (hts : EndsItems ts)
    (n : Names) :
    Node.buildBlockDict (steps + 1) fields
        (.key :: scalarToken key :: .value :: (valueTokens (isShortKey key) v ++ ts)) n =
      Node.buildBlockDict steps ((.scalar {} (isBare key) key, valueNode v) :: fields) ts n := by
  obtain ⟨steps, rfl⟩ : ∃ i, steps = i + 2 := ⟨steps - 2, by omega⟩
  have hbuild := hv (steps + 1) true (isShortKey key) ts n (by omega) fun _ => ⟨rfl, hts⟩
  have hvalue : Node.buildBlockPart (steps + 2) (valueTokens (isShortKey key) v ++ ts) n =
      .ok (valueNode v, ts, n) := by
    rw [Node.buildBlockPart, valueTokens_part]
    exact hbuild
  have hkey : Node.buildBlockPart (steps + 2)
      (scalarToken key :: .value :: (valueTokens (isShortKey key) v ++ ts)) n =
        .ok (.scalar {} (isBare key) key, .value :: (valueTokens (isShortKey key) v ++ ts), n) := rfl
  rw [Node.buildBlockDict.eq_def]
  simp only [hkey, hvalue]

/-! ## Building values -/

mutual

/-- Every value is built from its tokens. -/
theorem builds : (v : Value) → Builds v
  | .null | .bool _ | .number _ | .text _ | .list [] | .dict [] => by
    intro steps allowed indentless ts n hsteps _
    obtain ⟨steps, rfl⟩ : ∃ i, steps = i + 2 := ⟨steps - 2, by simp [valueTokens] at hsteps; omega⟩
    rfl
  | .list (x :: xs) => by
    intro steps allowed indentless ts n hsteps hindentless
    obtain ⟨steps, rfl⟩ : ∃ i, steps = i + 1 := ⟨steps - 1, by omega⟩
    cases indentless with
    | true =>
      -- Items that stand as far left as their key have no tokens of a list around them.
      obtain ⟨rfl, hts⟩ := hindentless rfl
      have hitems := buildIndentless_items (x :: xs) steps [] ts n
        (by simp [valueTokens] at hsteps; omega) hts
      rw [List.reverse_nil, List.nil_append] at hitems
      have htokens : valueTokens true (.list (x :: xs)) = itemTokens (x :: xs) := rfl
      rw [htokens]
      simp only [itemTokens, List.cons_append] at hitems ⊢
      simp only [Node.build, takeProperties, takeTag, hitems]
      rfl
    | false =>
      have hitems := buildBlockList_items (x :: xs) steps [] ts n
        (by simp [valueTokens] at hsteps; omega)
      rw [List.reverse_nil, List.nil_append] at hitems
      simp only [valueTokens, Bool.false_eq_true, if_false, List.cons_append, List.append_assoc,
        List.nil_append]
      simp only [Node.build, takeProperties, takeTag, hitems]
      rfl
  | .dict (e :: es) => by
    intro steps allowed indentless ts n hsteps hindentless
    obtain ⟨steps, rfl⟩ : ∃ i, steps = i + 1 := ⟨steps - 1, by omega⟩
    have hentries := buildBlockDict_entries (e :: es) steps [] ts n
      (by simp [valueTokens] at hsteps; omega)
    rw [List.reverse_nil, List.nil_append] at hentries
    simp only [valueTokens, List.cons_append, List.append_assoc, List.nil_append]
    simp only [Node.build, takeProperties, takeTag, hentries]
    rfl

/-- The items of a list with a block of its own. -/
theorem buildBlockList_items : (xs : List Value) → ∀ (steps : Nat) (items : List Node)
    (ts : List Token) (n : Names), 2 * (itemTokens xs).length < steps →
    Node.buildBlockList steps items (itemTokens xs ++ .blockEnd :: ts) n =
      .ok (items.reverse ++ itemNodes xs, ts, n)
  | [], steps, items, ts, n, hsteps => by
    obtain ⟨steps, rfl⟩ : ∃ i, steps = i + 1 := ⟨steps - 1, by omega⟩
    rw [Node.buildBlockList.eq_def]
    simp [itemTokens, itemNodes]
  | x :: xs, steps, items, ts, n, hsteps => by
    obtain ⟨steps, rfl⟩ : ∃ i, steps = i + 1 := ⟨steps - 1, by omega⟩
    simp only [itemTokens, List.length_append, List.length_cons, List.cons_append,
      List.append_assoc] at hsteps ⊢
    rw [buildBlockList_item (builds x) (by omega), buildBlockList_items xs _ _ _ _ (by omega)]
    simp [itemNodes]

/-- The items of a list at the column of the mapping around it. -/
theorem buildIndentless_items : (xs : List Value) → ∀ (steps : Nat) (items : List Node)
    (ts : List Token) (n : Names), 2 * (itemTokens xs).length < steps → EndsItems ts →
    Node.buildIndentless steps items (itemTokens xs ++ ts) n =
      .ok (items.reverse ++ itemNodes xs, ts, n)
  | [], steps, items, ts, n, hsteps, hts => by
    obtain ⟨steps, rfl⟩ : ∃ i, steps = i + 1 := ⟨steps - 1, by omega⟩
    rw [itemTokens, List.nil_append, buildIndentless_end hts]
    simp [itemNodes]
  | x :: xs, steps, items, ts, n, hsteps, hts => by
    obtain ⟨steps, rfl⟩ : ∃ i, steps = i + 1 := ⟨steps - 1, by omega⟩
    simp only [itemTokens, List.length_append, List.length_cons, List.cons_append,
      List.append_assoc] at hsteps ⊢
    rw [buildIndentless_item (builds x) (by omega), buildIndentless_items xs _ _ _ _ (by omega) hts]
    simp [itemNodes]

/-- The entries of a mapping. -/
theorem buildBlockDict_entries : (es : List (String × Value)) → ∀ (steps : Nat)
    (fields : List (Node × Node)) (ts : List Token) (n : Names), 2 * (entryTokens es).length < steps →
    Node.buildBlockDict steps fields (entryTokens es ++ .blockEnd :: ts) n =
      .ok (fields.reverse ++ entryNodes es, ts, n)
  | [], steps, fields, ts, n, hsteps => by
    obtain ⟨steps, rfl⟩ : ∃ i, steps = i + 1 := ⟨steps - 1, by omega⟩
    rw [Node.buildBlockDict.eq_def]
    simp [entryTokens, entryNodes]
  | (key, v) :: es, steps, fields, ts, n, hsteps => by
    obtain ⟨steps, rfl⟩ : ∃ i, steps = i + 1 := ⟨steps - 1, by omega⟩
    simp only [entryTokens, List.length_append, List.length_cons, List.cons_append,
      List.append_assoc] at hsteps ⊢
    rw [buildBlockDict_entry (builds v) key _ (by omega) (endsItems_entries es ts),
      buildBlockDict_entries es _ _ _ _ (by omega)]
    simp [entryNodes]

end

/-- The tree of a written document is the mapping of its entries. -/
theorem parse_entries (e : String × Value) (es : List (String × Value)) :
    Node.parse (.blockDict :: entryTokens (e :: es) ++ [.blockEnd]) =
      .ok (some (.dict {} (entryNodes (e :: es)))) := by
  have hbuild : ∀ n : Names, Node.build
      (4 * (Token.blockDict :: entryTokens (e :: es) ++ [Token.blockEnd]).length + 4) true false
      (.blockDict :: entryTokens (e :: es) ++ [.blockEnd]) n =
        .ok (.dict {} (entryNodes (e :: es)), [], n) := by
    intro n
    have h := builds (.dict (e :: es))
      (4 * (Token.blockDict :: entryTokens (e :: es) ++ [Token.blockEnd]).length + 4) false false [] n
      (by simp only [valueTokens]; omega) nofun
    rwa [List.append_nil] at h
  rw [Node.parse.eq_def]
  simp only [List.cons_append] at hbuild ⊢
  simp only [takeDirectives, atDirective, Bool.false_eq_true, if_false, hbuild, finishDocument]
  rfl

end RunCache.Yaml
