import RunCache.Proofs.Yaml.Tree

/-! # A written document is read as its tree

    A stream may hold every character of a written document, and its bytes
    are those of UTF-8 without a byte order mark.

    * **`allowed_entries`**: the characters.
    * **`characters_toUTF8`**: the bytes.
    * **`read_render`**: the tree of a written document. -/

namespace RunCache.Yaml

variable {column n : Nat} {v : Value}

/-! ## Characters -/

@[simp] theorem allowed_spaces (n : Nat) : (spaces n).all isAllowed = true := by
  rw [List.all_eq_true]
  intro c hc
  rw [List.eq_of_mem_replicate hc]
  rfl

@[simp] theorem allowed_write (s : String) (indent : Nat) :
    ((Style.ofText s).write indent s.toList).all isAllowed = true :=
  List.all_eq_true.mpr (written_allowed s indent)

@[simp] theorem allowed_number (n : Number) : (numberText n).all isAllowed = true :=
  List.all_eq_true.mpr fun c hc =>
    isAllowed_of_isShown (isShown_numeralChar ((numeral_number n).chars c hc)).1

@[simp] theorem allowed_textLines (column : Nat) (s : String) :
    (textLines column s).all isAllowed = true := by
  unfold textLines
  rw [List.all_append, allowed_write]
  split <;> rfl

@[simp] theorem allowed_keyLines (column : Nat) (key : String) :
    (keyLines column key).all isAllowed = true := by
  unfold keyLines
  split
  · rw [List.all_append, allowed_write]
    rfl
  · rw [List.all_append, List.all_append, List.all_append, allowed_textLines, allowed_spaces]
    rfl

namespace Layout

mutual

theorem allowed_afterKey (column : Nat) : (v : Value) → (afterKey column v).all isAllowed = true
  | .list (x :: xs) => by
    rw [afterKey, List.all_cons, allowed_items column (x :: xs)]
    rfl
  | .dict (e :: es) => by
    rw [afterKey, List.all_cons, allowed_entries (column + 2) (e :: es)]
    rfl
  | .list [] => rfl
  | .dict [] => rfl
  | .null => rfl
  | .bool b => by cases b <;> rfl
  | .number n => by
    rw [afterKey, List.all_append, List.all_cons, allowed_number]
    rfl
  | .text s => by
    rw [afterKey, List.all_cons, allowed_textLines]
    rfl

theorem allowed_afterMark (column : Nat) : (v : Value) → (afterMark column v).all isAllowed = true
  | .list (x :: xs) => by
    rw [afterMark, List.all_append, List.all_append, allowed_afterMark (column + 2) x,
      allowed_items (column + 2) xs]
    rfl
  | .dict ((k, v) :: es) => by
    rw [afterMark, List.all_append, List.all_append, List.all_cons, allowed_keyLines,
      allowed_entries (column + 2) es]
    split
    · rw [allowed_afterKey (column + 2) v]
      rfl
    · rw [allowed_afterMark (column + 2) v]
      rfl
  | .list [] => rfl
  | .dict [] => rfl
  | .null => rfl
  | .bool b => by cases b <;> rfl
  | .number n => by
    rw [afterMark, List.all_append, List.all_cons, allowed_number]
    rfl
  | .text s => by
    rw [afterMark, List.all_cons, allowed_textLines]
    rfl

theorem allowed_items (column : Nat) : (xs : List Value) → (items column xs).all isAllowed = true
  | [] => rfl
  | x :: xs => by
    rw [items, List.all_append, List.all_append, List.all_cons, allowed_spaces,
      allowed_afterMark column x, allowed_items column xs]
    rfl

/-- A stream may hold every character of written entries. -/
theorem allowed_entries (column : Nat) :
    (es : List (String × Value)) → (entries column es).all isAllowed = true
  | [] => rfl
  | (k, v) :: es => by
    rw [entries, List.all_append, List.all_append, List.all_append, allowed_spaces,
      allowed_keyLines, allowed_entries column es]
    split
    · rw [allowed_afterKey column v]
      rfl
    · rw [allowed_afterMark column v]
      rfl

end

end Layout

/-! ## Bytes -/

/-- The first byte of a text that begins with an ASCII character. -/
theorem bytes_cons {c : Char} (hc : c.toNat < 0x80) (t : List Char) :
    ∃ rest, (String.ofList (c :: t)).toUTF8.data.toList = c.val.toUInt8 :: rest := by
  have hsize : c.utf8Size = 1 := Char.utf8Size_eq_one_iff.mpr (Nat.le_of_lt_succ hc)
  have hchar : String.utf8EncodeChar c = [c.val.toUInt8] := String.utf8EncodeChar_eq_singleton hsize
  have hencode : (String.ofList (c :: t)).toUTF8 = (c :: t).utf8Encode := by
    rw [String.toUTF8, ← String.utf8Encode_toList, String.toList_ofList]
  refine ⟨t.utf8Encode.data.toList, ?_⟩
  rw [hencode, List.utf8Encode_cons, List.utf8Encode_singleton, hchar]
  simp

/-- Bytes that begin with an ASCII character begin with no byte order mark. -/
theorem characters_toUTF8 {s : String} {b : UInt8} {rest : List UInt8}
    (h : s.toUTF8.data.toList = b :: rest) (hb : b < 0x80) :
    characters? s.toUTF8.data.toList = some s.toList := by
  have hbytes : String.fromUTF8? ⟨s.toUTF8.data.toList.toArray⟩ = some s := by
    rw [Array.toArray_toList]
    exact dif_pos s.isValidUTF8
  have hmark : ∀ {b' : UInt8} {rest' : List UInt8}, b :: rest = b' :: rest' → b' < 0x80 := by
    intro b' rest' heq
    rwa [← (List.cons.inj heq).1]
  rw [h] at hbytes ⊢
  unfold characters?
  split
  · next heq => exact absurd (hmark heq) (by decide)
  · next heq => exact absurd (hmark heq) (by decide)
  · next heq => exact absurd (hmark heq) (by decide)
  · rw [hbytes]
    rfl

/-! ## Documents -/

/-- The document of written entries is their mapping. -/
theorem read_render {key : String} {v : Value} {es : List (String × Value)} {b : UInt8}
    {rest : List UInt8} (h : (render ((key, v) :: es)).toUTF8.data.toList = b :: rest) (hb : b < 0x80) :
    ∃ d : Document, Document.read (render ((key, v) :: es)).toUTF8 = .ok d ∧
      d.root = some (.dict {} (entryNodes ((key, v) :: es))) := by
  have htext : (render ((key, v) :: es)).toList = Layout.entries 0 ((key, v) :: es) :=
    String.toList_ofList
  have hdecode : decode (render ((key, v) :: es)).toUTF8 = .ok (Layout.entries 0 ((key, v) :: es)) := by
    rw [decode, characters_toUTF8 h hb, htext]
    exact if_pos (Layout.allowed_entries 0 _)
  rw [Document.read, hdecode]
  simp only [scan_render, parse_entries]
  exact ⟨_, rfl, rfl⟩

end RunCache.Yaml
