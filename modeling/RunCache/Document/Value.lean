import RunCache.Number.Decimal

/-! # Document values

    The untyped part of a document: what remains of it once the fields
    the library routes on have been taken out.

    * **`Value`**: the six kinds of value both notations share.
    * **`Fields`**: the entries of a mapping, kept in key order with each
      key once.
    * **`Fields.insert`**: a later entry for the same key replaces the
      earlier one. -/

namespace RunCache

/-- A number of a document: an integer of 64 bits, signed or unsigned, or a finite float. -/
inductive Number where
  | int (n : Int)
  | float (x : Binary64)
deriving DecidableEq, Inhabited

/-- A document value. -/
inductive Value where
  | null
  | bool (b : Bool)
  | number (n : Number)
  | text (s : String)
  | list (items : List Value)
  | dict (fields : List (String × Value))
deriving Inhabited

namespace Value

/-! ## Equality -/

mutual

/-- Equality of values is decided by descending both at once. -/
def decEq : (v w : Value) → Decidable (v = w)
  | .null, .null => isTrue rfl
  | .bool a, .bool b => decidable_of_iff (a = b) (by simp)
  | .number a, .number b => decidable_of_iff (a = b) (by simp)
  | .text a, .text b => decidable_of_iff (a = b) (by simp)
  | .list a, .list b =>
    have := decEqList a b
    decidable_of_iff (a = b) (by simp)
  | .dict a, .dict b =>
    have := decEqFields a b
    decidable_of_iff (a = b) (by simp)
  | .null, .bool _ | .null, .number _ | .null, .text _ | .null, .list _ | .null, .dict _
  | .bool _, .null | .bool _, .number _ | .bool _, .text _ | .bool _, .list _
  | .bool _, .dict _ | .number _, .null | .number _, .bool _ | .number _, .text _
  | .number _, .list _ | .number _, .dict _ | .text _, .null | .text _, .bool _
  | .text _, .number _ | .text _, .list _ | .text _, .dict _ | .list _, .null
  | .list _, .bool _ | .list _, .number _ | .list _, .text _ | .list _, .dict _
  | .dict _, .null | .dict _, .bool _ | .dict _, .number _ | .dict _, .text _
  | .dict _, .list _ => isFalse (by simp)

/-- Equality of lists of values. -/
def decEqList : (xs ys : List Value) → Decidable (xs = ys)
  | [], [] => isTrue rfl
  | x :: xs, y :: ys =>
    have := decEq x y
    have := decEqList xs ys
    decidable_of_iff (x = y ∧ xs = ys) (by simp)
  | [], _ :: _ | _ :: _, [] => isFalse (by simp)

/-- Equality of lists of entries. -/
def decEqFields : (xs ys : List (String × Value)) → Decidable (xs = ys)
  | [], [] => isTrue rfl
  | (k, x) :: xs, (l, y) :: ys =>
    have := decEq x y
    have := decEqFields xs ys
    decidable_of_iff (k = l ∧ x = y ∧ xs = ys) (by simp [and_assoc])
  | [], _ :: _ | _ :: _, [] => isFalse (by simp)

end

instance : DecidableEq Value := decEq

end Value

/-! ## Entries in key order -/

/-- The entries of a mapping in increasing order of their keys. -/
abbrev Fields (α : Type) := List (String × α)

namespace Fields

/-- Adds an entry in key order; an entry of the same key is replaced. -/
def insert {α : Type} (key : String) (value : α) : Fields α → Fields α
  | [] => [(key, value)]
  | (k, v) :: rest =>
    if key < k then (key, value) :: (k, v) :: rest
    else if key = k then (key, value) :: rest
    else (k, v) :: insert key value rest

/-- The value of a key. -/
def get? {α : Type} (fields : Fields α) (key : String) : Option α :=
  (fields.find? (·.1 = key)).map (·.2)

/-- The mapping of a list of entries; of repeated keys the last one counts. -/
def ofList {α : Type} (entries : List (String × α)) : Fields α :=
  entries.foldl (fun fields e => fields.insert e.1 e.2) []

end Fields

end RunCache
