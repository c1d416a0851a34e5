import RunCache.Yaml.Node
import RunCache.Document.Value

/-! # Resolving YAML scalars

    A plain scalar stands for null, a truth value, a number or itself.

    * **`Plain.ofText`**: which of these it is.
    * **`Reading`**: what reading a node gives, and how much following of
      aliases is left.
    * **`Document.text`, `Document.value`**: a node read as text and as a
      value.
    * **`takeFields`**: a mapping read entry by entry. -/

namespace RunCache.Yaml

/-! ## Integers -/

/-- The number written by digits of a base, if there is at least one digit and nothing else. -/
def natOf? (base : Nat) (cs : List Char) : Option Nat :=
  if cs.isEmpty then none
  else (cs.mapM fun c => (hexDigit? c).filter (· < base)).map (ofDigits base)

/-- A base written as a zero and a letter. -/
def base? : Char → Option Nat
  | 'x' => some 16
  | 'o' => some 8
  | 'b' => some 2
  | _ => none

/-- Digits that do not make a number: a zero in front of others. -/
def isPadded (cs : List Char) : Bool :=
  let cs := match cs with
    | '-' :: rest => rest
    | '+' :: rest => rest
    | rest => rest
  match cs with
  | '0' :: d :: rest => (d :: rest).all isDigit
  | _ => false

/-- An integer without a minus sign. -/
def unsigned? (cs : List Char) : Option Nat :=
  let body := match cs with
    | '+' :: rest => rest
    | rest => rest
  let decimal := if isPadded cs then none else natOf? 10 body
  match body with
  | '0' :: b :: digits =>
    match base? b with
    | some base => natOf? base digits
    | none => decimal
  | _ => decimal

/-- An integer behind a minus sign, by its magnitude. -/
def negative? (cs : List Char) : Option Nat :=
  match cs with
  | '-' :: body =>
    let decimal := if isPadded cs then none else natOf? 10 body
    match body with
    | '0' :: b :: digits =>
      match base? b with
      | some base => natOf? base digits
      | none => decimal
    | _ => decimal
  | _ => none

/-- How a plain scalar reads as an integer: one of 64 bits, or one that is too large for a number
    of a document although 128 bits would hold it. -/
inductive IntegerReading where
  | fits (n : Int)
  | tooLarge
deriving DecidableEq

/-- The integer of a plain scalar. -/
def integer? (cs : List Char) : Option IntegerReading :=
  match unsigned? cs with
  | some n =>
    if n < twoTo 64 then some (.fits n) else if n < twoTo 128 then some .tooLarge else none
  | none =>
    match negative? cs with
    | some n =>
      if n ≤ twoTo 63 then some (.fits (-n)) else if n ≤ twoTo 127 then some .tooLarge else none
    | none => none

/-! ## Other kinds -/

/-- The words for null. -/
def isNullWord (s : String) : Bool := s = "~" || s = "null" || s = "Null" || s = "NULL"

/-- The words for truth values. -/
def truth? (s : String) : Option Bool :=
  if s = "true" ∨ s = "True" ∨ s = "TRUE" then some true
  else if s = "false" ∨ s = "False" ∨ s = "FALSE" then some false
  else none

/-- The words for values that are no finite numbers. -/
def isNonFinite (s : String) : Bool :=
  [".inf", ".Inf", ".INF", "+.inf", "+.Inf", "+.INF", "-.inf", "-.Inf", "-.INF",
    ".nan", ".NaN", ".NAN"].contains s

/-- The finite float of a plain scalar. -/
def finite? (cs : List Char) : Option Binary64 :=
  match cs with
  | '+' :: '+' :: _ | '+' :: '-' :: _ => none
  | _ => decimal? cs

/-- What a plain scalar stands for. -/
inductive Plain where
  | null
  | bool (b : Bool)
  | integer (n : IntegerReading)
  | nonFinite
  | float (x : Binary64)
  | text
deriving DecidableEq

/-- What a plain scalar stands for. -/
def Plain.ofText (s : String) : Plain :=
  if s.isEmpty || isNullWord s then .null
  else match truth? s with
    | some b => .bool b
    | none =>
      match integer? s.toList with
      | some n => .integer n
      | none =>
        if isPadded s.toList then .text
        else if isNonFinite s then .nonFinite
        else match finite? s.toList with
          | some x => .float x
          | none => .text

/-! ## Values of scalars -/

/-- The tags with a meaning of their own. -/
def nullTag : String := "tag:yaml.org,2002:null"
def boolTag : String := "tag:yaml.org,2002:bool"
def intTag : String := "tag:yaml.org,2002:int"
def floatTag : String := "tag:yaml.org,2002:float"

/-- Whether a tag is one of the document's own, which no value can carry. -/
def isLocalTag (tag : String) : Bool := tag.toList.head? = some '!'

/-- The value of an integer. -/
def IntegerReading.value : IntegerReading → Except Fault Value
  | .fits n => .ok (.number (.int n))
  | .tooLarge => .error .numberOutOfRange

/-- The value of plain text. What is no finite number is null. -/
def plainValue (s : String) : Except Fault Value :=
  match Plain.ofText s with
  | .null => .ok .null
  | .bool b => .ok (.bool b)
  | .integer n => n.value
  | .nonFinite => .ok .null
  | .float x => .ok (.number (.float x))
  | .text => .ok (.text s)

/-- The value of a scalar. A tag of the notation itself demands its kind, any other tag makes the
    scalar a text. -/
def scalarValue (props : Properties) (plain : Bool) (s : String) : Except Fault Value :=
  match props.tag with
  | none => if plain then plainValue s else .ok (.text s)
  | some tag =>
    if isLocalTag tag then .error .tagged
    else if tag = boolTag then
      match truth? s with
      | some b => .ok (.bool b)
      | none => .error .mismatch
    else if tag = intTag then
      match integer? s.toList with
      | some n => n.value
      | none => .error .mismatch
    else if tag = floatTag then
      if isNonFinite s then .ok .null
      else match finite? s.toList with
        | some x => .ok (.number (.float x))
        | none => .error .mismatch
    else if tag = nullTag then if isNullWord s then .ok .null else .error .mismatch
    else .ok (.text s)

/-! ## Following aliases -/

/-- How many lists and mappings may be nested in one another. -/
def maxDepth : Nat := 128

/-- How often aliases may be followed, for each mark of the document. -/
def aliasFactor : Nat := 100

/-- Reading a node: how many aliases may still be followed is handed on. -/
abbrev Reading (α : Type) := Nat → Except Fault (α × Nat)

namespace Document

/-- The node itself, or what an alias stands for. No alias stands for an alias. -/
def follow (d : Document) (n : Node) : Reading Node := fun budget =>
  match n with
  | .alias id =>
    if budget = 0 then .error .tooManyAliases
    else match d.target? id with
      | some n => .ok (n, budget - 1)
      | none => .error .unknownAlias
  | n => .ok (n, budget)

/-- A scalar as text, whatever it would stand for. -/
def text (d : Document) (n : Node) : Reading String := fun budget =>
  match d.follow n budget with
  | .error e => .error e
  | .ok (.scalar _ _ s, budget) => .ok (s, budget)
  | .ok _ => .error .mismatch

/-- A text that a word for null leaves out. -/
def text? (d : Document) (n : Node) : Reading (Option String) := fun budget =>
  match d.follow n budget with
  | .error e => .error e
  | .ok (.scalar props plain s, budget) =>
    if !plain then .ok (some s, budget)
    else match props.tag with
      | some tag =>
        if tag = nullTag then if isNullWord s then .ok (none, budget) else .error .mismatch
        else .ok (some s, budget)
      | none => .ok (if s.isEmpty || isNullWord s then none else some s, budget)
  | .ok _ => .error .mismatch

/-- The entries of a mapping; an empty plain scalar is an empty mapping. -/
def entries (d : Document) (n : Node) : Reading (List (Node × Node)) := fun budget =>
  match d.follow n budget with
  | .error e => .error e
  | .ok (.dict _ fields, budget) => .ok (fields, budget)
  | .ok (.scalar _ true "", budget) => .ok ([], budget)
  | .ok _ => .error .mismatch

/-- How the keys of a mapping are read: as they are written, or as text only where they stand for
    text. -/
inductive Keys where
  | verbatim
  | resolved
deriving DecidableEq

/-- Reads the nodes of a list in order. -/
def readAll {α : Type} (read : Node → Reading α) : List Node → Reading (List α)
  | [], budget => .ok ([], budget)
  | n :: ns, budget =>
    match read n budget with
    | .error e => .error e
    | .ok (x, budget) =>
      match readAll read ns budget with
      | .error e => .error e
      | .ok (xs, budget) => .ok (x :: xs, budget)

/-- Reads the entries of a mapping in order, each key before its value. -/
def readEntries {α β : Type} (readKey : Node → Reading α) (read : Node → Reading β) :
    List (Node × Node) → Reading (List (α × β))
  | [], budget => .ok ([], budget)
  | (k, v) :: ns, budget =>
    match readKey k budget with
    | .error e => .error e
    | .ok (key, budget) =>
      match read v budget with
      | .error e => .error e
      | .ok (x, budget) =>
        match readEntries readKey read ns budget with
        | .error e => .error e
        | .ok (xs, budget) => .ok ((key, x) :: xs, budget)

/-- A key of a mapping. -/
def key (d : Document) (keys : Keys) (n : Node) : Reading String := fun budget =>
  match keys with
  | .verbatim => d.text n budget
  | .resolved =>
    match d.follow n budget with
    | .error e => .error e
    | .ok (.scalar props plain s, budget) =>
      match scalarValue props plain s with
      | .ok (.text s) => .ok (s, budget)
      | .ok _ => .error .mismatch
      | .error e => .error e
    | .ok _ => .error .mismatch

/-- A node as a value; `depth` more lists and mappings may be opened. Lists and mappings with a tag
    of the document's own are refused, other tags on them mean nothing. -/
def value (d : Document) (keys : Keys) : (depth : Nat) → Node → Reading Value
  | depth, n, budget =>
    match d.follow n budget with
    | .error e => .error e
    | .ok (.scalar props plain s, budget) => (scalarValue props plain s).map (·, budget)
    | .ok (.list props items, budget) =>
      if props.tag.any isLocalTag then .error .tagged
      else match depth with
        | 0 => .error .tooDeep
        | depth + 1 =>
          match readAll (value d keys depth) items budget with
          | .error e => .error e
          | .ok (xs, budget) => .ok (.list xs, budget)
    | .ok (.dict props fields, budget) =>
      if props.tag.any isLocalTag then .error .tagged
      else match depth with
        | 0 => .error .tooDeep
        | depth + 1 =>
          match readEntries (d.key keys) (value d keys depth) fields budget with
          | .error e => .error e
          | .ok (kvs, budget) => .ok (.dict (Fields.ofList kvs), budget)
    | .ok (.alias _, _) => .error .unknownAlias

/-- How often aliases may be followed in reading the document. -/
def budget (d : Document) : Nat := d.size * aliasFactor

end Document

/-! ## Reading field by field -/

/-- Takes the entries of a mapping one by one into a draft. -/
def takeFields {δ : Type} (d : Document) (add : δ → String → Node → Reading δ) (draft : δ) :
    List (Node × Node) → Reading δ
  | [], budget => .ok (draft, budget)
  | (k, v) :: rest, budget =>
    match d.text k budget with
    | .error e => .error e
    | .ok (key, budget) =>
      match add draft key v budget with
      | .error e => .error e
      | .ok (draft, budget) => takeFields d add draft rest budget

/-- Reads a value into a draft. -/
def Reading.into {α δ : Type} (r : Reading α) (f : α → δ) : Reading δ := fun budget =>
  (r budget).map fun (x, budget) => (f x, budget)

end RunCache.Yaml
