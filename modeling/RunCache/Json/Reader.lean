import RunCache.Json.Text

/-! # Reading JSON

    * **`read`**: the tree of a text.
    * **`maxDepth`**: how many lists and mappings may be nested in one
      another.

    Every step takes at least one byte from the text, so the count of
    bytes bounds the recursion. -/

namespace RunCache.Json

/-- The number of open lists and mappings at which reading gives up. -/
def maxDepth : Nat := 128

/-- Blanks between the parts of a text. -/
def isBlank (b : UInt8) : Bool := b == 0x20 || b == 0x0A || b == 0x09 || b == 0x0D

/-- Drops leading blanks. -/
def skipBlanks (bs : Rest) : Rest := bs.dropWhile isBlank

/-- A tree and what follows it; nothing follows a tree that breaks off. -/
abbrev Part := Tree × Option Rest

/-- The remaining letters of a word. -/
def readWord (word : List UInt8) (tree : Tree) (bs : Rest) : Part :=
  match word, bs with
  | [], rest => (tree, some rest)
  | _ :: _, [] => (.broken .endInValue, none)
  | w :: word, b :: rest =>
    if w = b then readWord word tree rest else (.broken .expectedWord, none)

/-- The part of a number. -/
def numberPart : Except Fault (Number × Rest) → Part
  | .ok (n, rest) => (.number n, some rest)
  | .error e => (.broken e, none)

mutual

/-- A value; `level` lists and mappings surround it. -/
def readTree (steps level : Nat) (bs : Rest) : Part :=
  match steps with
  | 0 => (.broken .endInValue, none)
  | steps + 1 =>
    match skipBlanks bs with
    | [] => (.broken .endInValue, none)
    | b :: rest =>
      if b = 0x6E then readWord [0x75, 0x6C, 0x6C] .null rest
      else if b = 0x74 then readWord [0x72, 0x75, 0x65] (.bool true) rest
      else if b = 0x66 then readWord [0x61, 0x6C, 0x73, 0x65] (.bool false) rest
      else if b = 0x2D then numberPart (readNumber true rest)
      else if (digit? b).isSome then numberPart (readNumber false (b :: rest))
      else if b = 0x22 then
        match readText rest with
        | .ok (s, rest) => (.text s, some rest)
        | .error e => (.broken e, none)
      else if b = 0x5B then
        if level + 1 = maxDepth then (.broken .tooDeep, none)
        else readItems steps (level + 1) true [] rest
      else if b = 0x7B then
        if level + 1 = maxDepth then (.broken .tooDeep, none)
        else readFields steps (level + 1) true [] rest
      else (.broken .expectedValue, none)

/-- The items of a list from its bracket, or from behind an item, to its closing bracket.
    `items` are those already read, the latest one first. -/
def readItems (steps level : Nat) (first : Bool) (items : List Tree) (bs : Rest) : Part :=
  match steps with
  | 0 => (.broken .endInValue, none)
  | steps + 1 =>
    let stopped (e : Fault) : Part := (.list items.reverse (some e), none)
    let next (bs : Rest) : Part :=
      match readTree steps level bs with
      | (t, some rest) => readItems steps level false (t :: items) rest
      | (t, none) => (.list (t :: items).reverse none, none)
    match skipBlanks bs with
    | [] => stopped .endInList
    | b :: rest =>
      if b = 0x5D then (.list items.reverse none, some rest)
      else if first then next (b :: rest)
      else if b = 0x2C then
        match skipBlanks rest with
        | [] => stopped .endInValue
        | 0x5D :: _ => stopped .trailingComma
        | rest => next rest
      else stopped .expectedListSeparator

/-- The entries of a mapping, likewise. -/
def readFields (steps level : Nat) (first : Bool) (fields : List (String × Tree)) (bs : Rest) :
    Part :=
  match steps with
  | 0 => (.broken .endInValue, none)
  | steps + 1 =>
    let stopped (e : Fault) : Part := (.dict fields.reverse (some e), none)
    let value (key : String) (bs : Rest) : Part :=
      match readTree steps level bs with
      | (t, some rest) => readFields steps level false ((key, t) :: fields) rest
      | (t, none) => (.dict ((key, t) :: fields).reverse none, none)
    let entry (bs : Rest) : Part :=
      match readText bs with
      | .error e => stopped e
      | .ok (key, rest) =>
        let brokenAt (e : Fault) : Part := (.dict ((key, .broken e) :: fields).reverse none, none)
        match skipBlanks rest with
        | [] => brokenAt .endInDict
        | 0x3A :: rest => value key rest
        | _ :: _ => brokenAt .expectedColon
    match skipBlanks bs with
    | [] => stopped .endInDict
    | b :: rest =>
      if b = 0x7D then (.dict fields.reverse none, some rest)
      else if first then if b = 0x22 then entry rest else stopped .keyNotText
      else if b = 0x2C then
        match skipBlanks rest with
        | [] => stopped .endInValue
        | 0x22 :: rest => entry rest
        | 0x7D :: _ => stopped .trailingComma
        | _ :: _ => stopped .keyNotText
      else stopped .expectedDictSeparator

end

/-- The tree of a text, and the fault of what follows it. -/
def read (bs : Rest) : Tree × Option Fault :=
  match readTree (2 * bs.length + 2) 0 bs with
  | (t, none) => (t, none)
  | (t, some rest) =>
    (t, if (skipBlanks rest).isEmpty then none else some .trailingCharacters)

end RunCache.Json
