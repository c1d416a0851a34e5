import RunCache.Document.Value

/-! # JSON trees

    A JSON text is read into a tree in document order.  Reading never
    fails outright: where the text breaks off the tree ends in the fault,
    and everything before it is kept.  A reader of the tree that goes
    through it in order therefore meets its own complaints and the faults
    of the text in the order in which the text shows them. -/

namespace RunCache.Json

/-! ## Faults -/

/-- What can be wrong with a JSON text. -/
inductive Fault where
  | endInText
  | endInList
  | endInDict
  | endInValue
  | expectedColon
  | expectedListSeparator
  | expectedDictSeparator
  | expectedWord
  | expectedValue
  | trailingComma
  | trailingCharacters
  | keyNotText
  | invalidNumber
  | numberOutOfRange
  | tooDeep
  | controlCharacter
  | invalidEscape
  | unfinishedSurrogate
  | loneSurrogate
  | invalidCodePoint
deriving DecidableEq, Repr

/-- The wording of a fault. -/
def Fault.message : Fault → String
  | .endInText => "EOF while parsing a string"
  | .endInList => "EOF while parsing a list"
  | .endInDict => "EOF while parsing an object"
  | .endInValue => "EOF while parsing a value"
  | .expectedColon => "expected `:`"
  | .expectedListSeparator => "expected `,` or `]`"
  | .expectedDictSeparator => "expected `,` or `\x7d`"
  | .expectedWord => "expected ident"
  | .expectedValue => "expected value"
  | .trailingComma => "trailing comma"
  | .trailingCharacters => "trailing characters"
  | .keyNotText => "key must be a string"
  | .invalidNumber => "invalid number"
  | .numberOutOfRange => "number out of range"
  | .tooDeep => "recursion limit exceeded"
  | .controlCharacter => "control character (\\u0000-\\u001F) found while parsing a string"
  | .invalidEscape => "invalid escape"
  | .unfinishedSurrogate => "unexpected end of hex escape"
  | .loneSurrogate => "lone leading surrogate in hex escape"
  | .invalidCodePoint => "invalid unicode code point"

/-! ## Trees -/

/-- A JSON text as far as it can be read. -/
inductive Tree where
  | null
  | bool (b : Bool)
  | number (n : Number)
  | text (s : String)
  | list (items : List Tree) (stop : Option Fault)
  | dict (fields : List (String × Tree)) (stop : Option Fault)
  | broken (fault : Fault)
deriving Inhabited

mutual

/-- The value of a tree, or the first fault in it. Of repeated keys the last one counts. -/
def Tree.value : Tree → Except Fault Value
  | .null => .ok .null
  | .bool b => .ok (.bool b)
  | .number n => .ok (.number n)
  | .text s => .ok (.text s)
  | .list items stop =>
    match itemValues items with
    | .error e => .error e
    | .ok vs => match stop with
      | some e => .error e
      | none => .ok (.list vs)
  | .dict fields stop =>
    match fieldValues fields with
    | .error e => .error e
    | .ok kvs => match stop with
      | some e => .error e
      | none => .ok (.dict (Fields.ofList kvs))
  | .broken e => .error e

/-- The values of the items of a list, in order. -/
def itemValues : List Tree → Except Fault (List Value)
  | [] => .ok []
  | t :: ts =>
    match t.value with
    | .error e => .error e
    | .ok v => (itemValues ts).map (v :: ·)

/-- The values of the entries of a mapping, in order. -/
def fieldValues : List (String × Tree) → Except Fault (List (String × Value))
  | [] => .ok []
  | (k, t) :: ts =>
    match t.value with
    | .error e => .error e
    | .ok v => (fieldValues ts).map ((k, v) :: ·)

end

end RunCache.Json
