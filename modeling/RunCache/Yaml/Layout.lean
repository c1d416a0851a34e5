import RunCache.Yaml.Style

/-! # Layout of YAML documents

    A value is written in blocks: the entries of a mapping one below the
    other, its lists at its own column, everything else two columns
    further in.  What stands behind the mark of a list item, or behind a
    key too long for a line, begins on that line.

    * **`Value.entries`**: the lines of a mapping.
    * **`render`**: a mapping as a document. -/

namespace RunCache.Yaml

/-- The longest key, in bytes, that stands on a line with its value. -/
def maxKeyLength : Nat := 128

/-- Whether a key stands on a line with its value. -/
def isShortKey (key : String) : Bool :=
  !key.toList.any isBreak && key.utf8ByteSize ≤ maxKeyLength

/-- A text and the end of its last line; `column` is that of the list or mapping around it. -/
def textLines (column : Nat) (s : String) : List Char :=
  let cs := s.toList
  let style := Style.ofText s
  style.write (column + 2) cs ++
    if style = .literal ∧ endsWithBreak cs then [] else ['\n']

/-- A number. -/
def numberText : Number → List Char
  | .int n => (toString n).toList
  | .float x => x.text.toList

/-- A key and the mark behind it. -/
def keyLines (column : Nat) (key : String) : List Char :=
  if isShortKey key then (Style.ofText key).write (column + 2) key.toList ++ [':']
  else ['?', ' '] ++ textLines column key ++ spaces column ++ [':']

namespace Layout

mutual

/-- A value behind a key that stands on its line. -/
def afterKey (column : Nat) : Value → List Char
  | .list (x :: xs) => '\n' :: items column (x :: xs)
  | .dict (e :: es) => '\n' :: entries (column + 2) (e :: es)
  | .list [] => [' ', '[', ']', '\n']
  | .dict [] => [' ', '\x7b', '\x7d', '\n']
  | .null => " null\n".toList
  | .bool b => (if b then " true\n" else " false\n").toList
  | .number n => ' ' :: numberText n ++ ['\n']
  | .text s => ' ' :: textLines column s

/-- A value behind a mark. -/
def afterMark (column : Nat) : Value → List Char
  | .list (x :: xs) => [' ', '-'] ++ afterMark (column + 2) x ++ items (column + 2) xs
  | .dict ((k, v) :: es) =>
    ' ' :: keyLines (column + 2) k ++
      (if isShortKey k then afterKey (column + 2) v else afterMark (column + 2) v) ++
      entries (column + 2) es
  | .list [] => [' ', '[', ']', '\n']
  | .dict [] => [' ', '\x7b', '\x7d', '\n']
  | .null => " null\n".toList
  | .bool b => (if b then " true\n" else " false\n").toList
  | .number n => ' ' :: numberText n ++ ['\n']
  | .text s => ' ' :: textLines column s

/-- The items of a list. -/
def items (column : Nat) : List Value → List Char
  | [] => []
  | x :: xs => spaces column ++ '-' :: afterMark column x ++ items column xs

/-- The entries of a mapping. -/
def entries (column : Nat) : List (String × Value) → List Char
  | [] => []
  | (k, v) :: es =>
    spaces column ++ keyLines column k ++
      (if isShortKey k then afterKey column v else afterMark column v) ++
      entries column es

end

end Layout

/-- A mapping that is not empty as a document. -/
def render (fields : List (String × Value)) : String :=
  String.ofList (Layout.entries 0 fields)

end RunCache.Yaml
