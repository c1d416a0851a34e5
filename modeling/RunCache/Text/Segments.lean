/-! # Segments

    Names of objects and paths of files are segments with slashes between
    them.

    * **`segments`**: the segments of a text; there is always one, and any
      of them may be empty.
    * **`joined`**: the text of a list of segments. -/

namespace RunCache.Text

/-- Cuts a text at each slash. -/
def cut : List Char → List (List Char)
  | [] => [[]]
  | c :: cs =>
    if c = '/' then [] :: cut cs
    else match cut cs with
      | s :: rest => (c :: s) :: rest
      | [] => [[c]]

/-- The segments of a text. -/
def segments (s : String) : List String := (cut s.toList).map String.ofList

/-- The text of a list of segments. -/
def joined (segments : List String) : String := "/".intercalate segments

/-- Whether a text begins with another one. -/
def startsWith (s start : String) : Bool := start.toList.isPrefixOf s.toList

/-- Whether a text ends with another one. -/
def endsWith (s tail : String) : Bool := tail.toList.isSuffixOf s.toList

/-- Whether a pattern occurs in a text. -/
def occurs (pattern : List Char) : List Char → Bool
  | [] => pattern.isEmpty
  | c :: cs => pattern.isPrefixOf (c :: cs) || occurs pattern cs

/-- Whether a text holds another one. -/
def holds (s part : String) : Bool := occurs part.toList s.toList

end RunCache.Text
