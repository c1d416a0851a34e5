import RunCache.Text.Segments

/-! # Paths

    A path is its text; nothing is normalised.

    * **`Path.join`**: an absolute text replaces what is before it.
    * **`Path.parts`**: what the path passes through. Empty segments do
      not count, nor do single dots except at the start.
    * **`Path.parent?`**, **`Path.ancestors`**: the paths above a path.
    * **`Path.withFileName`**: the path of another file in the directory. -/

namespace RunCache

/-- A path. -/
structure Path where
  text : String
deriving DecidableEq, Repr, Inhabited

namespace Path

open Text (segments joined)

/-- Whether the path starts at the root. -/
def isAbsolute (p : Path) : Bool := p.text.toList.head? = some '/'

/-- Whether the path ends with a slash. -/
def endsWithSlash (p : Path) : Bool := p.text.toList.getLast? = some '/'

/-- The path of a text seen from another path. An absolute text stands for itself; an empty one
    only ends the path with a slash. -/
def join (p : Path) (s : String) : Path :=
  if s.toList.head? = some '/' then ⟨s⟩
  else if p.text.isEmpty || p.endsWithSlash then ⟨p.text ++ s⟩
  else ⟨p.text ++ "/" ++ s⟩

/-! ## Parts -/

/-- The part that stands for the root. -/
def rootPart : String := "/"

/-- Whether a segment leads nowhere. -/
def isIdle (s : String) : Bool := s = "" || s = "."

/-- The segments behind the slash of an absolute path, or all of them. -/
def body (p : Path) : List String :=
  if p.isAbsolute then (segments p.text).tail else segments p.text

/-- What a path passes through. -/
def parts (p : Path) : List String :=
  if p.isAbsolute then rootPart :: p.body.filter (!isIdle ·)
  else match p.body with
    | "." :: rest => "." :: rest.filter (!isIdle ·)
    | segs => segs.filter (!isIdle ·)

/-- Whether a path is another one or lies below it, part by part. -/
def isBelow (p above : Path) : Bool := above.parts.isPrefixOf p.parts

/-- Segments without those at their end that lead nowhere; a dot at the start of a path that is not
    absolute stays. -/
def trimEnd (absolute : Bool) (segs : List String) : List String :=
  match absolute, segs with
  | false, "." :: rest => "." :: (rest.reverse.dropWhile isIdle).reverse
  | _, segs => (segs.reverse.dropWhile isIdle).reverse

/-- The path of segments. -/
def ofBody (absolute : Bool) (segs : List String) : Path :=
  ⟨(if absolute then "/" else "") ++ joined segs⟩

/-- The path without its last part; the root and the empty path have none. -/
def parent? (p : Path) : Option Path :=
  match trimEnd p.isAbsolute p.body with
  | [] => none
  | s :: segs =>
    some (ofBody p.isAbsolute (trimEnd p.isAbsolute ((s :: segs).dropLast)))

/-- The paths above a path, itself first. -/
def ancestorsWithin : (count : Nat) → Path → List Path
  | 0, p => [p]
  | n + 1, p =>
    match p.parent? with
    | some q => p :: ancestorsWithin n q
    | none => [p]

/-- The paths above a path, itself first. -/
def ancestors (p : Path) : List Path := ancestorsWithin p.parts.length p

/-- The last part, if it is a name. -/
def fileName? (p : Path) : Option String :=
  match p.parts.getLast? with
  | some s => if s = rootPart ∨ s = "." ∨ s = ".." then none else some s
  | none => none

/-- The path with another last name. -/
def withFileName (p : Path) (name : String) : Path :=
  match p.fileName?, p.parent? with
  | some _, some parent => parent.join name
  | _, _ => p.join name

end Path

end RunCache
