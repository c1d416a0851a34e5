import RunCache.Yaml.Resolve

/-! # Styles of YAML text

    A text is written bare where it reads back as itself, else between
    quotes, and over several lines where it holds a line feed.

    * **`Style.ofText`**: the style a text is written in.
    * **`Style.write`**: the text in that style. -/

namespace RunCache.Yaml

/-! ## Properties of a text -/

/-- A character that may stand unescaped. -/
def isShown (c : Char) : Bool :=
  let n := c.toNat
  n = 0x0A || (0x20 ≤ n && n ≤ 0x7E) || (0xA0 ≤ n && n ≤ 0xD7FF) ||
    (0xE000 ≤ n && n ≤ 0xFFFD && n ≠ 0xFEFF) || 0x10000 ≤ n

/-- A character that gives a bare text another meaning when it comes first. -/
def isIndicator (c : Char) : Bool :=
  ['#', ',', '[', ']', '\x7b', '\x7d', '&', '*', '!', '|', '>', '\'', '"', '%', '@',
    '\x60'].contains c

/-- Whether two neighbours anywhere in a text are related. -/
def hasPair (p : Char → Char → Bool) : List Char → Bool
  | c :: d :: rest => p c d || hasPair p (d :: rest)
  | _ => false

/-- A blank or a break. -/
def isGap (c : Char) : Bool := isBlank c || isBreak c

/-- Whether a text begins with a document marker. -/
def startsLikeMarker : List Char → Bool
  | '-' :: '-' :: '-' :: _ | '.' :: '.' :: '.' :: _ => true
  | _ => false

/-- Whether the first character of a text marks something. -/
def startsMarked : List Char → Bool
  | [] => false
  | c :: rest => isIndicator c || ((c = '?' || c = '-') && atGap rest)

/-- Whether a text holds what would end a bare text: a colon before a gap or a hash sign after
    one. -/
def holdsMark (cs : List Char) : Bool :=
  hasPair (fun c d => c = ':' && isGap d) cs || cs.getLast? = some ':' ||
    hasPair (fun c d => isGap c && d = '#') cs

/-- Whether a text begins or ends with a space or a break. -/
def isPaddedText (cs : List Char) : Bool :=
  let edge (c : Option Char) := c.any fun c => c = ' ' || isBreak c
  edge cs.head? || edge cs.getLast?

/-- Whether a text can stand only between double quotes. -/
def needsEscapes (cs : List Char) : Bool :=
  !cs.all isShown || hasPair (fun c d => c = ' ' && isBreak d) cs

/-! ## Choosing a style -/

/-- How a text is written. -/
inductive Style where
  | plain
  | single
  | double
  | literal
deriving DecidableEq, Repr

/-- Whether a text may stand bare. -/
def allowsPlain (cs : List Char) : Bool :=
  !(needsEscapes cs || cs.any isBreak || isPaddedText cs || startsLikeMarker cs ||
    startsMarked cs || holdsMark cs)

/-- Whether a text may stand between single quotes. -/
def allowsSingle (cs : List Char) : Bool :=
  !(needsEscapes cs || hasPair (fun c d => isBreak c && d = ' ') cs)

/-- Whether a text may stand line by line. -/
def allowsLiteral (cs : List Char) : Bool :=
  !(needsEscapes cs || cs.getLast? = some ' ')

/-- Whether a bare text would read back as itself. -/
def readsAsText (s : String) : Bool :=
  Plain.ofText s = .text && !isPadded s.toList

/-- The style of a text. -/
def Style.ofText (s : String) : Style :=
  let cs := s.toList
  if cs.contains '\n' then if allowsLiteral cs then .literal else .double
  else if readsAsText s && allowsPlain cs then .plain
  else if allowsSingle cs then .single
  else .double

/-! ## Writing -/

/-- So many spaces. -/
def spaces (n : Nat) : List Char := List.replicate n ' '

/-- The upper-case hexadecimal digits of a number, at least so many. -/
def hexDigits (width n : Nat) : List Char :=
  let digits := (Nat.toDigits 16 n).map Char.toUpper
  List.replicate (width - digits.length) '0' ++ digits

/-- A character that needs an escape. -/
def escaped (c : Char) : List Char :=
  let n := c.toNat
  '\\' :: (
    if c = '\x00' then ['0']
    else if c = '\x07' then ['a']
    else if c = '\x08' then ['b']
    else if c = '\t' then ['t']
    else if c = '\n' then ['n']
    else if c = '\x0b' then ['v']
    else if c = '\x0c' then ['f']
    else if c = '\r' then ['r']
    else if c = '\x1b' then ['e']
    else if c = '"' ∨ c = '\\' then [c]
    else if c = '\u0085' then ['N']
    else if c = '\u2028' then ['L']
    else if c = '\u2029' then ['P']
    else if n ≤ 0xFF then 'x' :: hexDigits 2 n
    else if n ≤ 0xFFFF then 'u' :: hexDigits 4 n
    else 'U' :: hexDigits 8 n)

/-- A character between double quotes. -/
def doubleQuoted (c : Char) : List Char :=
  if !isShown c || isBreak c || c = '"' || c = '\\' then escaped c else [c]

/-- Characters between single quotes: a quote is doubled, and what follows a break is indented. -/
def singleQuoted (indent : Nat) : (afterBreak : Bool) → List Char → List Char
  | afterBreak, [] => if afterBreak then spaces indent else []
  | afterBreak, c :: cs =>
    if isBreak c then c :: singleQuoted indent true cs
    else
      (if afterBreak then spaces indent else []) ++
        (if c = '\'' then ['\'', '\''] else [c]) ++ singleQuoted indent false cs

/-- Lines of text, each one that is not empty behind its indentation. -/
def literalLines (indent : Nat) : (afterBreak : Bool) → List Char → List Char
  | _, [] => []
  | afterBreak, c :: cs =>
    if isBreak c then c :: literalLines indent true cs
    else (if afterBreak then spaces indent else []) ++ c :: literalLines indent false cs

/-- Whether a text ends with a break. -/
def endsWithBreak (cs : List Char) : Bool := cs.getLast?.any isBreak

/-- How the breaks at the end of a text count: none, the one there is, or all of them. -/
def chomping (cs : List Char) : List Char :=
  match cs.reverse with
  | [] => ['-']
  | [c] => if isBreak c then ['+'] else ['-']
  | c :: d :: _ => if !isBreak c then ['-'] else if isBreak d then ['+'] else []

/-- The header of text that stands line by line. -/
def literalHeader (cs : List Char) : List Char :=
  '|' :: (if cs.head?.any (fun c => c = ' ' || isBreak c) then ['2'] else []) ++ chomping cs

/-- A text in a style, where lines after the first stand at a given indentation. -/
def Style.write (style : Style) (indent : Nat) (cs : List Char) : List Char :=
  match style with
  | .plain => cs
  | .single => '\'' :: singleQuoted indent false cs ++ ['\'']
  | .double => '"' :: cs.flatMap doubleQuoted ++ ['"']
  | .literal => literalHeader cs ++ '\n' :: literalLines indent true cs

end RunCache.Yaml
