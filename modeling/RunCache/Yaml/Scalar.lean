import RunCache.Yaml.Source

/-! # YAML scalars

    The three ways to write a scalar, each read into the text it stands
    for:

    * **quoted**: between single or double quotes, with escapes in the
      latter.
    * **plain**: without any mark, up to an indicator or a line of less
      indentation.
    * **block**: lines of one indentation, kept or folded.

    Lines of quoted and plain text are joined by the rule of `Gap.text`:
    one break is a space, further breaks stand for themselves. -/

namespace RunCache.Yaml

/-! ## Gaps -/

/-- Blanks and breaks between two pieces of a text. Blanks count until the first break. -/
structure Gap where
  blanks : List Char := []
  first : List Char := []
  more : List Char := []
  broken : Bool := false

/-- What a gap contributes to the text. -/
def Gap.text (g : Gap) : List Char :=
  if g.broken then
    if g.first = ['\n'] then if g.more = [] then [' '] else g.more
    else g.first ++ g.more
  else g.blanks

/-- A blank of the gap. -/
def Gap.addBlank (g : Gap) (c : Char) : Gap :=
  if g.broken then g else { g with blanks := g.blanks ++ [c] }

/-- A break of the gap. -/
def Gap.addBreak (g : Gap) (b : List Char) : Gap :=
  if g.broken then { g with more := g.more ++ b }
  else { g with blanks := [], first := b, broken := true }

/-- Passes blanks and breaks. With a `margin` no tab may stand to the left of it in a line that
    the gap has begun. -/
def readGap (margin : Option Int) (g : Gap) (mark : Mark) : List Char → Except Fault (Gap × Cursor)
  | [] => .ok (g, ⟨mark, []⟩)
  | c :: cs =>
    if isBlank c then
      if g.broken && c = '\t' && margin.any (fun m => (mark.column : Int) < m) then
        .error .indentation
      else readGap margin (g.addBlank c) (mark.right 1) cs
    else if c = '\r' then
      match cs with
      | '\n' :: cs => readGap margin (g.addBreak ['\n']) (mark.down 2) cs
      | cs => readGap margin (g.addBreak ['\n']) (mark.down 1) cs
    else if c = '\u2028' ∨ c = '\u2029' then readGap margin (g.addBreak [c]) (mark.down 1) cs
    else if isBreak c then readGap margin (g.addBreak ['\n']) (mark.down 1) cs
    else .ok (g, ⟨mark, c :: cs⟩)

/-! ## Escapes -/

/-- The value of a hexadecimal digit. -/
def hexDigit? (c : Char) : Option Nat :=
  if '0' ≤ c ∧ c ≤ '9' then some (c.toNat - '0'.toNat)
  else if 'A' ≤ c ∧ c ≤ 'F' then some (c.toNat - 'A'.toNat + 10)
  else if 'a' ≤ c ∧ c ≤ 'f' then some (c.toNat - 'a'.toNat + 10)
  else none

/-- The number written by `n` hexadecimal digits, the first of which is the most significant. -/
def hexNumber? : (n : Nat) → (value : Nat) → List Char → Option Nat
  | 0, value, _ => some value
  | _, _, [] => none
  | n + 1, value, c :: cs =>
    match hexDigit? c with
    | some d => hexNumber? n (value * 16 + d) cs
    | none => none

/-- The character of a numeric escape with `n` digits. -/
def numericEscape (n : Nat) (cs : List Char) : Except Fault (Char × Nat) :=
  match hexNumber? n 0 cs with
  | none => .error .escape
  | some v =>
    if (0xD800 ≤ v ∧ v ≤ 0xDFFF) ∨ 0x10FFFF < v then .error .escape
    else .ok (Char.ofNat v, n + 1)

/-- The character of an escape behind its backslash, and the count of characters it takes. -/
def readEscape : List Char → Except Fault (Char × Nat)
  | [] => .error .escape
  | c :: cs =>
    match c with
    | '0' => .ok ('\x00', 1)
    | 'a' => .ok ('\x07', 1)
    | 'b' => .ok ('\x08', 1)
    | 't' => .ok ('\t', 1)
    | '\t' => .ok ('\t', 1)
    | 'n' => .ok ('\n', 1)
    | 'v' => .ok ('\x0b', 1)
    | 'f' => .ok ('\x0c', 1)
    | 'r' => .ok ('\r', 1)
    | 'e' => .ok ('\x1b', 1)
    | ' ' => .ok (' ', 1)
    | '"' => .ok ('"', 1)
    | '/' => .ok ('/', 1)
    | '\\' => .ok ('\\', 1)
    | 'N' => .ok ('\u0085', 1)
    | '_' => .ok ('\u00a0', 1)
    | 'L' => .ok ('\u2028', 1)
    | 'P' => .ok ('\u2029', 1)
    | 'x' => numericEscape 2 cs
    | 'u' => numericEscape 4 cs
    | 'U' => numericEscape 8 cs
    | _ => .error .escape

/-! ## Quoted text -/

/-- Why a piece of quoted text ends: at the closing quote, or at a gap, which may begin with an
    escaped break. -/
inductive PieceEnd where
  | quote
  | gap (escapedBreak : Bool)
deriving DecidableEq

/-- A piece of quoted text without blanks and breaks. -/
def readPiece (single : Bool) : (steps : Nat) → Cursor →
    Except Fault (List Char × PieceEnd × Cursor)
  | 0, c => .ok ([], .gap false, c)
  | steps + 1, c =>
    let keep (x : Char) (next : Cursor) :=
      (readPiece single steps next).map fun (xs, stop, c) => (x :: xs, stop, c)
    match c.rest with
    | [] => .ok ([], .gap false, c)
    | x :: xs =>
      if isBlank x || isBreak x then .ok ([], .gap false, c)
      else if single then
        if x = '\'' then
          match xs with
          | '\'' :: _ => keep '\'' (c.skip 2)
          | _ => .ok ([], .quote, c)
        else keep x (c.skip 1)
      else if x = '"' then .ok ([], .quote, c)
      else if x = '\\' then
        match xs with
        | b :: _ =>
          if isBreak b then .ok ([], .gap true, (c.skip 1).skipBreak)
          else match readEscape xs with
            | .error e => .error e
            | .ok (y, n) => keep y (c.skip (n + 1))
        | [] => .error .escape
      else keep x (c.skip 1)

/-- Quoted text behind its opening quote, up to and with its closing quote. -/
def readQuoted (single : Bool) : (steps : Nat) → Cursor → Except Fault (List Char × Cursor)
  | 0, _ => .error .quote
  | steps + 1, c =>
    if c.atDocumentMarker then .error .quote
    else match readPiece single (c.rest.length + 1) c with
      | .error e => .error e
      | .ok (piece, .quote, c) => .ok (piece, c.skip 1)
      | .ok (piece, .gap escaped, c) =>
        match readGap none { broken := escaped } c.mark c.rest with
        | .error e => .error e
        | .ok (g, c) =>
          if c.rest.isEmpty then .error .quote
          else match readQuoted single steps c with
            | .error e => .error e
            | .ok (more, c) => .ok (piece ++ g.text ++ more, c)

/-! ## Plain text -/

/-- Whether a character ends plain text between brackets. -/
def isFlowIndicator (c : Char) : Bool :=
  c = ',' || c = '[' || c = ']' || c = '\x7b' || c = '\x7d'

/-- A piece of plain text: it ends before a blank, a break, a colon that a gap follows and,
    between brackets, an indicator. A colon before an indicator is refused there. -/
def readPlainPiece (flow : Bool) (mark : Mark) : List Char → Except Fault (List Char × Cursor)
  | [] => .ok ([], ⟨mark, []⟩)
  | c :: cs =>
    if isBlank c || isBreak c then .ok ([], ⟨mark, c :: cs⟩)
    else if flow && c = ':' && cs.head?.any (fun x => isFlowIndicator x || x = '?') then
      .error .token
    else if (c = ':' && atGap cs) || (flow && isFlowIndicator c) then .ok ([], ⟨mark, c :: cs⟩)
    else (readPlainPiece flow (mark.right 1) cs).map fun (xs, rest) => (c :: xs, rest)

/-- Plain text: its characters, whether it ends behind a break, and the place behind it. The text
    is `soFar` and a pending gap when a further piece is looked for; outside brackets a line that
    begins left of `margin` does not belong to it. -/
def readPlain (flow : Bool) (margin : Int) (soFar : List Char) (gap : Gap) :
    (steps : Nat) → Cursor → Except Fault (List Char × Bool × Cursor)
  | 0, c => .ok (soFar, gap.broken, c)
  | steps + 1, c =>
    if c.atDocumentMarker || c.rest.head? = some '#' then .ok (soFar, gap.broken, c)
    else match readPlainPiece flow c.mark c.rest with
      | .error e => .error e
      | .ok (piece, c) =>
        let (soFar, gap) := if piece.isEmpty then (soFar, gap)
          else (soFar ++ gap.text ++ piece, {})
        if atGap c.rest && !c.rest.isEmpty then
          match readGap (some margin) {} c.mark c.rest with
          | .error e => .error e
          | .ok (g, c) =>
            if !flow && (c.mark.column : Int) < margin then .ok (soFar, g.broken, c)
            else readPlain flow margin soFar g steps c
        else .ok (soFar, gap.broken, c)

/-! ## Block text -/

/-- What becomes of the breaks at the end of block text. -/
inductive Chomp where
  | clip
  | strip
  | keep
deriving DecidableEq

/-- The header of block text: what to do with its end and how far it is indented, `0` when its
    first line tells. -/
structure BlockHeader where
  chomp : Chomp := .clip
  indent : Nat := 0

/-- The chomping mark of a header. -/
def chomp? (c : Char) : Option Chomp :=
  if c = '+' then some .keep else if c = '-' then some .strip else none

/-- The indentation mark of a header. -/
def blockIndent? (c : Char) : Option Nat :=
  if '0' ≤ c ∧ c ≤ '9' then some (c.toNat - '0'.toNat) else none

/-- Reads a header: both marks may stand in either order, and no line may be indented by zero. -/
def readBlockHeader (c : Cursor) : Except Fault (BlockHeader × Cursor) :=
  let indentAt (c : Cursor) : Except Fault (Nat × Cursor) :=
    match c.rest.head?.bind blockIndent? with
    | some 0 => .error .blockHeader
    | some n => .ok (n, c.skip 1)
    | none => .ok (0, c)
  let chompAt (c : Cursor) : Option Chomp × Cursor :=
    match c.rest.head?.bind chomp? with
    | some x => (some x, c.skip 1)
    | none => (none, c)
  match chompAt c with
  | (some chomp, c) => (indentAt c).map fun (indent, c) => ({ chomp, indent }, c)
  | (none, c) =>
    match indentAt c with
    | .error e => .error e
    | .ok (0, c) => .ok ({}, c)
    | .ok (indent, c) =>
      let (chomp, c) := chompAt c
      .ok ({ chomp := chomp.getD .clip, indent }, c)

/-- The rest of a header line: blanks and a comment. -/
def finishHeader (c : Cursor) : Except Fault Cursor :=
  let c := c.skipWhile isBlank
  let c := if c.rest.head? = some '#' then c.skipLine else c
  if atLineEnd c.rest then .ok c.skipBreak else .error .blockHeader

/-- Passes indentation and empty lines of block text: the breaks, the deepest indentation seen and
    the place behind. `indent` is `0` while it is to be found out. -/
def readIndents (indent : Nat) (deepest : Nat) (breaks : List Char) (mark : Mark) :
    List Char → Except Fault (List Char × Nat × Cursor)
  | [] => .ok (breaks, max deepest mark.column, ⟨mark, []⟩)
  | c :: cs =>
    let within := indent = 0 || mark.column < indent
    let deepest' := max deepest mark.column
    if c = ' ' && within then readIndents indent deepest breaks (mark.right 1) cs
    else if c = '\t' && within then .error .indentation
    else if c = '\r' then
      match cs with
      | '\n' :: cs => readIndents indent deepest' (breaks ++ ['\n']) (mark.down 2) cs
      | cs => readIndents indent deepest' (breaks ++ ['\n']) (mark.down 1) cs
    else if c = '\u2028' ∨ c = '\u2029' then
      readIndents indent deepest' (breaks ++ [c]) (mark.down 1) cs
    else if isBreak c then readIndents indent deepest' (breaks ++ ['\n']) (mark.down 1) cs
    else .ok (breaks, deepest', ⟨mark, c :: cs⟩)

/-- The lines of block text. `lead` is the break before the next line, `breaks` are the empty lines
    after it, and `leadBlank` says whether the line before began with a blank: in folded text a
    single break between two lines that do not becomes a space. -/
def readLines (folded : Bool) (indent : Nat) (lead breaks : List Char) (leadBlank : Bool) :
    (steps : Nat) → Cursor → Except Fault (List Char × List Char × List Char × Cursor)
  | 0, c => .ok ([], lead, breaks, c)
  | steps + 1, c =>
    if c.mark.column = indent && !c.rest.isEmpty then
      let blank := c.rest.head?.any isBlank
      let joint :=
        if folded && lead = ['\n'] && !leadBlank && !blank then
          (if breaks = [] then [' '] else []) ++ breaks
        else lead ++ breaks
      let (line, c) := c.span (fun x => !isBreak x)
      let (lead, c) := c.takeBreak
      match readIndents indent 0 [] c.mark c.rest with
      | .error e => .error e
      | .ok (breaks, _, c) =>
        match readLines folded indent lead breaks blank steps c with
        | .error e => .error e
        | .ok (more, lead, breaks, c) => .ok (joint ++ line ++ more, lead, breaks, c)
    else .ok ([], lead, breaks, c)

/-- Block text behind its indicator, inside a block of indentation `parent`. -/
def readBlock (folded : Bool) (parent : Int) (c : Cursor) : Except Fault (List Char × Cursor) :=
  match readBlockHeader c with
  | .error e => .error e
  | .ok (header, c) =>
    match finishHeader c with
    | .error e => .error e
    | .ok c =>
      let given := if header.indent = 0 then 0
        else if 0 ≤ parent then parent.toNat + header.indent else header.indent
      match readIndents given 0 [] c.mark c.rest with
      | .error e => .error e
      | .ok (breaks, deepest, c) =>
        let indent := if given = 0 then max (max deepest (parent + 1).toNat) 1 else given
        match readLines folded indent [] breaks false (c.rest.length + 1) c with
        | .error e => .error e
        | .ok (text, lead, breaks, c) =>
          let tail := match header.chomp with
            | .strip => []
            | .clip => lead
            | .keep => lead ++ breaks
          .ok (text ++ tail, c)

end RunCache.Yaml
