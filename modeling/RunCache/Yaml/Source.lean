/-! # YAML source text

    * **`Fault`**: why a stream is refused.
    * **Classes of characters**: breaks, blanks, letters of names, and the
      characters a stream may hold at all.
    * **`decode`**: the characters of a stream, by its byte order mark
      UTF-16 in either order or else UTF-8.
    * **`Cursor`**: the text still to be read and where it begins. -/

namespace RunCache.Yaml

/-! ## Faults -/

/-- Why a stream is refused. -/
inductive Fault where
  | encoding
  | character
  | directive
  | indentation
  | missingValue
  | misplacedKey
  | name
  | quote
  | escape
  | blockHeader
  | token
  | malformed
  | unknownAlias
  | severalDocuments
  | tooDeep
  | tooManyAliases
  | mismatch
  | tagged
  | numberOutOfRange
  | duplicateField (field : String)
deriving DecidableEq, Repr

/-- The wording of a fault. -/
def Fault.message : Fault → String
  | .encoding => "the stream is not valid text"
  | .character => "control characters are not allowed"
  | .directive => "found an unusable directive"
  | .indentation => "found a tab or an entry where indentation is expected"
  | .missingValue => "could not find expected ':'"
  | .misplacedKey => "mapping keys or values are not allowed in this context"
  | .name => "did not find an expected name"
  | .quote => "found unexpected end of quoted text"
  | .escape => "found unknown escape"
  | .blockHeader => "found an unusable header of block text"
  | .token => "found character that cannot start any token"
  | .malformed => "did not find expected node content"
  | .unknownAlias => "unknown anchor"
  | .severalDocuments =>
    "deserializing from YAML containing more than one document is not supported"
  | .tooDeep => "recursion limit exceeded"
  | .tooManyAliases => "repetition limit exceeded"
  | .mismatch => "invalid type"
  | .tagged => "unexpected tag"
  | .numberOutOfRange => "number out of range"
  | .duplicateField field => "duplicate field `" ++ field ++ "`"

/-! ## Classes of characters -/

/-- A line break. -/
def isBreak (c : Char) : Bool :=
  c = '\n' || c = '\r' || c = '\u0085' || c = '\u2028' || c = '\u2029'

/-- A space or a tab. -/
def isBlank (c : Char) : Bool := c = ' ' || c = '\t'

/-- Whether a text is at its end, at a blank or at a break. -/
def atGap : List Char → Bool
  | [] => true
  | c :: _ => isBlank c || isBreak c

/-- Whether a text is at its end or at a break. -/
def atLineEnd : List Char → Bool
  | [] => true
  | c :: _ => isBreak c

/-- A letter of an anchor, a tag handle or a directive name. -/
def isNameChar (c : Char) : Bool :=
  ('0' ≤ c && c ≤ '9') || ('A' ≤ c && c ≤ 'Z') || ('a' ≤ c && c ≤ 'z') ||
    c = '_' || c = '-'

/-- A character a stream may hold. -/
def isAllowed (c : Char) : Bool :=
  let n := c.toNat
  n = 0x09 || n = 0x0A || n = 0x0D || (0x20 ≤ n && n ≤ 0x7E) || n = 0x85 ||
    (0xA0 ≤ n && n ≤ 0xD7FF) || (0xE000 ≤ n && n ≤ 0xFFFD) || 0x10000 ≤ n

/-! ## Decoding -/

/-- The characters of UTF-16 units; a surrogate must be half of a pair. -/
def ofUnits : List Nat → Option (List Char)
  | [] => some []
  | u :: us =>
    if 0xD800 ≤ u ∧ u ≤ 0xDBFF then
      match us with
      | v :: vs =>
        if 0xDC00 ≤ v ∧ v ≤ 0xDFFF then
          (ofUnits vs).map (Char.ofNat ((u - 0xD800) * 0x400 + (v - 0xDC00) + 0x10000) :: ·)
        else none
      | [] => none
    else if 0xDC00 ≤ u ∧ u ≤ 0xDFFF then none
    else (ofUnits us).map (Char.ofNat u :: ·)

/-- The 16-bit units of a byte sequence of even length. -/
def units? (bigEndian : Bool) : List UInt8 → Option (List Nat)
  | [] => some []
  | [_] => none
  | a :: b :: rest =>
    let unit := if bigEndian then a.toNat * 256 + b.toNat else b.toNat * 256 + a.toNat
    (units? bigEndian rest).map (unit :: ·)

/-- The characters of a byte sequence, without its byte order mark. -/
def characters? : List UInt8 → Option (List Char)
  | 0xFF :: 0xFE :: rest => (units? false rest).bind ofUnits
  | 0xFE :: 0xFF :: rest => (units? true rest).bind ofUnits
  | 0xEF :: 0xBB :: 0xBF :: rest => (String.fromUTF8? ⟨rest.toArray⟩).map String.toList
  | rest => (String.fromUTF8? ⟨rest.toArray⟩).map String.toList

/-- The characters of a stream. -/
def decode (bytes : ByteArray) : Except Fault (List Char) :=
  match characters? bytes.data.toList with
  | none => .error .encoding
  | some cs => if cs.all isAllowed then .ok cs else .error .character

/-! ## Cursors -/

/-- A place in a text. -/
structure Mark where
  index : Nat
  line : Nat
  column : Nat
deriving DecidableEq, Repr

/-- The place `n` characters on in the same line. -/
def Mark.right (m : Mark) (n : Nat) : Mark :=
  { m with index := m.index + n, column := m.column + n }

/-- The start of the next line, behind a break of `n` characters. -/
def Mark.down (m : Mark) (n : Nat) : Mark := ⟨m.index + n, m.line + 1, 0⟩

/-- The text still to be read and the place where it begins. -/
structure Cursor where
  mark : Mark
  rest : List Char

namespace Cursor

/-- The start of a text. -/
def start (text : List Char) : Cursor := ⟨⟨0, 0, 0⟩, text⟩

/-- Passes `n` characters of the line. -/
def skip (c : Cursor) (n : Nat) : Cursor := ⟨c.mark.right n, c.rest.drop n⟩

/-- The characters from here on that satisfy `p`, and the place behind them. -/
def span (c : Cursor) (p : Char → Bool) : List Char × Cursor :=
  let taken := c.rest.takeWhile p
  (taken, ⟨c.mark.right taken.length, c.rest.dropWhile p⟩)

/-- Passes characters that satisfy `p`. -/
def skipWhile (c : Cursor) (p : Char → Bool) : Cursor := (c.span p).2

/-- The break at the cursor as it counts in text, and the place behind it. A carriage return and
    line feed count as one; only the separators of Unicode keep their character. -/
def takeBreak (c : Cursor) : List Char × Cursor :=
  match c.rest with
  | '\r' :: '\n' :: rest => (['\n'], ⟨c.mark.down 2, rest⟩)
  | b :: rest =>
    if b = '\u2028' ∨ b = '\u2029' then ([b], ⟨c.mark.down 1, rest⟩)
    else if isBreak b then (['\n'], ⟨c.mark.down 1, rest⟩)
    else ([], c)
  | [] => ([], c)

/-- Passes a break, if there is one. -/
def skipBreak (c : Cursor) : Cursor := c.takeBreak.2

/-- Passes everything up to the end of the line. -/
def skipLine (c : Cursor) : Cursor := c.skipWhile (fun x => !isBreak x)

/-- Whether the three characters of a document marker stand alone at the start of a line. -/
def atMarker (c : Cursor) (marker : Char) : Bool :=
  c.mark.column == 0 && match c.rest with
    | x :: y :: z :: rest => x = marker && y = marker && z = marker && atGap rest
    | _ => false

/-- Whether a document starts or ends here. -/
def atDocumentMarker (c : Cursor) : Bool := c.atMarker '-' || c.atMarker '.'

end Cursor

end RunCache.Yaml
