import RunCache.Number.Decimal
import RunCache.Yaml.Scalar

/-! # YAML tokens

    A stream of characters becomes a list of tokens.  Indentation shows in
    it as tokens that open and close blocks, and a key without a mark of
    its own gets one as soon as the colon behind it is found: until then
    its place is kept as *pending*.

    * **`Token`**: the tokens.
    * **`Lexer`**: the tokens so far, the open blocks and the pending keys.
    * **`Token.scan`**: all tokens of a text. -/

namespace RunCache.Yaml

/-! ## Tokens -/

/-- A token of a stream. -/
inductive Token where
  | version (major minor : Nat)
  | tagHandle (handle expansion : String)
  | documentStart
  | documentEnd
  | blockList
  | blockDict
  | blockEnd
  | openList
  | closeList
  | openDict
  | closeDict
  | comma
  | dash
  | key
  | value
  | alias (name : String)
  | anchor (name : String)
  | tag (handle suffix : String)
  | scalar (plain : Bool) (text : String)
deriving DecidableEq, Repr

/-- A place where a key without a mark may have begun: the count of tokens before it and where it
    stands. A required one is the only thing that can stand there. -/
structure PendingKey where
  tokensBefore : Nat
  mark : Mark
  required : Bool

/-- A text being divided into tokens, the latest token first. There is one slot for a pending key
    per level of brackets, the innermost first. -/
structure Lexer where
  cursor : Cursor
  tokens : List Token := []
  count : Nat := 0
  indent : Int := -1
  outer : List Int := []
  flow : Nat := 0
  keyAllowed : Bool := true
  pending : List (Option PendingKey) := [none]

namespace Lexer

/-- Adds a token behind the others. -/
def push (l : Lexer) (t : Token) : Lexer :=
  { l with tokens := t :: l.tokens, count := l.count + 1 }

/-- Adds a token behind the first `n` ones. -/
def insertAfter (l : Lexer) (n : Nat) (t : Token) : Lexer :=
  let newer := l.count - n
  { l with tokens := l.tokens.take newer ++ t :: l.tokens.drop newer, count := l.count + 1 }

/-- Moves on by `n` characters. -/
def skip (l : Lexer) (n : Nat) : Lexer := { l with cursor := l.cursor.skip n }

/-- Says whether a key may begin at the next token. -/
def allowKey (l : Lexer) (allowed : Bool) : Lexer := { l with keyAllowed := allowed }

/-- Whether brackets are open. -/
def inFlow (l : Lexer) : Bool := l.flow ≠ 0

/-! ## Pending keys -/

/-- The pending key of the innermost level. -/
def pendingKey (l : Lexer) : Option PendingKey := l.pending.head?.join

/-- Sets the pending key of the innermost level. -/
def setPending (l : Lexer) (k : Option PendingKey) : Lexer :=
  { l with pending := k :: l.pending.drop 1 }

/-- Gives up the pending key, which must not be a required one. -/
def dropPending (l : Lexer) : Except Fault Lexer :=
  if l.pendingKey.any (·.required) then .error .missingValue else .ok (l.setPending none)

/-- Notes that a key may begin here. -/
def savePending (l : Lexer) : Except Fault Lexer :=
  if l.keyAllowed then
    l.dropPending.map fun l =>
      l.setPending (some
        { tokensBefore := l.count, mark := l.cursor.mark
          required := !l.inFlow && l.indent = (l.cursor.mark.column : Int) })
  else .ok l

/-- The greatest distance between a key without a mark and its colon. -/
def maxKeyLength : Nat := 1024

/-- Whether a pending key can no longer be one: its colon stands in the same line and near. -/
def PendingKey.isStale (k : PendingKey) (m : Mark) : Bool :=
  k.mark.line < m.line || k.mark.index + maxKeyLength < m.index

/-- Gives up all pending keys that can no longer be ones. -/
def dropStale (l : Lexer) : Except Fault Lexer :=
  let m := l.cursor.mark
  if l.pending.any (fun k => k.any fun k => PendingKey.isStale k m && k.required) then
    .error .missingValue
  else .ok { l with pending := l.pending.map (·.filter fun k => !PendingKey.isStale k m) }

/-! ## Indentation -/

/-- Opens a block at `column` if it is deeper than the current one; its token goes behind the first
    `n` tokens, or behind all of them. -/
def indentTo (l : Lexer) (column : Nat) (n : Option Nat) (t : Token) : Lexer :=
  if l.inFlow then l
  else if l.indent < (column : Int) then
    let l := { l with indent := column, outer := l.indent :: l.outer }
    match n with
    | some n => l.insertAfter n t
    | none => l.push t
  else l

/-- Closes the blocks that are deeper than `column`; `outer` are the indentations around the
    current one. -/
def closeBlocks (tokens : List Token) (count : Nat) (column : Int) (indent : Int) :
    (outer : List Int) → List Token × Nat × Int × List Int
  | [] => (tokens, count, indent, [])
  | i :: is =>
    if column < indent then closeBlocks (.blockEnd :: tokens) (count + 1) column i is
    else (tokens, count, indent, i :: is)

/-- Closes the blocks that are deeper than `column`. -/
def dedentTo (l : Lexer) (column : Int) : Lexer :=
  if l.inFlow then l
  else
    let (tokens, count, indent, outer) := closeBlocks l.tokens l.count column l.indent l.outer
    { l with tokens, count, indent, outer }

/-! ## Blanks -/

/-- Passes blanks, comments and breaks. A tab is a blank where no key may begin. A break outside
    brackets allows a key in the next line. -/
def skipToToken : (steps : Nat) → Lexer → Lexer
  | 0, l => l
  | steps + 1, l =>
    let c := if l.cursor.mark.index = 0 ∧ l.cursor.rest.head? = some '\ufeff'
      then l.cursor.skip 1 else l.cursor
    let tabs := l.inFlow || !l.keyAllowed
    let c := c.skipWhile (fun x => x = ' ' || (tabs && x = '\t'))
    let c := if c.rest.head? = some '#' then c.skipLine else c
    if c.rest.head?.any isBreak then
      skipToToken steps
        { l with cursor := c.skipBreak, keyAllowed := l.keyAllowed || !l.inFlow }
    else { l with cursor := c }

/-! ## Directives -/

/-- A number of a version directive, of nine digits at most. -/
def readVersionNumber (c : Cursor) : Except Fault (Nat × Cursor) :=
  let (digits, c) := c.span isDigit
  if digits.isEmpty ∨ 9 < digits.length then .error .directive
  else .ok (ofDigits 10 (digits.filterMap digitValue?), c)

/-- A tag handle: an exclamation mark, letters, and a second mark if there is one. -/
def readHandle (c : Cursor) : Except Fault (List Char × Cursor) :=
  match c.rest with
  | '!' :: _ =>
    let (letters, c) := (c.skip 1).span isNameChar
    if c.rest.head? = some '!' then .ok ('!' :: letters ++ ['!'], c.skip 1)
    else .ok ('!' :: letters, c)
  | _ => .error .name

/-- A character of a tag; the last three only between angle brackets or in a directive. -/
def isTagChar (verbatim : Bool) (c : Char) : Bool :=
  isNameChar c || ";/?:@&=+$.%!~*'()".toList.contains c ||
    (verbatim && (c = ',' || c = '[' || c = ']'))

/-- One byte written as `%` and two hexadecimal digits. -/
def percentByte? : List Char → Option (Nat × List Char)
  | '%' :: a :: b :: rest =>
    match hexDigit? a, hexDigit? b with
    | some a, some b => some (a * 16 + b, rest)
    | _, _ => none
  | _ => none

/-- Further bytes of a character, six bits each. -/
def percentTail : (n : Nat) → (value : Nat) → List Char → Option (Nat × List Char)
  | 0, value, cs => some (value, cs)
  | n + 1, value, cs =>
    match percentByte? cs with
    | some (b, rest) =>
      if 0x80 ≤ b ∧ b < 0xC0 then percentTail n (value * 64 + (b - 0x80)) rest else none
    | none => none

/-- A character written as the bytes of its encoding. -/
def percentChar? (cs : List Char) : Option (Char × Nat) :=
  match percentByte? cs with
  | none => none
  | some (b, rest) =>
    let read (n : Nat) (value : Nat) : Option (Char × Nat) :=
      (percentTail n value rest).map fun (v, _) => (Char.ofNat v, 3 * (n + 1))
    if b < 0x80 then read 0 b
    else if 0xC0 ≤ b ∧ b < 0xE0 then read 1 (b - 0xC0)
    else if 0xE0 ≤ b ∧ b < 0xF0 then read 2 (b - 0xE0)
    else if 0xF0 ≤ b ∧ b < 0xF8 then read 3 (b - 0xF0)
    else none

/-- The characters of a tag behind its handle. -/
def readTagChars (verbatim : Bool) : (steps : Nat) → Cursor → Except Fault (List Char × Cursor)
  | 0, c => .ok ([], c)
  | steps + 1, c =>
    match c.rest with
    | [] => .ok ([], c)
    | x :: _ =>
      if isTagChar verbatim x then
        if x = '%' then
          match percentChar? c.rest with
          | none => .error .name
          | some (y, n) =>
            (readTagChars verbatim steps (c.skip n)).map fun (ys, c) => (y :: ys, c)
        else (readTagChars verbatim steps (c.skip 1)).map fun (ys, c) => (x :: ys, c)
      else .ok ([], c)

/-- The suffix of a tag or the expansion of a handle: the letters already taken for a handle, and
    the characters that follow. It is not empty. -/
def readTagText (verbatim : Bool) (head : List Char) (c : Cursor) :
    Except Fault (String × Cursor) :=
  match readTagChars verbatim (c.rest.length + 1) c with
  | .error e => .error e
  | .ok (cs, c) =>
    if head.isEmpty && cs.isEmpty then .error .name
    else .ok (String.ofList (head.drop 1 ++ cs), c)

/-- The arguments of a directive. -/
def readDirectiveValue (name : List Char) (c : Cursor) : Except Fault (Token × Cursor) :=
  let c := c.skipWhile isBlank
  if name = "YAML".toList then
    match readVersionNumber c with
    | .error e => .error e
    | .ok (major, c) =>
      if c.rest.head? = some '.' then
        (readVersionNumber (c.skip 1)).map fun (minor, c) => (.version major minor, c)
      else .error .directive
  else if name = "TAG".toList then
    match readHandle c with
    | .error e => .error e
    | .ok (handle, c) =>
      if handle ≠ ['!'] ∧ handle.getLast? ≠ some '!' then .error .directive
      else if !c.rest.head?.any isBlank then .error .directive
      else match readTagText true [] (c.skipWhile isBlank) with
        | .error e => .error e
        | .ok (expansion, c) =>
          if atGap c.rest then .ok (.tagHandle (String.ofList handle) expansion, c)
          else .error .directive
  else .error .directive

/-- A directive line. -/
def readDirective (c : Cursor) : Except Fault (Token × Cursor) :=
  let (name, c) := (c.skip 1).span isNameChar
  if name.isEmpty || !atGap c.rest then .error .directive
  else match readDirectiveValue name c with
    | .error e => .error e
    | .ok (t, c) =>
      let c := c.skipWhile isBlank
      let c := if c.rest.head? = some '#' then c.skipLine else c
      if atLineEnd c.rest then .ok (t, c.skipBreak) else .error .directive

/-! ## Anchors and tags -/

/-- The name behind the mark of an anchor or alias. -/
def readName (c : Cursor) : Except Fault (String × Cursor) :=
  let (name, c) := (c.skip 1).span isNameChar
  let ended := atGap c.rest || c.rest.head?.any (fun x => "?:,]\x7d%@`".toList.contains x)
  if name.isEmpty || !ended then .error .name else .ok (String.ofList name, c)

/-- A tag in one of its three forms: between angle brackets, with a handle of its own, or with the
    handle `!`. The lone mark `!` is a tag without a handle. -/
def readTag (c : Cursor) : Except Fault (Token × Cursor) :=
  match c.rest with
  | '!' :: '<' :: _ =>
    match readTagText true [] (c.skip 2) with
    | .error e => .error e
    | .ok (suffix, c) =>
      if c.rest.head? = some '>' then .ok (.tag "" suffix, c.skip 1) else .error .name
  | _ =>
    match readHandle c with
    | .error e => .error e
    | .ok (handle, c) =>
      if 1 < handle.length ∧ handle.getLast? = some '!' then
        (readTagText false [] c).map fun (suffix, c) => (.tag (String.ofList handle) suffix, c)
      else
        match readTagText false handle c with
        | .error e => .error e
        | .ok (suffix, c) =>
          if suffix.isEmpty then .ok (.tag "" "!", c) else .ok (.tag "!" suffix, c)

/-- A tag ends at a gap, or between brackets at a comma. -/
def finishTag (l : Lexer) (c : Cursor) : Except Fault Cursor :=
  if atGap c.rest || (l.inFlow && c.rest.head? = some ',') then .ok c else .error .name

/-! ## One token -/

/-- Adds a token and takes up reading behind it. -/
def accept (l : Lexer) (t : Token) (c : Cursor) : Lexer := { l.push t with cursor := c }

/-- A token that ends all blocks: a directive or a document marker. -/
def acceptTop (l : Lexer) (read : Cursor → Except Fault (Token × Cursor)) : Except Fault Lexer :=
  match (l.dedentTo (-1)).dropPending with
  | .error e => .error e
  | .ok l => (read l.cursor).map fun (t, c) => (l.allowKey false).accept t c

/-- An opening bracket. -/
def openFlow (l : Lexer) (t : Token) : Except Fault Lexer :=
  l.savePending.map fun l =>
    let l := { l with flow := l.flow + 1, pending := none :: l.pending, keyAllowed := true }
    (l.push t).skip 1

/-- A closing bracket. -/
def closeFlow (l : Lexer) (t : Token) : Except Fault Lexer :=
  l.dropPending.map fun l =>
    let l := if l.inFlow then { l with flow := l.flow - 1, pending := l.pending.drop 1 } else l
    ((l.allowKey false).push t).skip 1

/-- A comma between brackets. -/
def addComma (l : Lexer) : Except Fault Lexer :=
  l.dropPending.map fun l => ((l.allowKey true).push .comma).skip 1

/-- The mark of a list entry. -/
def addDash (l : Lexer) : Except Fault Lexer :=
  if !l.inFlow && !l.keyAllowed then .error .indentation
  else
    let l := l.indentTo l.cursor.mark.column none .blockList
    l.dropPending.map fun l => ((l.allowKey true).push .dash).skip 1

/-- The mark of a key. -/
def addKey (l : Lexer) : Except Fault Lexer :=
  if !l.inFlow && !l.keyAllowed then .error .misplacedKey
  else
    let l := l.indentTo l.cursor.mark.column none .blockDict
    l.dropPending.map fun l => ((l.allowKey (!l.inFlow)).push .key).skip 1

/-- The mark of a value: it turns a pending key into a key. -/
def addValue (l : Lexer) : Except Fault Lexer :=
  match l.pendingKey with
  | some k =>
    let l := l.insertAfter k.tokensBefore .key
    let l := l.indentTo k.mark.column (some k.tokensBefore) .blockDict
    .ok ((((l.setPending none).allowKey false).push .value).skip 1)
  | none =>
    if !l.inFlow && !l.keyAllowed then .error .misplacedKey
    else
      let l := l.indentTo l.cursor.mark.column none .blockDict
      .ok (((l.allowKey (!l.inFlow)).push .value).skip 1)

/-- An anchor, an alias or a tag, at which a key may begin. -/
def addProperty (l : Lexer) (read : Cursor → Except Fault (Token × Cursor)) :
    Except Fault Lexer :=
  match l.savePending with
  | .error e => .error e
  | .ok l => (read l.cursor).map fun (t, c) => (l.allowKey false).accept t c

/-- Block text, behind which a key may begin. -/
def addBlock (l : Lexer) (folded : Bool) : Except Fault Lexer :=
  match l.dropPending with
  | .error e => .error e
  | .ok l =>
    (readBlock folded l.indent (l.cursor.skip 1)).map fun (text, c) =>
      (l.allowKey true).accept (.scalar false (String.ofList text)) c

/-- Quoted text. -/
def addQuoted (l : Lexer) (single : Bool) : Except Fault Lexer :=
  l.addProperty fun c =>
    let c := c.skip 1
    (readQuoted single (c.rest.length + 1) c).map fun (text, c) =>
      (.scalar false (String.ofList text), c)

/-- Plain text. A break behind it allows a key. -/
def addPlain (l : Lexer) : Except Fault Lexer :=
  match l.savePending with
  | .error e => .error e
  | .ok l =>
    (readPlain l.inFlow (l.indent + 1) [] {} (l.cursor.rest.length + 1) l.cursor).map
      fun (text, broken, c) => (l.allowKey broken).accept (.scalar true (String.ofList text)) c

/-- Whether plain text may begin with `c` before `rest`. -/
def startsPlain (flow : Bool) (c : Char) (rest : List Char) : Bool :=
  if c = '-' then !rest.head?.any isBlank
  else if c = '?' ∨ c = ':' then !flow && !atGap rest
  else !isBlank c && !",[]\x7b\x7d#&*!|>'\"%@`".toList.contains c

/-- Reads the token that begins with `c`. -/
def addToken (l : Lexer) (c : Char) (rest : List Char) : Except Fault Lexer :=
  if l.cursor.mark.column = 0 ∧ c = '%' then l.acceptTop readDirective
  else if l.cursor.atMarker '-' then l.acceptTop fun c => .ok (.documentStart, c.skip 3)
  else if l.cursor.atMarker '.' then l.acceptTop fun c => .ok (.documentEnd, c.skip 3)
  else if c = '[' then l.openFlow .openList
  else if c = '\x7b' then l.openFlow .openDict
  else if c = ']' then l.closeFlow .closeList
  else if c = '\x7d' then l.closeFlow .closeDict
  else if c = ',' then l.addComma
  else if c = '-' ∧ atGap rest then l.addDash
  else if c = '?' ∧ (l.inFlow ∨ atGap rest) then l.addKey
  else if c = ':' ∧ (l.inFlow ∨ atGap rest) then l.addValue
  else if c = '*' then l.addProperty fun c => (readName c).map fun (n, c) => (.alias n, c)
  else if c = '&' then l.addProperty fun c => (readName c).map fun (n, c) => (.anchor n, c)
  else if c = '!' then
    l.addProperty fun c =>
      match readTag c with
      | .error e => .error e
      | .ok (t, c) => (l.finishTag c).map fun c => (t, c)
  else if c = '|' ∧ !l.inFlow then l.addBlock false
  else if c = '>' ∧ !l.inFlow then l.addBlock true
  else if c = '\'' then l.addQuoted true
  else if c = '"' then l.addQuoted false
  else if startsPlain l.inFlow c rest then l.addPlain
  else .error .token

/-- The end of the stream closes all blocks. -/
def finish (l : Lexer) : Except Fault Lexer := (l.dedentTo (-1)).dropPending

/-- Reads tokens up to the end of the text. -/
def run : (steps : Nat) → Lexer → Except Fault Lexer
  | 0, l => .ok l
  | steps + 1, l =>
    match (skipToToken (l.cursor.rest.length + 1) l).dropStale with
    | .error e => .error e
    | .ok l =>
      let l := l.dedentTo l.cursor.mark.column
      match l.cursor.rest with
      | [] => l.finish
      | c :: rest =>
        match l.addToken c rest with
        | .error e => .error e
        | .ok l => run steps l

end Lexer

/-- All tokens of a text. -/
def Token.scan (text : List Char) : Except Fault (List Token) :=
  (Lexer.run (text.length + 2) { cursor := Cursor.start text }).map (·.tokens.reverse)

end RunCache.Yaml
