import RunCache.Json.Number

/-! # JSON strings

    The bytes between two quotes, with escapes resolved.  The bytes are
    collected first and only then required to be UTF-8, so a fault of an
    escape or of the end of the text is met before one of the encoding. -/

namespace RunCache.Json

/-! ## Escapes -/

/-- The value of a hexadecimal digit. -/
def hexDigit? (b : UInt8) : Option Nat :=
  if 0x30 ≤ b ∧ b ≤ 0x39 then some (b.toNat - 0x30)
  else if 0x41 ≤ b ∧ b ≤ 0x46 then some (b.toNat - 0x41 + 10)
  else if 0x61 ≤ b ∧ b ≤ 0x66 then some (b.toNat - 0x61 + 10)
  else none

/-- Four hexadecimal digits. -/
def readFourHex : Rest → Except Fault (Nat × Rest)
  | a :: b :: c :: d :: rest =>
    match hexDigit? a, hexDigit? b, hexDigit? c, hexDigit? d with
    | some a, some b, some c, some d => .ok (((a * 16 + b) * 16 + c) * 16 + d, rest)
    | _, _, _, _ => .error .invalidEscape
  | _ => .error .endInText

/-- The UTF-8 bytes of a code point. -/
def codePointBytes (n : Nat) : List UInt8 := String.utf8EncodeChar (Char.ofNat n)

/-- The second half of a surrogate pair, which must follow its first half at once. -/
def readTrailing (high : Nat) : Rest → Except Fault (List UInt8 × Rest)
  | [] => .error .endInText
  | 0x5C :: rest =>
    match rest with
    | [] => .error .endInText
    | 0x75 :: rest =>
      match readFourHex rest with
      | .error e => .error e
      | .ok (low, rest) =>
        if low < 0xDC00 ∨ 0xDFFF < low then .error .loneSurrogate
        else .ok (codePointBytes ((high - 0xD800) * 0x400 + (low - 0xDC00) + 0x10000), rest)
    | _ :: _ => .error .unfinishedSurrogate
  | _ :: _ => .error .unfinishedSurrogate

/-- A numeric escape after its letter. -/
def readNumericEscape (bs : Rest) : Except Fault (List UInt8 × Rest) :=
  match readFourHex bs with
  | .error e => .error e
  | .ok (n, rest) =>
    if 0xDC00 ≤ n ∧ n ≤ 0xDFFF then .error .loneSurrogate
    else if 0xD800 ≤ n ∧ n ≤ 0xDBFF then readTrailing n rest
    else .ok (codePointBytes n, rest)

/-- An escape after its backslash. -/
def readEscape : Rest → Except Fault (List UInt8 × Rest)
  | [] => .error .endInText
  | b :: rest =>
    match b with
    | 0x22 => .ok ([0x22], rest)
    | 0x5C => .ok ([0x5C], rest)
    | 0x2F => .ok ([0x2F], rest)
    | 0x62 => .ok ([0x08], rest)
    | 0x66 => .ok ([0x0C], rest)
    | 0x6E => .ok ([0x0A], rest)
    | 0x72 => .ok ([0x0D], rest)
    | 0x74 => .ok ([0x09], rest)
    | 0x75 => readNumericEscape rest
    | _ => .error .invalidEscape

/-! ## Strings -/

/-- The bytes of a string up to its closing quote. Each step takes at least one byte, so the count
    of bytes bounds the steps. -/
def readQuoted : (steps : Nat) → Rest → Except Fault (List UInt8 × Rest)
  | 0, _ => .error .endInText
  | _, [] => .error .endInText
  | steps + 1, b :: rest =>
    if b = 0x22 then .ok ([], rest)
    else if b = 0x5C then
      match readEscape rest with
      | .error e => .error e
      | .ok (bytes, rest) =>
        match readQuoted steps rest with
        | .error e => .error e
        | .ok (more, rest) => .ok (bytes ++ more, rest)
    else if b < 0x20 then .error .controlCharacter
    else match readQuoted steps rest with
      | .error e => .error e
      | .ok (more, rest) => .ok (b :: more, rest)

/-- A string after its opening quote. -/
def readText (bs : Rest) : Except Fault (String × Rest) :=
  match readQuoted (bs.length + 1) bs with
  | .error e => .error e
  | .ok (bytes, rest) =>
    match String.fromUTF8? ⟨bytes.toArray⟩ with
    | some s => .ok (s, rest)
    | none => .error .invalidCodePoint

end RunCache.Json
