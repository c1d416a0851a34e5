import RunCache.Json.Tree

/-! # JSON numbers

    A literal without fraction and exponent that fits in 64 bits is an
    integer; every other literal is a float.

    A float is not rounded correctly in one step: the digits are collected
    in a 64-bit significand, further digits only count places, and the
    significand is then multiplied or divided by one rounded power of
    ten. -/

namespace RunCache.Json

/-- The bytes still to be read. -/
abbrev Rest := List UInt8

/-- The value of an ASCII digit. -/
def digit? (b : UInt8) : Option Nat :=
  if 0x30 ≤ b ∧ b ≤ 0x39 then some (b.toNat - 0x30) else none

/-- The largest significand that is collected. -/
def maxSignificand : Nat := twoTo 64 - 1

/-- The largest power of ten that is applied in one step. -/
def maxPower : Nat := 308

/-! ## Scaling -/

/-- `f * 10 ^ e` by rounded steps; none when it exceeds the finite values. Two divisions by the
    largest power already bring any significand to zero, so the count of steps is never used up. -/
def scaleBy : (steps : Nat) → Binary64 → Int → Option Binary64
  | 0, f, _ => some f
  | steps + 1, f, e =>
    if e.natAbs ≤ maxPower then
      match Binary64.powerOfTen? e.natAbs with
      | none => none
      | some p => if 0 ≤ e then f.mul? p else f.div? p
    else if f.isZero then some f
    else if 0 ≤ e then none
    else match Binary64.powerOfTen? maxPower with
      | none => none
      | some p => match f.div? p with
        | none => none
        | some g => scaleBy steps g (e + maxPower)

/-- The float of a significand and a power of ten. -/
def floatOf (negative : Bool) (significand : Nat) (exponent : Int) : Except Fault Number :=
  match Binary64.ofNat? false significand with
  | none => .error .numberOutOfRange
  | some f => match scaleBy 8 f exponent with
    | none => .error .numberOutOfRange
    | some x => .ok (.float (x.withSign negative))

/-! ## Literals -/

/-- Drops leading digits. -/
def skipDigits (bs : Rest) : Rest := bs.dropWhile (fun b => (digit? b).isSome)

/-- The digits of an exponent after its first one; the largest exponent is `2 ^ 31 - 1`. The
    result is none when it is exceeded. -/
def exponentDigits (value : Nat) : Rest → Option Nat × Rest
  | [] => (some value, [])
  | b :: bs =>
    match digit? b with
    | none => (some value, b :: bs)
    | some d =>
      if value * 10 + d > twoTo 31 - 1 then (none, skipDigits bs)
      else exponentDigits (value * 10 + d) bs

/-- The part of a literal after its exponent letter. -/
def readExponent (negative : Bool) (significand : Nat) (start : Int) (bs : Rest) :
    Except Fault (Number × Rest) :=
  let (down, bs) := match bs with
    | 0x2B :: rest => (false, rest)
    | 0x2D :: rest => (true, rest)
    | rest => (false, rest)
  match bs with
  | [] => .error .endInValue
  | b :: bs =>
    match digit? b with
    | none => .error .invalidNumber
    | some d =>
      match exponentDigits d bs with
      | (some e, rest) =>
        (floatOf negative significand (if down then start - e else start + e)).map (·, rest)
      | (none, rest) =>
        if significand ≠ 0 ∧ ¬ down then .error .numberOutOfRange
        else .ok (.float (Binary64.zero negative), rest)

/-- What may follow the digits of a float: an exponent or nothing. -/
def finishFloat (negative : Bool) (significand : Nat) (exponent : Int) :
    Rest → Except Fault (Number × Rest)
  | 0x65 :: bs | 0x45 :: bs => readExponent negative significand exponent bs
  | bs => (floatOf negative significand exponent).map (·, bs)

/-- The digits after a decimal point. They are collected while the significand has room; `seen`
    says whether there was one. -/
def readFraction (negative : Bool) (seen : Bool) (significand : Nat) (exponent : Int) :
    Rest → Except Fault (Number × Rest)
  | [] => if seen then finishFloat negative significand exponent [] else .error .endInValue
  | b :: bs =>
    match digit? b with
    | none =>
      if seen then finishFloat negative significand exponent (b :: bs) else .error .invalidNumber
    | some d =>
      if significand * 10 + d > maxSignificand then
        finishFloat negative significand exponent (skipDigits bs)
      else readFraction negative true (significand * 10 + d) (exponent - 1) bs

/-- The digits of a whole part that no longer fits the significand: each one is a place. -/
def readLongWhole (negative : Bool) (significand : Nat) (exponent : Int) :
    Rest → Except Fault (Number × Rest)
  | [] => finishFloat negative significand exponent []
  | b :: bs =>
    match digit? b with
    | some _ => readLongWhole negative significand (exponent + 1) bs
    | none =>
      if b = 0x2E then readFraction negative false significand exponent bs
      else finishFloat negative significand exponent (b :: bs)

/-- An integer, unless a fraction or an exponent follows or it does not fit in 64 bits. -/
def finishWhole (negative : Bool) (significand : Nat) : Rest → Except Fault (Number × Rest)
  | 0x2E :: bs => readFraction negative false significand 0 bs
  | 0x65 :: bs | 0x45 :: bs => readExponent negative significand 0 bs
  | bs =>
    if ¬ negative then .ok (.int significand, bs)
    else if significand = 0 ∨ significand > twoTo 63 then
      (floatOf true significand 0).map (·, bs)
    else .ok (.int (-significand), bs)

/-- The digits of a whole part after its first one. -/
def readWhole (negative : Bool) (significand : Nat) : Rest → Except Fault (Number × Rest)
  | [] => finishWhole negative significand []
  | b :: bs =>
    match digit? b with
    | none => finishWhole negative significand (b :: bs)
    | some d =>
      if significand * 10 + d > maxSignificand then
        readLongWhole negative significand 0 (b :: bs)
      else readWhole negative (significand * 10 + d) bs

/-- A literal after its sign: one zero, or digits that do not begin with zero. -/
def readNumber (negative : Bool) : Rest → Except Fault (Number × Rest)
  | [] => .error .endInValue
  | b :: bs =>
    match digit? b with
    | none => .error .invalidNumber
    | some 0 => match bs with
      | [] => finishWhole negative 0 []
      | c :: cs => if (digit? c).isSome then .error .invalidNumber
        else finishWhole negative 0 (c :: cs)
    | some d => readWhole negative d bs

end RunCache.Json
