import RunCache.Number.Binary64
import RunCache.Number.Digits

/-! # Decimal text of binary64 numbers

    * **`Binary64.shortest`**: the fewest decimal digits that read back,
      and of these the ones nearest to the value.
    * **`Binary64.text`**: the written form — positional while the point
      falls within sixteen places, otherwise with an exponent, and always
      marked as a floating number.
    * **`decimal?`**: the value nearest to a decimal literal. -/

namespace RunCache

/-! ## Shortest digits -/

namespace Binary64

/-- The reals that round to a positive value, scaled by four units of its last place:
    from `low` to `high`, ends included iff `closed`. -/
structure Interval where
  low : Nat
  mid : Nat
  high : Nat
  closed : Bool

/-- The rounding interval of `x`, in units of `2 ^ (exponent - 2)`. The gap below a power of two
    is half as wide. -/
def interval (x : Binary64) : Interval where
  low := if x.significand = twoTo 52 ∧ x.exponent ≠ -1074 then 4 * x.significand - 1
    else 4 * x.significand - 2
  mid := 4 * x.significand
  high := 4 * x.significand + 2
  closed := x.significand % 2 = 0

/-- A fraction `num / den` with the interval scaled to the same denominator. -/
structure Grid where
  low : Nat
  mid : Nat
  high : Nat
  closed : Bool
  unit : Nat

/-- The interval of `x` and the step `10 ^ k`, brought to one denominator. -/
def grid (x : Binary64) (k : Int) : Grid :=
  let i := x.interval
  let e := x.exponent - 2
  let up := twoTo e.toNat * tenTo (-k).toNat
  { low := i.low * up, mid := i.mid * up, high := i.high * up, closed := i.closed
    unit := twoTo (-e).toNat * tenTo k.toNat }

/-- Whether the multiple `n` of the step lies in the interval. -/
def Grid.holds (g : Grid) (n : Nat) : Bool :=
  let v := n * g.unit
  if g.closed then g.low ≤ v && v ≤ g.high else g.low < v && v < g.high

/-- The multiple of the step that lies in the interval and is nearest to its middle; of two
    equally near ones the even. -/
def Grid.nearest? (g : Grid) : Option Nat :=
  let below := g.mid / g.unit
  let nearer := divNearest g.mid g.unit
  let other := if nearer = below then below + 1 else below
  if 0 < nearer && g.holds nearer then some nearer
  else if 0 < other && g.holds other then some other
  else none

/-- Tries the steps `10 ^ k`, `10 ^ (k - 1)`, … for one that meets the interval. -/
def shortestFrom (x : Binary64) (k : Int) : Nat → Nat × Int
  | 0 => (x.significand, 0)
  | fuel + 1 =>
    match (x.grid k).nearest? with
    | some n => (n, k)
    | none => shortestFrom x (k - 1) fuel

/-- A power of ten not below the value. -/
def decimalBound (x : Binary64) : Int :=
  ((x.significand.log2 : Int) + 1 + x.exponent) * 30103 / 100000 + 2

/-- Digits `d` and exponent `k` with `d * 10 ^ k` the shortest decimal that reads back as the
    magnitude of a value that is not zero. -/
def shortest (x : Binary64) : Nat × Int := shortestFrom x x.decimalBound 24

/-! ## Written form -/

/-- `n` times the digit zero. -/
def zeros (n : Nat) : List Char := List.replicate n '0'

/-- The magnitude in positional or scientific form: with the decimal point after place `p` of the
    digits, positional for `-5 < p ≤ 16`. -/
def magnitudeText (digits : List Char) (k : Int) : List Char :=
  let len : Int := digits.length
  let p := len + k
  if 0 ≤ k ∧ p ≤ 16 then digits ++ zeros k.toNat ++ ['.', '0']
  else if 0 < p ∧ p ≤ 16 then digits.take p.toNat ++ '.' :: digits.drop p.toNat
  else if -5 < p ∧ p ≤ 0 then '0' :: '.' :: zeros (-p).toNat ++ digits
  else
    let mantissa := match digits with
      | d :: d' :: rest => d :: '.' :: d' :: rest
      | ds => ds
    mantissa ++ 'e' :: (toString (p - 1)).toList

/-- The written form of a finite value. -/
def text (x : Binary64) : String :=
  let sign := if x.negative then ['-'] else []
  if x.isZero then String.ofList (sign ++ ['0', '.', '0'])
  else
    let (d, k) := x.shortest
    String.ofList (sign ++ magnitudeText (digitChars d) k)

/-! ## Reading decimals -/

/-- The value nearest to `digits * 10 ^ k`, where `digits` has the given count of places. Exponents
    that are out of reach are decided by the count of places alone. -/
def ofDecimal? (negative : Bool) (digits places : Nat) (k : Int) : Option Binary64 :=
  if digits = 0 then some (zero negative)
  else if 400 < places + k then none
  else if places + k < -400 then some (zero negative)
  else if 0 ≤ k then ofRatio? negative (digits * tenTo k.toNat) 1
  else ofRatio? negative digits (tenTo (-k).toNat)

end Binary64

/-- A number split into its decimal parts. -/
structure DecimalParts where
  negative : Bool
  whole : List Nat
  fraction : List Nat
  exponent : Int

/-- The leading digits of a text and what follows them. -/
def spanDigits : List Char → List Nat × List Char
  | [] => ([], [])
  | c :: cs =>
    match digitValue? c with
    | some d =>
      let (ds, rest) := spanDigits cs
      (d :: ds, rest)
    | none => ([], c :: cs)

/-- An optional sign. -/
def takeSign : List Char → Bool × List Char
  | '-' :: cs => (true, cs)
  | '+' :: cs => (false, cs)
  | cs => (false, cs)

/-- The exponent part of a literal, which must reach the end of the text. -/
def exponentPart? : List Char → Option Int
  | [] => some 0
  | e :: cs =>
    if e = 'e' ∨ e = 'E' then
      let (negative, cs) := takeSign cs
      match spanDigits cs with
      | (d :: ds, []) =>
        let n : Int := ofDigits 10 (d :: ds)
        some (if negative then -n else n)
      | _ => none
    else none

/-- Splits a literal: optional sign, digits with an optional point among or beside them, optional
    exponent. At least one digit stands before the exponent. -/
def decimalParts? (cs : List Char) : Option DecimalParts :=
  let (negative, cs) := takeSign cs
  let (whole, cs) := spanDigits cs
  let (fraction, cs) := match cs with
    | '.' :: rest => spanDigits rest
    | rest => ([], rest)
  if whole.isEmpty && fraction.isEmpty then none
  else (exponentPart? cs).map fun exponent => { negative, whole, fraction, exponent }

/-- The finite value nearest to a decimal literal. -/
def decimal? (cs : List Char) : Option Binary64 :=
  match decimalParts? cs with
  | none => none
  | some p =>
    let digits := p.whole ++ p.fraction
    let significant := digits.dropWhile (· = 0)
    Binary64.ofDecimal? p.negative (ofDigits 10 significant) significant.length
      (p.exponent - p.fraction.length)

end RunCache
