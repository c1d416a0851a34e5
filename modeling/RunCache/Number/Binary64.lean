import RunCache.Number.Power

/-! # Finite binary64 numbers

    The floating numbers of a document are the finite values of the
    64-bit binary format.  A value is kept as sign, significand and
    exponent and every operation is exact arithmetic on naturals
    followed by one rounding to the nearest value, ties to the even
    significand:

    * **`ofRatio?`**: the value nearest to a fraction, none on overflow.
    * **`mul?`, `div?`**: one rounded product or quotient.
    * **`toBits`**: the interchange encoding.

    No hardware arithmetic is used, so each definition can be unfolded. -/

namespace RunCache

/-! ## Rounded division -/

/-- The quotient `a / b` rounded to the nearest natural, a half going to the even neighbour. -/
def divNearest (a b : Nat) : Nat :=
  let q := a / b
  let r := a % b
  if 2 * r < b then q
  else if b < 2 * r then q + 1
  else if q % 2 = 0 then q else q + 1

/-! ## The format -/

/-- A significand and exponent are canonical when the significand has 53 bits, or fewer at the
    smallest exponent, and the exponent lies in the range of the format. -/
def Canonical (significand : Nat) (exponent : Int) : Prop :=
  significand < twoTo 53 ∧ -1074 ≤ exponent ∧ exponent ≤ 971 ∧
    (twoTo 52 ≤ significand ∨ exponent = -1074)

instance (significand : Nat) (exponent : Int) : Decidable (Canonical significand exponent) := by
  unfold Canonical
  infer_instance

/-- A finite value of the 64-bit format: `± significand * 2 ^ exponent`. -/
structure Binary64 where
  negative : Bool
  significand : Nat
  exponent : Int
  canonical : Canonical significand exponent
deriving DecidableEq

namespace Binary64

/-- The value with the given parts, if they are canonical. -/
def make? (negative : Bool) (significand : Nat) (exponent : Int) : Option Binary64 :=
  if h : Canonical significand exponent then some ⟨negative, significand, exponent, h⟩ else none

/-- Zero with a sign. -/
def zero (negative : Bool) : Binary64 :=
  ⟨negative, 0, -1074, by decide⟩

instance : Inhabited Binary64 := ⟨zero false⟩

/-- Whether the value is `0` or `-0`. -/
def isZero (x : Binary64) : Bool := x.significand == 0

/-- The same magnitude with the given sign. -/
def withSign (x : Binary64) (negative : Bool) : Binary64 := { x with negative }

/-- The exponent of the last significand bit of the value nearest to `num / den`:
    it leaves 53 bits before the binary point, or is the smallest exponent. -/
def unitExponent (num den : Nat) : Int :=
  let e : Int := (num.log2 : Int) - den.log2 - 53
  let below := if 0 ≤ e + 53 then num < den * twoTo (e + 53).toNat
    else num * twoTo (-(e + 53)).toNat < den
  max (if below then e else e + 1) (-1074)

/-- `num / den` divided by `2 ^ e` and rounded to the nearest natural. -/
def scaledNearest (num den : Nat) (e : Int) : Nat :=
  if 0 ≤ e then divNearest num (den * twoTo e.toNat) else divNearest (num * twoTo (-e).toNat) den

/-- The value nearest to `num / den`; none when it would exceed the largest finite value. -/
def ofRatio? (negative : Bool) (num den : Nat) : Option Binary64 :=
  if num = 0 then some (zero negative)
  else
    let e := unitExponent num den
    let m := scaledNearest num den e
    if m = twoTo 53 then make? negative (twoTo 52) (e + 1) else make? negative m e

/-- The value nearest to a natural number. -/
def ofNat? (negative : Bool) (n : Nat) : Option Binary64 := ofRatio? negative n 1

/-- The value nearest to `m * 2 ^ e / d`. -/
def ofScaled? (negative : Bool) (m : Nat) (e : Int) (d : Nat) : Option Binary64 :=
  if 0 ≤ e then ofRatio? negative (m * twoTo e.toNat) d
  else ofRatio? negative m (d * twoTo (-e).toNat)

/-- The product, rounded once; none on overflow. -/
def mul? (x y : Binary64) : Option Binary64 :=
  ofScaled? (x.negative != y.negative) (x.significand * y.significand) (x.exponent + y.exponent) 1

/-- The quotient by a value that is not zero, rounded once; none on overflow. -/
def div? (x y : Binary64) : Option Binary64 :=
  ofScaled? (x.negative != y.negative) x.significand (x.exponent - y.exponent) y.significand

/-- The value nearest to `10 ^ k`. -/
def powerOfTen? (k : Nat) : Option Binary64 := ofNat? false (tenTo k)

/-- The interchange encoding: sign bit, biased exponent, trailing significand. -/
def toBits (x : Binary64) : Nat :=
  let sign := if x.negative then twoTo 63 else 0
  if x.significand < twoTo 52 then sign + x.significand
  else sign + (x.exponent + 1075).toNat * twoTo 52 + (x.significand - twoTo 52)

end Binary64

end RunCache
