import RunCache.Number.Digits
import RunCache.Number.Power

/-! # Order of run ids

    Ids that are numbers of 64 bits compare as numbers, all others as
    texts.

    * **`number?`**: the number an id is.
    * **`order`**: the order of two ids. -/

namespace RunCache.RunId

/-- The number an id is, if it has no more than 64 bits. -/
def number? (id : String) : Option Nat := (natOfText? id).filter (· < twoTo 64)

/-- The order of two texts. -/
def textOrder (a b : String) : Ordering :=
  if a < b then .lt else if a = b then .eq else .gt

/-- The order of two ids. -/
def order (a b : String) : Ordering :=
  match number? a, number? b with
  | some m, some n => compare m n
  | _, _ => textOrder a b

/-- Whether an id may stand before another one. -/
def le (a b : String) : Bool := order a b ≠ .gt

end RunCache.RunId
