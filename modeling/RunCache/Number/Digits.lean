/-! # Decimal digits

    * **`digitValue?`**: the value of a digit.
    * **`ofDigits`**: the number that digits write.
    * **`natOfText?`**: the number a text is, behind at most one plus
      sign. -/

namespace RunCache

/-- The value of an ASCII digit. -/
def digitValue? (c : Char) : Option Nat :=
  if '0' ≤ c ∧ c ≤ '9' then some (c.toNat - '0'.toNat) else none

/-- Whether `c` is an ASCII digit. -/
def isDigit (c : Char) : Bool := (digitValue? c).isSome

/-- The decimal digits of `n`, most significant first. -/
def digitChars (n : Nat) : List Char := Nat.toDigits 10 n

/-- The number written by a list of digits, read from the most significant. -/
def ofDigits (base : Nat) (digits : List Nat) : Nat :=
  digits.foldl (fun n d => n * base + d) 0

/-- The number that decimal digits write, if there is at least one digit and nothing else. -/
def natOfDigits? (cs : List Char) : Option Nat :=
  if cs.isEmpty then none else (cs.mapM digitValue?).map (ofDigits 10)

/-- The number a text is: decimal digits behind at most one plus sign. -/
def natOfText? (s : String) : Option Nat :=
  match s.toList with
  | '+' :: cs => natOfDigits? cs
  | cs => natOfDigits? cs

end RunCache
