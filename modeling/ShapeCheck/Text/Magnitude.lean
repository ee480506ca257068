import ShapeCheck.Text.Decimal

/-!
# The size of decimal numbers

A decimal number of any length is kept as a significand of 64 bits and a power of ten. Digits that no
longer fit the significand are dropped; before the point each of them raises the power. The number is
out of range if the product of both, each rounded to the 53 bits of a double, rounds beyond the
greatest double.
-/

namespace ShapeCheck.Text

/-- Round to 53 bits; a tie goes to the even neighbour. -/
def roundDouble (n : Nat) : Nat :=
  let unit := Nat.pow 2 (n.log2 - 52)
  let q := n / unit
  let r := n % unit
  if unit < 2 * r ∨ unit = 2 * r ∧ q % 2 = 1 then (q + 1) * unit else q * unit

/-- The least number that is rounded beyond the greatest double. -/
def doubleLimit : Nat := (Nat.pow 2 54 - 1) * Nat.pow 2 970

/-- The greatest power of ten that is a double. -/
def greatestPower : Nat := 308

/-- A significand with a power of ten. -/
structure Scaled where
  /-- The digits that are kept. -/
  significand : Nat
  /-- The power of ten. -/
  power : Int
  deriving DecidableEq, Inhabited

namespace Scaled

/-- The significand with a digit put behind it. -/
def extend (significand : Nat) (digit : Char) : Nat :=
  10 * significand + (digit.toNat - '0'.toNat)

/-- The significand after digits before the point, and the number of digits that were dropped: the
first one that does not fit into 64 bits, and all behind it. -/
def whole (significand : Nat) : List Char → Nat × Nat
  | [] => (significand, 0)
  | d :: ds =>
    if extend significand d < bound64 then whole (extend significand d) ds
    else (significand, ds.length + 1)

/-- The significand after digits behind the point, and the number of digits that were kept. -/
def fraction (significand : Nat) : List Char → Nat × Nat
  | [] => (significand, 0)
  | d :: ds =>
    if extend significand d < bound64 then
      let (s, kept) := fraction (extend significand d) ds
      (s, kept + 1)
    else (significand, 0)

/-- The number with the given digits before and behind the point, times a power of ten. -/
def ofDigits (before behind : List Char) (power : Int) : Scaled :=
  let (s, dropped) := whole 0 before
  let (s, kept) := fraction s behind
  ⟨s, dropped - kept + power⟩

/-- Whether a number is too large for a double. -/
def isOutOfRange (x : Scaled) : Bool :=
  x.significand ≠ 0 && 0 ≤ x.power &&
    (greatestPower < x.power.toNat ||
      doubleLimit ≤ roundDouble x.significand * roundDouble (Nat.pow 10 x.power.toNat))

end Scaled

end ShapeCheck.Text
