/-!
# Decimal numerals

Numerals of ASCII digits, as they occur in programs, options and reserved names.
-/

namespace ShapeCheck.Text

/-- The value of a decimal numeral. -/
def decimalValue (digits : List Char) : Nat :=
  digits.foldl (fun n c => 10 * n + (c.toNat - '0'.toNat)) 0

/-- The number after the greatest one of 32 bits. -/
def bound32 : Nat := 4294967296

/-- The number after the greatest one of 64 bits. -/
def bound64 : Nat := 18446744073709551616

/-- Read a numeral: decimal digits after an optional plus sign. -/
def readNumeral? (cs : List Char) : Option Nat :=
  let digits := match cs with
    | '+' :: rest => rest
    | _ => cs
  if digits.isEmpty || !digits.all Char.isDigit then none else some (decimalValue digits)

/-- Read a machine-sized index: a numeral of at most 64 bits. -/
def readIndex? (cs : List Char) : Option Nat :=
  (readNumeral? cs).filter (· < bound64)

end ShapeCheck.Text
