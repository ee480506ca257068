import ShapeCheck.Text.Magnitude

/-!
# Json values and their text

Contracts are kept as Json. Natural numbers are values; any other number is kept by its text. The
fields of an object are kept in order, repeated names included.

A text may be well formed and still stand for nothing: a number can be out of range, and a text can
hold half of a pair of escapes alone. Such a part is read as a *fault*. Whoever passes over it need
not care, and whoever uses it finds no value there.

A text is written along a layout: on one line, or with one item a line.
-/

namespace ShapeCheck

/-- A Json value. -/
inductive Json where
  | null
  | bool (b : Bool)
  | nat (n : Nat)
  /-- A number with a sign, a fraction or an exponent, by its text. -/
  | number (text : String)
  | str (s : String)
  | arr (items : List Json)
  | obj (fields : List (String × Json))
  /-- A part that is well formed and stands for no value. -/
  | fault
  deriving Inhabited

namespace Json

mutual

/-- Whether a value holds no fault, and arrays and objects are nested in at most so many levels. -/
def isSound (levels : Nat) : Json → Bool
  | arr items => levels ≠ 0 && areSound (levels - 1) items
  | obj fields => levels ≠ 0 && fieldsAreSound (levels - 1) fields
  | fault => false
  | _ => true

/-- Whether all items are sound. -/
def areSound (levels : Nat) : List Json → Bool
  | [] => true
  | x :: xs => isSound levels x && areSound levels xs

/-- Whether the values of all fields are sound. -/
def fieldsAreSound (levels : Nat) : List (String × Json) → Bool
  | [] => true
  | (_, x) :: xs => isSound levels x && fieldsAreSound levels xs

end

/-! ### Writing -/

/-- Where lines break, and how a name is divided from its value. -/
structure Layout where
  /-- What stands before an item at some depth. -/
  newline : Nat → List Char
  /-- What stands between a name and its value. -/
  colon : List Char

/-- Everything on one line. -/
def Layout.compact : Layout :=
  ⟨fun _ => [], [':']⟩

/-- One item a line, indented by two blanks for every level. -/
def Layout.pretty : Layout :=
  ⟨fun depth => '\n' :: List.replicate (2 * depth) ' ', [':', ' ']⟩

/-- A character of a text between quotes. -/
def escapeChar (c : Char) : List Char :=
  if c = '"' then ['\\', '"']
  else if c = '\\' then ['\\', '\\']
  else if c = '\x08' then ['\\', 'b']
  else if c = '\x0c' then ['\\', 'f']
  else if c = '\n' then ['\\', 'n']
  else if c = '\r' then ['\\', 'r']
  else if c = '\t' then ['\\', 't']
  else if c.toNat < 32 then
    ['\\', 'u', '0', '0', Nat.digitChar (c.toNat / 16), Nat.digitChar (c.toNat % 16)]
  else [c]

/-- A text in quotes. -/
def writeText (s : String) : List Char :=
  '"' :: s.toList.flatMap escapeChar ++ ['"']

mutual

/-- The text of a value that stands at some depth. A fault has no value, so it is written as null. -/
def write (L : Layout) (depth : Nat) : Json → List Char
  | null | fault => ['n', 'u', 'l', 'l']
  | bool true => ['t', 'r', 'u', 'e']
  | bool false => ['f', 'a', 'l', 's', 'e']
  | nat n => Nat.toDigits 10 n
  | number text => text.toList
  | str s => writeText s
  | arr [] => ['[', ']']
  | arr (x :: xs) =>
    '[' :: L.newline (depth + 1) ++ write L (depth + 1) x ++ writeItems L (depth + 1) xs ++
      L.newline depth ++ [']']
  | obj [] => ['\x7b', '\x7d']
  | obj ((name, x) :: xs) =>
    '\x7b' :: L.newline (depth + 1) ++ writeText name ++ L.colon ++ write L (depth + 1) x ++
      writeFields L (depth + 1) xs ++ L.newline depth ++ ['\x7d']

/-- The text of further items of an array. -/
def writeItems (L : Layout) (depth : Nat) : List Json → List Char
  | [] => []
  | x :: xs => ',' :: L.newline depth ++ write L depth x ++ writeItems L depth xs

/-- The text of further fields of an object. -/
def writeFields (L : Layout) (depth : Nat) : List (String × Json) → List Char
  | [] => []
  | (name, x) :: xs =>
    ',' :: L.newline depth ++ writeText name ++ L.colon ++ write L depth x ++
      writeFields L depth xs

end

/-- The text of a value along a layout. -/
def text (L : Layout) (j : Json) : String :=
  String.ofList (j.write L 0)

/-! ### Reading -/

/-- Whether a character may stand between tokens. -/
def isSpace (c : Char) : Bool :=
  c = ' ' || c = '\n' || c = '\t' || c = '\r'

/-- Drop the blanks at the beginning. -/
def skipSpace (cs : List Char) : List Char :=
  cs.dropWhile isSpace

/-- The value of a hexadecimal digit. -/
def hexValue? (c : Char) : Option Nat :=
  if '0' ≤ c ∧ c ≤ '9' then some (c.toNat - '0'.toNat)
  else if 'a' ≤ c ∧ c ≤ 'f' then some (c.toNat - 'a'.toNat + 10)
  else if 'A' ≤ c ∧ c ≤ 'F' then some (c.toNat - 'A'.toNat + 10)
  else none

/-- The value of four hexadecimal digits. -/
def hexUnit? (a b c d : Char) : Option Nat := do
  return (((← hexValue? a) * 16 + (← hexValue? b)) * 16 + (← hexValue? c)) * 16 + (← hexValue? d)

/-- The character of a short escape. -/
def shortEscape? : Char → Option Char
  | '"' => some '"'
  | '\\' => some '\\'
  | '/' => some '/'
  | 'b' => some '\x08'
  | 'f' => some '\x0c'
  | 'n' => some '\n'
  | 'r' => some '\r'
  | 't' => some '\t'
  | _ => none

/-- Whether a code point is the first half of a pair. -/
def isFirstHalf (u : Nat) : Bool :=
  0xD800 ≤ u && u < 0xDC00

/-- Whether a code point is the second half of a pair. -/
def isSecondHalf (u : Nat) : Bool :=
  0xDC00 ≤ u && u < 0xE000

/-- The character that two halves of a pair stand for. -/
def pairChar (first second : Nat) : Char :=
  Char.ofNat (0x10000 + (first - 0xD800) * 0x400 + (second - 0xDC00))

/-- The characters that code points stand for. A character beyond the sixteen bit range may be given
by a pair of halves; a half alone stands for nothing. -/
def spell? : List Nat → Option (List Char)
  | [] => some []
  | [u] => if isFirstHalf u || isSecondHalf u then none else some [Char.ofNat u]
  | u :: v :: rest =>
    if isFirstHalf u then
      if isSecondHalf v then (spell? rest).map (pairChar u v :: ·) else none
    else if isSecondHalf u then none
    else (spell? (v :: rest)).map (Char.ofNat u :: ·)

/-- The code points up to the closing quote, and what follows it. -/
def readPoints? : List Char → Option (List Nat × List Char)
  | [] => none
  | '"' :: rest => some ([], rest)
  | '\\' :: 'u' :: a :: b :: c :: d :: rest => do
    let u ← hexUnit? a b c d
    let (us, rest) ← readPoints? rest
    return (u :: us, rest)
  | '\\' :: e :: rest => do
    let ch ← shortEscape? e
    let (us, rest) ← readPoints? rest
    return (ch.toNat :: us, rest)
  | ch :: rest =>
    if ch = '\\' ∨ ch.toNat < 32 then none
    else do
      let (us, rest) ← readPoints? rest
      return (ch.toNat :: us, rest)

/-- The text up to the closing quote, if it is one, and what follows it. -/
def readText? (cs : List Char) : Option (Option String × List Char) := do
  let (us, rest) ← readPoints? cs
  return ((spell? us).map String.ofList, rest)

/-- Digits at the beginning, of which there has to be one. -/
def readDigits? (cs : List Char) : Option (List Char × List Char) :=
  match cs.span Char.isDigit with
  | ([], _) => none
  | (ds, rest) => some (ds, rest)

/-- The whole part of a number; zero is followed by no digit. -/
def readWhole? (cs : List Char) : Option (List Char × List Char) := do
  let (ds, rest) ← readDigits? cs
  if ds.head? = some '0' ∧ 1 < ds.length then none else return (ds, rest)

/-- The digits of the fraction of a number, if there is one. -/
def readFraction? : List Char → Option (List Char × List Char)
  | '.' :: rest => readDigits? rest
  | rest => some ([], rest)

/-- The exponent of a number and its value, if there is one. -/
def readExponent? : List Char → Option (List Char × Int × List Char)
  | e :: rest =>
    if e = 'e' ∨ e = 'E' then do
      let (sign, rest) := match rest with
        | '+' :: rest => (['+'], rest)
        | '-' :: rest => (['-'], rest)
        | _ => ([], rest)
      let (ds, rest) ← readDigits? rest
      let n : Int := Text.decimalValue ds
      return (e :: sign ++ ds, if sign = ['-'] then -n else n, rest)
    else some ([], 0, e :: rest)
  | [] => some ([], 0, [])

/-- A number; one that is out of range is a fault. -/
def readNumber? (cs : List Char) : Option (Json × List Char) := do
  let (sign, cs) := match cs with
    | '-' :: rest => (['-'], rest)
    | _ => ([], cs)
  let (whole, cs) ← readWhole? cs
  let (fraction, cs) ← readFraction? cs
  let (exponent, power, cs) ← readExponent? cs
  if (Text.Scaled.ofDigits whole fraction power).isOutOfRange then return (fault, cs)
  else if sign.isEmpty && fraction.isEmpty && exponent.isEmpty then
    return (nat (Text.decimalValue whole), cs)
  else
    let point := if fraction.isEmpty then [] else ['.']
    return (number (String.ofList (sign ++ whole ++ point ++ fraction ++ exponent)), cs)

/-- A word with the value that it stands for. -/
def readWord? (cs : List Char) : Option (Json × List Char) :=
  if ['n', 'u', 'l', 'l'].isPrefixOf cs then some (null, cs.drop 4)
  else if ['t', 'r', 'u', 'e'].isPrefixOf cs then some (bool true, cs.drop 4)
  else if ['f', 'a', 'l', 's', 'e'].isPrefixOf cs then some (bool false, cs.drop 5)
  else none

mutual

/-- A value and what follows it. The number of steps is at least twice the number of characters. -/
def readValue : (steps : Nat) → List Char → Option (Json × List Char)
  | 0, _ => none
  | steps + 1, cs =>
    match skipSpace cs with
    | '"' :: rest => do
      let (s?, rest) ← readText? rest
      return (s?.elim fault str, rest)
    | '[' :: rest =>
      match skipSpace rest with
      | ']' :: rest => some (arr [], rest)
      | rest => do
        let (items, rest) ← readItems steps rest
        return (arr items, rest)
    | '\x7b' :: rest =>
      match skipSpace rest with
      | '\x7d' :: rest => some (obj [], rest)
      | rest => do
        let (fields?, rest) ← readFields steps rest
        return (fields?.elim fault obj, rest)
    | c :: rest => if c = '-' ∨ c.isDigit then readNumber? (c :: rest) else readWord? (c :: rest)
    | [] => none

/-- The items of an array up to the closing bracket. -/
def readItems : (steps : Nat) → List Char → Option (List Json × List Char)
  | 0, _ => none
  | steps + 1, cs => do
    let (x, rest) ← readValue steps cs
    match skipSpace rest with
    | ',' :: rest => do
      let (xs, rest) ← readItems steps rest
      return (x :: xs, rest)
    | ']' :: rest => return ([x], rest)
    | _ => none

/-- The fields of an object up to the closing brace, if each of them has a name. -/
def readFields : (steps : Nat) → List Char → Option (Option (List (String × Json)) × List Char)
  | 0, _ => none
  | steps + 1, cs =>
    match skipSpace cs with
    | '"' :: rest => do
      let (name?, rest) ← readText? rest
      match skipSpace rest with
      | ':' :: rest => do
        let (x, rest) ← readValue steps rest
        match skipSpace rest with
        | ',' :: rest => do
          let (xs?, rest) ← readFields steps rest
          return (do return (← name?, x) :: (← xs?), rest)
        | '\x7d' :: rest => return (name?.map fun name => [(name, x)], rest)
        | _ => none
      | _ => none
    | _ => none

end

/-- Read a text that is one value. -/
def read? (text : String) : Option Json := do
  let cs := text.toList
  let (j, rest) ← readValue (2 * cs.length + 2) cs
  if (skipSpace rest).isEmpty then return j else none

end Json

end ShapeCheck
