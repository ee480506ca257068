import ShapeCheck.Text.Extender
import ShapeCheck.Text.Hidden

/-!
# Quoted characters and texts

In messages and outlines a character stands in single quotes and a text in double quotes. The quote
in use, the backslash and the common controls are escaped by a backslash; characters without a shape
and grapheme extenders are written by their number in braces.
-/

namespace ShapeCheck.Text

/-- The escaped form of a character inside the given quotes. -/
def escape (quote : Char) (c : Char) : List Char :=
  if c = '\x00' then ['\\', '0']
  else if c = '\t' then ['\\', 't']
  else if c = '\r' then ['\\', 'r']
  else if c = '\n' then ['\\', 'n']
  else if c = '\\' || c = quote then ['\\', c]
  else if isExtender c || isHidden c then
    ['\\', 'u', '\x7b'] ++ Nat.toDigits 16 c.toNat ++ ['\x7d']
  else [c]

/-- A character in single quotes. -/
def quoteChar (c : Char) : String :=
  String.ofList (['\''] ++ escape '\'' c ++ ['\''])

/-- A text in double quotes. -/
def quoteText (s : String) : String :=
  String.ofList (['"'] ++ s.toList.flatMap (escape '"') ++ ['"'])

end ShapeCheck.Text
