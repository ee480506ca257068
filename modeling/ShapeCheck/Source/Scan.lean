import ShapeCheck.Source.Token
import ShapeCheck.Text.Alphabetic
import ShapeCheck.Text.Blank
import ShapeCheck.Text.Decimal
import ShapeCheck.Text.Numeric

/-!
# Scanning

A source text is cut into tokens from left to right. White space separates tokens, a comment runs to
the end of its line, and words and numbers are as long as possible. Scanning never fails: characters
that belong to no token become a token that says so.
-/

namespace ShapeCheck.Source

open Text

/-- Whether a character can begin a word. -/
def isWordStart (c : Char) : Bool :=
  isAlphabetic c || c = '_'

/-- Whether a character can go on a word. -/
def isWordPart (c : Char) : Bool :=
  isAlphabetic c || isNumeric c || c = '_'

/-- Remove white space at both ends. -/
def trim (cs : List Char) : List Char :=
  ((cs.dropWhile isBlank).reverse.dropWhile isBlank).reverse

/-- The word token with the given characters. -/
def wordKind (cs : List Char) : TokenKind :=
  let word := String.ofList cs
  match Keyword.ofText? word with
  | some k => .keyword k
  | none => .ident word

/-- The number token with the given digits. -/
def numberKind (digits : List Char) : TokenKind :=
  let value := decimalValue digits
  if value < Text.bound32 then .integer value else .bad (.numberTooLarge (String.ofList digits))

/-- The sign that begins with `c`, and how many of the following characters belong to it. -/
def readSymbol (c : Char) (cs : List Char) : TokenKind × Nat :=
  match c, cs with
  | '(', _ => (.symbol .leftParen, 0)
  | ')', _ => (.symbol .rightParen, 0)
  | '\x7b', _ => (.symbol .leftBrace, 0)
  | '\x7d', _ => (.symbol .rightBrace, 0)
  | '[', _ => (.symbol .leftBracket, 0)
  | ']', _ => (.symbol .rightBracket, 0)
  | ',', _ => (.symbol .comma, 0)
  | ':', _ => (.symbol .colon, 0)
  | ';', _ => (.symbol .semicolon, 0)
  | '.', _ => (.symbol .dot, 0)
  | '*', _ => (.symbol .star, 0)
  | '=', '=' :: _ => (.symbol .equal, 1)
  | '=', _ => (.symbol .assign, 0)
  | '!', '=' :: _ => (.symbol .unequal, 1)
  | '!', _ => (.bad .loneBang, 0)
  | c, _ => (.bad (.unexpected c), 0)

/-- The token that begins with `c`, and how many of the following characters belong to it. -/
def readToken (c : Char) (cs : List Char) : TokenKind × Nat :=
  if c = '/' && cs.head? = some '/' then
    let line := cs.takeWhile (· ≠ '\n')
    (.comment (String.ofList (trim line.tail)), line.length)
  else if c.isDigit then
    let digits := cs.takeWhile Char.isDigit
    (numberKind (c :: digits), digits.length)
  else if isWordStart c then
    let word := cs.takeWhile isWordPart
    (wordKind (c :: word), word.length)
  else readSymbol c cs

/-- The tokens of the characters from a place on. -/
def scanFrom (p : Place) (cs : List Char) : List Token :=
  let p := p.skip (cs.takeWhile isBlank)
  match _h : cs.dropWhile isBlank with
  | [] => [⟨.eof, p.spanTo p⟩]
  | c :: rest =>
    let (kind, n) := readToken c rest
    let q := p.skip (c :: rest.take n)
    ⟨kind, p.spanTo q⟩ :: scanFrom q (rest.drop n)
termination_by cs.length
decreasing_by
  have hle : (cs.dropWhile isBlank).length ≤ cs.length :=
    (List.dropWhile_sublist isBlank).length_le
  rw [_h, List.length_cons] at hle
  rw [List.length_drop]
  omega

/-- The tokens of a text, comments and the end of the text included. -/
def scan (src : String) : List Token :=
  scanFrom {} src.toList

end ShapeCheck.Source
