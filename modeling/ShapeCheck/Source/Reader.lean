import ShapeCheck.Source.Scan
import ShapeCheck.Source.Tree

/-!
# Reading tokens

A reader goes through the tokens of a text, comments left out, and never past the end of the text.
It remembers the place of the token before, so that a construct knows where it ends.
-/

namespace ShapeCheck.Source

/-- Why a text is not a program. -/
inductive ParseError where
  /-- Another token was expected. -/
  | unexpected (expected found : String) (span : Span)
  /-- The text ends too early. -/
  | endOfFile (span : Span)
  /-- Some characters are not a token. -/
  | invalid (error : ScanError) (span : Span)
  deriving DecidableEq, Inhabited

namespace ParseError

/-- Where the error is. -/
def span : ParseError → Span
  | unexpected _ _ s | endOfFile s | invalid _ s => s

/-- The wording of a parse error. -/
def message : ParseError → String
  | unexpected expected found s =>
    "unexpected token at " ++ s.text ++ ": expected " ++ expected ++ ", found " ++ found
  | endOfFile s => "unexpected end of file at " ++ s.text
  | invalid e s => "invalid syntax at " ++ s.text ++ ": " ++ e.message

end ParseError

/-- The tokens ahead, and the place of the last token that was consumed. -/
structure Reader where
  /-- The place of the token before. -/
  before : Span := {}
  /-- The tokens ahead; the last one is the end of the text. -/
  ahead : List Token
  deriving DecidableEq, Inhabited

/-- The tokens of a text that take part in the grammar. -/
def Reader.ofText (src : String) : Reader :=
  { ahead := (scan src).filter (!·.kind.isTrivia) }

/-- A computation that consumes tokens. -/
abbrev Parser := StateT Reader (Except ParseError)

namespace Parser

variable {α : Type}

/-- The next token. -/
def peek : Parser Token :=
  return (← get).ahead.head?.getD ⟨.eof, {}⟩

/-- What the next token is. -/
def peekKind : Parser TokenKind :=
  return (← peek).kind

/-- Where the next token stands. -/
def here : Parser Span :=
  return (← peek).span

/-- The span from a place to the end of the token before. -/
def spanFrom (start : Span) : Parser Span :=
  return start.merge (← get).before

/-- Consume the next token, unless it is the end of the text. -/
def advance : Parser Unit :=
  modify fun r =>
    match r.ahead with
    | t :: rest => if t.kind = .eof then r else ⟨t.span, rest⟩
    | [] => r

/-- The next token is not what was expected. -/
def unexpected (expected : String) : Parser α := do
  let t ← peek
  match t.kind with
  | .eof => throw (.endOfFile t.span)
  | .bad e => throw (.invalid e t.span)
  | found => throw (.unexpected expected found.text t.span)

/-- Consume the next token if it is `kind`. -/
def accept (kind : TokenKind) : Parser Bool := do
  if (← peekKind) = kind then
    advance
    return true
  else return false

/-- Consume the next token, which has to be `kind`. -/
def expect (kind : TokenKind) : Parser Unit := do
  unless ← accept kind do
    unexpected kind.text

/-- Consume a sign. -/
def expectSymbol (s : Symbol) : Parser Unit :=
  expect (.symbol s)

/-- Consume a reserved word. -/
def expectKeyword (k : Keyword) : Parser Unit :=
  expect (.keyword k)

/-- A name. -/
def ident : Parser Ident := do
  let t ← peek
  match t.kind with
  | .ident name =>
    advance
    return ⟨name, t.span⟩
  | _ => unexpected "identifier"

/-- The name of a selector, which may be a reserved word. -/
def selector : Parser Ident := do
  let t ← peek
  match t.kind with
  | .keyword k =>
    advance
    return ⟨k.text, t.span⟩
  | _ => ident

/-- A variable or null. -/
def operand : Parser Operand := do
  if ← accept (.keyword .null) then return .null
  else return .var (← ident)

/-- A number. -/
def integer : Parser Nat := do
  match ← peekKind with
  | .integer n =>
    advance
    return n
  | _ => unexpected "integer"

/-- One or more items with commas between them. Every item but the first consumes a comma, so the
number of tokens bounds the number of items. -/
def commaList (item : Parser α) : (steps : Nat) → Parser (List α)
  | 0 => unexpected "item"
  | steps + 1 => do
    let a ← item
    if ← accept (.symbol .comma) then return a :: (← commaList item steps)
    else return [a]

/-- A list in round brackets, which may be empty. -/
def bracketed (item : Parser α) : Parser (List α) := do
  expectSymbol .leftParen
  let items ←
    if (← peekKind) = .symbol .rightParen then pure []
    else commaList item (← get).ahead.length
  expectSymbol .rightParen
  return items

end Parser

end ShapeCheck.Source
