import ShapeCheck.Source.Span
import ShapeCheck.Text.Quoted

/-!
# Tokens

The words and signs of the pointer language, with the text each of them is written as.
-/

namespace ShapeCheck.Source

/-- The reserved words. -/
inductive Keyword where
  | method | property | init | if | goto | return | skip | null | new | list | cycle | true | false
  | not | and | or | implies | next | until | release | always | eventually | reach | terminated
  deriving DecidableEq, Inhabited

namespace Keyword

/-- All reserved words. -/
def all : List Keyword :=
  [.method, .property, .init, .if, .goto, .return, .skip, .null, .new, .list, .cycle, .true, .false,
    .not, .and, .or, .implies, .next, .until, .release, .always, .eventually, .reach, .terminated]

/-- How a reserved word is written. -/
def text : Keyword → String
  | .method => "method"
  | .property => "property"
  | .init => "init"
  | .if => "if"
  | .goto => "goto"
  | .return => "return"
  | .skip => "skip"
  | .null => "null"
  | .new => "new"
  | .list => "list"
  | .cycle => "cycle"
  | .true => "true"
  | .false => "false"
  | .not => "not"
  | .and => "and"
  | .or => "or"
  | .implies => "implies"
  | .next => "next"
  | .until => "until"
  | .release => "release"
  | .always => "always"
  | .eventually => "eventually"
  | .reach => "reach"
  | .terminated => "terminated"

/-- The reserved word that is written as `word`. -/
def ofText? (word : String) : Option Keyword :=
  all.find? (·.text = word)

end Keyword

/-- The signs. -/
inductive Symbol where
  | leftParen | rightParen | leftBrace | rightBrace | leftBracket | rightBracket
  | comma | colon | semicolon | dot | assign | equal | unequal | star
  deriving DecidableEq, Inhabited

/-- How a sign is written. -/
def Symbol.text : Symbol → String
  | .leftParen => "("
  | .rightParen => ")"
  | .leftBrace => "\x7b"
  | .rightBrace => "\x7d"
  | .leftBracket => "["
  | .rightBracket => "]"
  | .comma => ","
  | .colon => ":"
  | .semicolon => ";"
  | .dot => "."
  | .assign => "="
  | .equal => "=="
  | .unequal => "!="
  | .star => "*"

/-- Why some characters are not a token. -/
inductive ScanError where
  /-- A number that does not fit in 32 bits. -/
  | numberTooLarge (digits : String)
  /-- An exclamation mark on its own. -/
  | loneBang
  /-- A character that begins no token. -/
  | unexpected (c : Char)
  deriving DecidableEq, Inhabited

/-- The wording of a scan error. -/
def ScanError.message : ScanError → String
  | .numberTooLarge digits => "integer out of range: " ++ digits
  | .loneBang => "`!` must be followed by `=`"
  | .unexpected c => "unexpected character " ++ Text.quoteChar c

/-- What a token is. -/
inductive TokenKind where
  | keyword (k : Keyword)
  | symbol (s : Symbol)
  | ident (name : String)
  | integer (value : Nat)
  | comment (body : String)
  | bad (error : ScanError)
  | eof
  deriving DecidableEq, Inhabited

namespace TokenKind

/-- The name of a token in messages: its text, or what it is. -/
def text : TokenKind → String
  | keyword k => k.text
  | symbol s => s.text
  | ident name => name
  | integer n => n.repr
  | comment _ => "comment"
  | bad e => "error: " ++ e.message
  | eof => "end of file"

/-- Whether a token does not take part in the grammar. -/
def isTrivia : TokenKind → Bool
  | comment _ => true
  | _ => false

end TokenKind

/-- A token and its place. -/
structure Token where
  kind : TokenKind
  span : Span
  deriving DecidableEq, Inhabited

end ShapeCheck.Source
