/-!
# Places in a source text

A span is a range of bytes together with the line and the column where it begins. Lines and columns
count from one, and columns count characters.
-/

namespace ShapeCheck.Source

/-- A range of bytes and the place where it begins. -/
structure Span where
  /-- The first byte. -/
  start : Nat := 0
  /-- The byte after the last one. -/
  stop : Nat := 0
  /-- The line of the first byte. -/
  line : Nat := 0
  /-- The column of the first byte. -/
  column : Nat := 0
  deriving DecidableEq, Inhabited

namespace Span

/-- The smallest span that covers both. It begins where the one on the earlier line does. -/
def merge (a b : Span) : Span where
  start := min a.start b.start
  stop := max a.stop b.stop
  line := min a.line b.line
  column := if a.line ≤ b.line then a.column else b.column

/-- The number of bytes. -/
def length (a : Span) : Nat :=
  a.stop - a.start

/-- Whether the span has no bytes. -/
def isEmpty (a : Span) : Bool :=
  a.start = a.stop

/-- Line and column. -/
def text (a : Span) : String :=
  a.line.repr ++ ":" ++ a.column.repr

end Span

/-- A place in a source text: the bytes before it, its line and its column. -/
structure Place where
  /-- The number of bytes before the place. -/
  offset : Nat := 0
  /-- The line, counted from one. -/
  line : Nat := 1
  /-- The column, counted in characters from one. -/
  column : Nat := 1
  deriving DecidableEq, Inhabited

namespace Place

/-- The place after a character. -/
def next (p : Place) (c : Char) : Place :=
  if c = '\n' then ⟨p.offset + c.utf8Size, p.line + 1, 1⟩
  else ⟨p.offset + c.utf8Size, p.line, p.column + 1⟩

/-- The place after some characters. -/
def skip (p : Place) (cs : List Char) : Place :=
  cs.foldl next p

/-- The span from one place to a later one. -/
def spanTo (p q : Place) : Span :=
  ⟨p.offset, q.offset, p.line, p.column⟩

end Place

end ShapeCheck.Source
