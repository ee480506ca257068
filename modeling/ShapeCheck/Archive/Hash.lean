/-!
# Hashing

Texts are hashed by SipHash with one round for each block, three rounds at the end, and a key of
zeros. Every text is followed by a byte that no text contains, so lists of texts are told apart.
-/

namespace ShapeCheck

/-- The four words of the running state. -/
structure SipState where
  a : UInt64
  b : UInt64
  c : UInt64
  d : UInt64
  deriving DecidableEq, Inhabited

/-- Rotate a word to the left. -/
def rotateLeft (x : UInt64) (n : UInt64) : UInt64 :=
  (x <<< n) ||| (x >>> (64 - n))

namespace SipState

/-- The state for a key of zeros. -/
def start : SipState :=
  ⟨0x736f6d6570736575, 0x646f72616e646f6d, 0x6c7967656e657261, 0x7465646279746573⟩

/-- One round. -/
def round (s : SipState) : SipState :=
  let a := s.a + s.b
  let c := s.c + s.d
  let b := rotateLeft s.b 13 ^^^ a
  let d := rotateLeft s.d 16 ^^^ c
  let a := rotateLeft a 32
  let a' := a + d
  let c' := c + b
  ⟨a', rotateLeft b 17 ^^^ c', rotateLeft c' 32, rotateLeft d 21 ^^^ a'⟩

/-- Take in one block. -/
def absorb (s : SipState) (block : UInt64) : SipState :=
  let s := round { s with d := s.d ^^^ block }
  { s with a := s.a ^^^ block }

/-- The hash of what was taken in. -/
def finish (s : SipState) : UInt64 :=
  let s := round (round (round { s with c := s.c ^^^ 0xff }))
  s.a ^^^ s.b ^^^ s.c ^^^ s.d

end SipState

/-- The word of at most eight bytes, the lowest first. -/
def wordOf (bytes : List UInt8) : UInt64 :=
  bytes.foldr (fun x w => (w <<< 8) ||| x.toUInt64) 0

/-- Take in bytes eight at a time; the last block holds the rest and the total length. -/
def absorbAll (total : Nat) : List UInt8 → SipState → SipState
  | b0 :: b1 :: b2 :: b3 :: b4 :: b5 :: b6 :: b7 :: rest, s =>
    absorbAll total rest (s.absorb (wordOf [b0, b1, b2, b3, b4, b5, b6, b7]))
  | rest, s => s.absorb (wordOf rest ||| (total.toUInt64 <<< 56))

/-- The hash of some bytes. -/
def sipHash (bytes : List UInt8) : UInt64 :=
  (absorbAll bytes.length bytes .start).finish

/-- The bytes of a text and the mark of its end. -/
def hashBytes (s : String) : List UInt8 :=
  s.toUTF8.data.toList ++ [0xff]

/-- The hash of a list of texts. -/
def hashTexts (texts : List String) : Nat :=
  (sipHash (texts.flatMap hashBytes)).toNat

/-- The hash of a program with named settings. -/
def programHash (source : String) (settings : List (String × String)) : Nat :=
  hashTexts (source :: settings.flatMap fun (name, value) => [name, value])

end ShapeCheck
