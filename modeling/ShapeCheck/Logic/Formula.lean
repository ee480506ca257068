import ShapeCheck.Collection.SortedSet

/-!
# Temporal formulae in negation normal form

Linear temporal logic over named atoms, with negation at the atoms only. The order of formulae is
by connective and then by arguments from left to right; it is total, so that sets of formulae have
one listing.
-/

namespace ShapeCheck

open Std

/-- A temporal formula in negation normal form. -/
inductive Formula where
  | top
  | bot
  | atom (name : String)
  | natom (name : String)
  | and (a b : Formula)
  | or (a b : Formula)
  | next (a : Formula)
  | until (a b : Formula)
  | release (a b : Formula)
  deriving DecidableEq, Inhabited

namespace Formula

/-- Whether the outermost connective is a release. -/
def isRelease : Formula → Bool
  | release _ _ => true
  | _ => false

/-- Whether the outermost connective is a next. -/
def isNext : Formula → Bool
  | next _ => true
  | _ => false

/-- The written form of a formula. -/
def text : Formula → String
  | top => "true"
  | bot => "false"
  | atom p => "[" ++ p ++ "]"
  | natom p => "![" ++ p ++ "]"
  | and a b => "(" ++ a.text ++ " & " ++ b.text ++ ")"
  | or a b => "(" ++ a.text ++ " | " ++ b.text ++ ")"
  | next a => "X " ++ a.text
  | .until a b => "(" ++ a.text ++ " U " ++ b.text ++ ")"
  | release a b => "(" ++ a.text ++ " R " ++ b.text ++ ")"

/-- Polish notation: the connective, numbered in the order of formulae, in front of its arguments.
An atom carries its name. -/
def code : Formula → List (Nat × String)
  | top => [(0, "")]
  | bot => [(1, "")]
  | atom p => [(2, p)]
  | natom p => [(3, p)]
  | and a b => (4, "") :: (a.code ++ b.code)
  | or a b => (5, "") :: (a.code ++ b.code)
  | next a => (6, "") :: a.code
  | .until a b => (7, "") :: (a.code ++ b.code)
  | release a b => (8, "") :: (a.code ++ b.code)

/-- Two codes in a row can be told apart if each of them can. -/
theorem pairs_inj {a b c d : Formula} {l m : List (Nat × String)}
    (ha : ∀ {e : Formula} {l m : List (Nat × String)}, a.code ++ l = e.code ++ m → a = e ∧ l = m)
    (hb : ∀ {e : Formula} {l m : List (Nat × String)}, b.code ++ l = e.code ++ m → b = e ∧ l = m)
    (h : a.code ++ b.code ++ l = c.code ++ d.code ++ m) : a = c ∧ b = d ∧ l = m := by
  rw [List.append_assoc, List.append_assoc] at h
  obtain ⟨hac, h⟩ := ha h
  exact ⟨hac, hb h⟩

/-- Polish notation needs no brackets: a code is read off the front of a text in one way only. -/
theorem code_append_inj {a b : Formula} {l m : List (Nat × String)}
    (h : a.code ++ l = b.code ++ m) : a = b ∧ l = m := by
  induction a generalizing b l m with
  | top | bot | atom | natom => cases b <;> simp_all [code]
  | next a ih =>
    cases b with
    | next c =>
      obtain ⟨rfl, hlm⟩ := ih (List.cons.inj h).2
      exact ⟨rfl, hlm⟩
    | _ => simp [code] at h
  | and a b iha ihb =>
    cases b with
    | and c d =>
      obtain ⟨rfl, rfl, hlm⟩ := pairs_inj iha ihb (List.cons.inj h).2
      exact ⟨rfl, hlm⟩
    | _ => simp [code] at h
  | or a b iha ihb =>
    cases b with
    | or c d =>
      obtain ⟨rfl, rfl, hlm⟩ := pairs_inj iha ihb (List.cons.inj h).2
      exact ⟨rfl, hlm⟩
    | _ => simp [code] at h
  | «until» a b iha ihb =>
    cases b with
    | «until» c d =>
      obtain ⟨rfl, rfl, hlm⟩ := pairs_inj iha ihb (List.cons.inj h).2
      exact ⟨rfl, hlm⟩
    | _ => simp [code] at h
  | release a b iha ihb =>
    cases b with
    | release c d =>
      obtain ⟨rfl, rfl, hlm⟩ := pairs_inj iha ihb (List.cons.inj h).2
      exact ⟨rfl, hlm⟩
    | _ => simp [code] at h

theorem code_inj {a b : Formula} (h : a.code = b.code) : a = b :=
  (@code_append_inj a b [] [] (by rw [h])).1

/-- Formulae are compared by connective, then by arguments from left to right. As no code is a
proper beginning of another one, this is the order of their codes. -/
instance : Ord Formula where
  compare := viaView code (List.compareLex (lexPair compare compare))

instance : TransOrd Formula :=
  transCmp_viaView _ _

instance : LawfulEqOrd Formula :=
  lawfulEqCmp_viaView _ fun _ _ => code_inj

end Formula

/-- A finite set of formulae in increasing order. -/
abbrev FormulaSet := SortedSet Formula

end ShapeCheck
