import ShapeCheck.Logic.Ltl
import ShapeCheck.Proofs.Word
import Mathlib.Logic.Basic
import Mathlib.Tactic.Push

/-!
# Negation normal form

A formula as written is put into negation normal form with a flag that says whether it stands below
an odd number of negations. The *dual* of a formula in negation normal form has the dual connective
everywhere and the opposite literals, so it holds where the formula fails. Setting the flag takes the
dual: whatever the normal form does below a negation is then known from what it does elsewhere, and
two negations cancel because taking the dual twice gives a formula back.
-/

namespace ShapeCheck

namespace Formula

/-- The formula with dual connectives and opposite literals. -/
def dual : Formula → Formula
  | top => bot
  | bot => top
  | atom p => natom p
  | natom p => atom p
  | and a b => or a.dual b.dual
  | or a b => and a.dual b.dual
  | next a => next a.dual
  | .until a b => release a.dual b.dual
  | release a b => .until a.dual b.dual

@[simp]
theorem dual_dual (a : Formula) : a.dual.dual = a := by
  induction a with
  | top | bot | atom | natom => rfl
  | next a ih => rw [dual, dual, ih]
  | and a b iha ihb | or a b iha ihb | «until» a b iha ihb | release a b iha ihb =>
    rw [dual, dual, iha, ihb]

variable {w : Word}

theorem holds_dual_iff {a : Formula} {i : Nat} : a.dual.Holds w i ↔ ¬ a.Holds w i := by
  induction a generalizing i with
  | top => exact iff_of_false id fun h => h trivial
  | bot => exact iff_of_true trivial id
  | atom p => exact (Bool.not_eq_true _).symm.to_iff
  | natom p => exact (Bool.not_eq_false _).symm.to_iff
  | and a b iha ihb => exact (or_congr iha ihb).trans Classical.not_and_iff_not_or_not.symm
  | or a b iha ihb => exact (and_congr iha ihb).trans not_or.symm
  | next a ih => exact ih
  | «until» a b iha ihb =>
    simp only [dual, Holds, iha, ihb]
    push Not
    exact forall₂_congr fun k _ => imp_iff_not_or.symm
  | release a b iha ihb =>
    simp only [dual, Holds, iha, ihb]
    push Not
    rfl

end Formula

namespace Ltl

/-- A formula as written holds on a word from a position on. -/
def Holds (w : Word) : Ltl → Nat → Prop
  | top, _ => True
  | bot, _ => False
  | atom p, i => w i p = true
  | not a, i => ¬ a.Holds w i
  | and a b, i => a.Holds w i ∧ b.Holds w i
  | or a b, i => a.Holds w i ∨ b.Holds w i
  | implies a b, i => a.Holds w i → b.Holds w i
  | next a, i => a.Holds w (i + 1)
  | .until a b, i => ∃ k, i ≤ k ∧ b.Holds w k ∧ ∀ j, i ≤ j → j < k → a.Holds w j
  | release a b, i => ∀ k, i ≤ k → b.Holds w k ∨ ∃ j, i ≤ j ∧ j < k ∧ a.Holds w j
  | eventually a, i => ∃ k, i ≤ k ∧ a.Holds w k
  | always a, i => ∀ k, i ≤ k → a.Holds w k

theorem nnf_true_eq (a : Ltl) : a.nnf true = (a.nnf false).dual := by
  induction a with
  | top | bot | atom => rfl
  | not a ih =>
    -- Both flags change here, so the dual is taken twice.
    simp only [nnf, Bool.not_true, Bool.not_false, ih, Formula.dual_dual]
  | implies a b iha ihb => simp only [nnf, Formula.dual, iha, ihb, Formula.dual_dual]
  | next a ih | eventually a ih | always a ih => simp only [nnf, Formula.dual, ih]
  | and a b iha ihb | or a b iha ihb | «until» a b iha ihb | release a b iha ihb =>
    simp only [nnf, Formula.dual, iha, ihb]

theorem normalize_not (a : Ltl) : a.not.normalize = a.normalize.dual :=
  a.nnf_true_eq

variable {w : Word}

/-- The normal form holds where the formula does. -/
theorem holds_normalize_iff {a : Ltl} {i : Nat} : a.normalize.Holds w i ↔ a.Holds w i := by
  induction a generalizing i with
  | top | bot | atom => rfl
  | not a ih =>
    rw [normalize_not, Formula.holds_dual_iff, ih]
    rfl
  | and a b iha ihb => exact and_congr iha ihb
  | or a b iha ihb => exact or_congr iha ihb
  | implies a b iha ihb =>
    have hnot : (a.nnf true).Holds w i ↔ ¬ a.Holds w i := by
      rw [nnf_true_eq, Formula.holds_dual_iff]
      exact not_congr iha
    exact (or_congr hnot ihb).trans imp_iff_not_or.symm
  | next a ih => exact ih
  | «until» a b iha ihb =>
    exact exists_congr fun k => and_congr_right fun _ =>
      and_congr ihb (forall₃_congr fun j _ _ => iha)
  | release a b iha ihb =>
    exact forall₂_congr fun k _ =>
      or_congr ihb (exists_congr fun j => and_congr_right fun _ => and_congr_right fun _ => iha)
  | eventually a ih =>
    -- Nothing has to hold before the position where the argument does.
    refine exists_congr fun k => and_congr_right fun _ => ⟨fun h => ih.1 h.1, fun h => ?_⟩
    exact ⟨ih.2 h, fun _ _ _ => trivial⟩
  | always a ih =>
    -- Nothing ends the obligation before a position.
    refine forall₂_congr fun k _ => ⟨fun h => ?_, fun h => .inl (ih.2 h)⟩
    rcases h with h | ⟨j, -, -, hj⟩
    · exact ih.1 h
    · exact hj.elim

/-- The negation normal form is exact. From every position of every word on, it holds if and only if
the formula as written does; the normal form of the negation holds if and only if the formula does not;
and two negations leave the very same normal form. -/
theorem normalize_exact (a : Ltl) :
    (∀ (w : Word) (i : Nat), a.normalize.Holds w i ↔ a.Holds w i) ∧
      (∀ (w : Word) (i : Nat), a.not.normalize.Holds w i ↔ ¬ a.Holds w i) ∧
      a.not.not.normalize = a.normalize := by
  refine ⟨fun w i => holds_normalize_iff, fun w i => ?_, ?_⟩
  · rw [normalize_not, Formula.holds_dual_iff, holds_normalize_iff]
  · rw [normalize_not, normalize_not, Formula.dual_dual]

/-- The order of the arguments of an implication is kept below a negation. -/
example : (not (implies (.until (atom "p") (atom "q")) (always (atom "r")))).normalize =
    .and (.until (.atom "p") (.atom "q")) (.until .top (.natom "r")) := by
  decide

end Ltl

end ShapeCheck
