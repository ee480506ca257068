import ShapeCheck.Proofs.Branch
import Mathlib.Tactic.Choose
import Mathlib.Data.Nat.Find

/-!
# Runs over a word

A *run* expands a set of formulae along a word: a branch is chosen at every position, and the bodies
of its leaf are the set at the next position. A run that meets the empty leaf stays empty from there
on.

A run is *justified* if from some position on a release is in all its sets while the second argument
of the release is not met on any branch. This is exact: a set holds on a word if and only if all its
runs over the word are justified (`FormulaSet.holds_iff_forall_run`). If the set holds, the smallest
formula that holds anywhere on the run is a release that is postponed forever. If the set fails, so
does everything on a run of refuting branches, and no release can be postponed forever on it without
its second argument being met.
-/

namespace ShapeCheck

namespace FormulaSet

/-- A way to expand a set of formulae along a word. -/
structure Run (w : Word) where
  /-- The set to expand at a position. -/
  sets : Nat → FormulaSet
  /-- The sets that are met at a position. -/
  trail : Nat → List FormulaSet
  /-- The next formulae that are left at a position. -/
  leaf : Nat → FormulaSet
  branch : ∀ i, Branch (w i) (sets i) (trail i) (leaf i)
  /-- What is left at a position has to hold at the next one. -/
  sets_succ : ∀ i, sets (i + 1) = (leaf i).bodies

namespace Run

variable {w : Word} (r : Run w)

/-- From some position on a release is in every set, and its second argument is not met. -/
def IsJustified : Prop :=
  ∃ a b n, ∀ i, n ≤ i → .release a b ∈ r.sets i ∧ ∀ u ∈ r.trail i, b ∉ u

/-- Only refuting branches are chosen. -/
def IsRefuting : Prop :=
  ∀ i, FormulaSet.IsRefuting w i (r.sets i) (r.trail i) (r.leaf i)

theorem exists_mem_subformulae {a : Formula} {i : Nat} (ha : a ∈ r.sets i) :
    ∃ e ∈ r.sets 0, a ∈ e.subformulae := by
  induction i generalizing a with
  | zero => exact ⟨a, ha, by simp⟩
  | succ i ih =>
    rw [r.sets_succ, mem_bodies] at ha
    obtain ⟨b, hb, hab⟩ := (r.branch i).next_mem_subformulae ha
    obtain ⟨e, he, hbe⟩ := ih hb
    exact ⟨e, he, Formula.mem_subformulae_trans hbe hab⟩

/-- The sizes of the formulae that are met on a run and hold where they are met. -/
private def TrueSize (n : Nat) : Prop :=
  ∃ i, ∃ u ∈ r.trail i, ∃ f ∈ u, f.Holds w i ∧ f.size = n

variable {r}

private theorem postponed_of_smallest {f : Formula} {i : Nat} {u : FormulaSet}
    (hmin : ∀ n, r.TrueSize n → f.size ≤ n) (hu : u ∈ r.trail i) (hf : f ∈ u)
    (hi : f.Holds w i) :
    f ∈ r.sets (i + 1) ∧ f.Holds w (i + 1) ∧ IsPostponed w i f := by
  obtain ⟨rest, hrest, -⟩ := (r.branch i).exists_suffix hu
  obtain ⟨g, hg, hgi, hsize⟩ := hrest.exists_of_holds hf hi
  rw [← r.sets_succ] at hg
  have hle : f.size ≤ g.size := hmin _ ⟨i + 1, _, (r.branch (i + 1)).head_mem, g, hg, hgi, rfl⟩
  rcases hsize with hlt | ⟨rfl, hpost⟩
  · omega
  · exact ⟨hg, hgi, hpost⟩

theorem isJustified_of_holds (h : (r.sets 0).Holds w 0) : r.IsJustified := by
  classical
  have hex : ∃ n, r.TrueSize n := by
    obtain ⟨f, hf, hfi⟩ := h
    exact ⟨f.size, 0, _, (r.branch 0).head_mem, f, hf, hfi, rfl⟩
  obtain ⟨i, u, hu, f, hf, hi, hsize⟩ := Nat.find_spec hex
  have hmin (n : Nat) (hn : r.TrueSize n) : f.size ≤ n := hsize ▸ Nat.find_min' hex hn
  have hlater (k : Nat) : f ∈ r.sets (i + 1 + k) ∧ f.Holds w (i + 1 + k) := by
    induction k with
    | zero =>
      obtain ⟨hmem, hholds, -⟩ := postponed_of_smallest hmin hu hf hi
      exact ⟨hmem, hholds⟩
    | succ k ih =>
      obtain ⟨hmem, hholds, -⟩ :=
        postponed_of_smallest hmin (r.branch _).head_mem ih.1 ih.2
      exact ⟨hmem, hholds⟩
  have hpost (k : Nat) : IsPostponed w (i + 1 + k) f :=
    (postponed_of_smallest hmin (r.branch _).head_mem (hlater k).1 (hlater k).2).2.2
  cases f with
  | «until» a b =>
    -- an until cannot be postponed forever
    have hnever (k : Nat) (hk : i + 1 ≤ k) : ¬ b.Holds w k := by
      obtain ⟨d, rfl⟩ := Nat.exists_eq_add_of_le hk
      exact hpost d
    exact absurd (hlater 0).2 (Formula.not_holds_until_of_forall hnever)
  | release a b =>
    refine ⟨a, b, i + 1, fun j hj => ?_⟩
    obtain ⟨d, rfl⟩ := Nat.exists_eq_add_of_le hj
    obtain ⟨hmem, hholds⟩ := hlater d
    refine ⟨hmem, fun u hu hbu => ?_⟩
    have hb : b.Holds w (i + 1 + d) := (Formula.holds_release_iff.1 hholds).1
    have hle : (Formula.release a b).size ≤ b.size := hmin _ ⟨_, u, hu, b, hbu, hb, rfl⟩
    simp only [Formula.size] at hle
    omega
  | _ => exact (hpost 0).elim

theorem exists_isRefuting {s : FormulaSet} (h : ¬ s.Holds w 0) :
    ∃ r : Run w, r.sets 0 = s ∧ r.IsRefuting := by
  have hstep (i : Nat) (s : { s : FormulaSet // ¬ s.Holds w i }) :
      ∃ (t : { s : FormulaSet // ¬ s.Holds w (i + 1) }) (trail : List FormulaSet)
        (leaf : FormulaSet), FormulaSet.IsRefuting w i s trail leaf ∧ t.1 = leaf.bodies := by
    obtain ⟨trail, leaf, href⟩ := FormulaSet.exists_isRefuting s.2
    refine ⟨⟨leaf.bodies, ?_⟩, trail, leaf, href, rfl⟩
    rintro ⟨a, ha, hai⟩
    exact href.not_holds leaf href.branch.leaf_mem ⟨.next a, mem_bodies.1 ha, hai⟩
  choose next trail leaf href hnext using hstep
  let sets (i : Nat) : { s : FormulaSet // ¬ s.Holds w i } := Nat.rec ⟨s, h⟩ next i
  let r : Run w :=
    { sets := fun i => (sets i).1
      trail := fun i => trail i (sets i)
      leaf := fun i => leaf i (sets i)
      branch := fun i => (href i (sets i)).branch
      sets_succ := fun i => hnext i (sets i) }
  exact ⟨r, rfl, fun i => href i (sets i)⟩

namespace IsRefuting

variable {a b : Formula} {n : Nat}

/-- A release that is in every set of a refuting run has its second argument fail somewhere. -/
theorem exists_not_holds (h : r.IsRefuting) (hab : .release a b ∈ r.sets n) :
    ∃ i, n ≤ i ∧ ¬ b.Holds w i := by
  by_contra hall
  have hb (i : Nat) (hi : n ≤ i) : b.Holds w i := by
    by_contra hbi
    exact hall ⟨i, hi, hbi⟩
  exact (h n).not_holds _ (r.branch n).head_mem
    ⟨_, hab, Formula.holds_release_of_forall hb⟩

theorem not_isJustified (h : r.IsRefuting) : ¬ r.IsJustified := by
  rintro ⟨a, b, n, hn⟩
  obtain ⟨i, hi, hbi⟩ := h.exists_not_holds (hn n (Nat.le_refl n)).1
  obtain ⟨hab, hnever⟩ := hn i hi
  obtain ⟨u, hu, hbu⟩ := (h i).taken a b hab hbi
  exact hnever u hu hbu

end IsRefuting

end Run

/-- A set holds on a word if and only if all its runs over the word are justified. -/
theorem holds_iff_forall_run {w : Word} {s : FormulaSet} :
    s.Holds w 0 ↔ ∀ r : Run w, r.sets 0 = s → r.IsJustified := by
  constructor
  · rintro h r rfl
    exact Run.isJustified_of_holds h
  · intro h
    by_contra hs
    obtain ⟨r, hr, href⟩ := Run.exists_isRefuting hs
    exact href.not_isJustified (h r hr)

end FormulaSet

end ShapeCheck
