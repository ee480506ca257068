/-!
# Stable sorting

Sorting by a comparison, such that elements that compare equal keep their order. Short lists of
summaries are all that is ever sorted, so insertion is enough, and the definition computes by
structural recursion.
-/

namespace ShapeCheck

open Std

variable {α : Type}

/-- Put `a` in front of the first element that is not smaller. -/
def insertBy (cmp : α → α → Ordering) (a : α) : List α → List α
  | [] => [a]
  | b :: l => if cmp a b = .gt then b :: insertBy cmp a l else a :: b :: l

/-- The elements in increasing order; equal ones keep the order they had. -/
def sortBy (cmp : α → α → Ordering) (l : List α) : List α :=
  l.foldr (insertBy cmp) []

theorem insertBy_perm (cmp : α → α → Ordering) (a : α) (l : List α) :
    (insertBy cmp a l).Perm (a :: l) := by
  induction l with
  | nil => exact .refl _
  | cons b l ih =>
    rw [insertBy]
    split
    · exact (ih.cons b).trans (.swap a b l)
    · exact .refl _

theorem sortBy_perm (cmp : α → α → Ordering) (l : List α) : (sortBy cmp l).Perm l := by
  induction l with
  | nil => exact .refl _
  | cons a l ih => exact (insertBy_perm cmp a _).trans (ih.cons a)

theorem pairwise_insertBy {cmp : α → α → Ordering} [TransCmp cmp] {a : α} {l : List α}
    (h : l.Pairwise (fun a b => (cmp a b).isLE)) :
    (insertBy cmp a l).Pairwise (fun a b => (cmp a b).isLE) := by
  induction l with
  | nil => simp [insertBy]
  | cons b l ih =>
    rw [List.pairwise_cons] at h
    rw [insertBy]
    split
    · next hab =>
      refine List.pairwise_cons.2 ⟨fun c hc => ?_, ih h.2⟩
      rcases List.mem_cons.1 ((insertBy_perm cmp a l).mem_iff.1 hc) with rfl | hc
      · rw [OrientedCmp.lt_of_gt hab]
        rfl
      · exact h.1 c hc
    · next hab =>
      have hab : (cmp a b).isLE := Ordering.isLE_iff_ne_gt.2 hab
      refine List.pairwise_cons.2 ⟨fun c hc => ?_, List.pairwise_cons.2 h⟩
      rcases List.mem_cons.1 hc with rfl | hc
      · exact hab
      · exact TransCmp.isLE_trans hab (h.1 c hc)

theorem sortBy_pairwise (cmp : α → α → Ordering) [TransCmp cmp] (l : List α) :
    (sortBy cmp l).Pairwise (fun a b => (cmp a b).isLE) := by
  induction l with
  | nil => exact .nil
  | cons a l ih => exact pairwise_insertBy ih

theorem sortBy_eq_of_perm (cmp : α → α → Ordering) [TransCmp cmp] [LawfulEqCmp cmp]
    {l m : List α} (h : l.Perm m) : sortBy cmp l = sortBy cmp m := by
  have perm : (sortBy cmp l).Perm (sortBy cmp m) :=
    (sortBy_perm cmp l).trans (h.trans (sortBy_perm cmp m).symm)
  refine perm.eq_of_pairwise (fun a b _ _ hab hba => ?_) (sortBy_pairwise cmp l)
    (sortBy_pairwise cmp m)
  exact LawfulEqCmp.eq_of_compare (OrientedCmp.isLE_antisymm hab hba)

end ShapeCheck
