/-!
# Lists

The total of a list of numbers, and facts about lists in general.
-/

namespace ShapeCheck

open List

/-- The total of a list of numbers. -/
def total (l : List Nat) : Nat :=
  l.foldr (· + ·) 0

@[simp]
theorem total_cons (n : Nat) (l : List Nat) : total (n :: l) = n + total l := rfl

variable {α β : Type}

theorem mem_intersperse {sep a : α} {l : List α} (ha : a ∈ l) : a ∈ l.intersperse sep := by
  induction l with
  | nil => cases ha
  | cons b l ih =>
    cases l with
    | nil => exact ha
    | cons c l =>
      rw [intersperse_cons_cons]
      rcases mem_cons.1 ha with rfl | ha
      · exact mem_cons_self
      · exact mem_cons_of_mem _ (mem_cons_of_mem _ (ih ha))

theorem mapM_map_eq_some {f : β → Option α} {g : α → β} {l : List α}
    (h : ∀ a ∈ l, f (g a) = some a) : (l.map g).mapM f = some l := by
  induction l with
  | nil => rfl
  | cons a l ih =>
    obtain ⟨ha, hl⟩ := forall_mem_cons.1 h
    rw [map_cons, mapM_cons, ha, ih hl]
    rfl

end ShapeCheck
