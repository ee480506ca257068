/-!
# Lexicographic orders

Heaps, formulae and summaries are compared field by field. This file builds such comparisons from
comparisons of the fields and shows that they stay lawful: `lexPair` compares two pairs by their
first and then by their second components, and `LawfulEqCmp` along an injective view lets a
structure borrow the order of a tuple of its fields.
-/

namespace ShapeCheck

open Std

variable {α β γ : Type}

/-- Two pairs compared by their first components, and by their second ones on a tie. -/
def lexPair (c : α → α → Ordering) (d : β → β → Ordering) (a b : α × β) : Ordering :=
  (c a.1 b.1).then (d a.2 b.2)

instance {c : α → α → Ordering} {d : β → β → Ordering} [OrientedCmp c] [OrientedCmp d] :
    OrientedCmp (lexPair c d) where
  eq_swap {a b} := by
    rw [lexPair, lexPair, Ordering.swap_then, ← @OrientedCmp.eq_swap _ c,
      ← @OrientedCmp.eq_swap _ d]

theorem isLE_lexPair_iff {c : α → α → Ordering} {d : β → β → Ordering} {a b : α × β} :
    (lexPair c d a b).isLE ↔
      c a.1 b.1 = .lt ∨ (c a.1 b.1 = .eq ∧ (d a.2 b.2).isLE) := by
  rw [lexPair]
  cases c a.1 b.1 <;> cases d a.2 b.2 <;> decide

instance {c : α → α → Ordering} {d : β → β → Ordering} [TransCmp c] [TransCmp d] :
    TransCmp (lexPair c d) where
  isLE_trans {a b e} hab hbe := by
    rw [isLE_lexPair_iff] at hab hbe ⊢
    rcases hab with hab | ⟨hab, hab'⟩ <;> rcases hbe with hbe | ⟨hbe, hbe'⟩
    · exact .inl (TransCmp.lt_trans hab hbe)
    · exact .inl (TransCmp.lt_of_lt_of_eq hab hbe)
    · exact .inl (TransCmp.lt_of_eq_of_lt hab hbe)
    · exact .inr ⟨TransCmp.eq_trans hab hbe, TransCmp.isLE_trans hab' hbe'⟩

instance {c : α → α → Ordering} {d : β → β → Ordering} [LawfulEqCmp c] [LawfulEqCmp d] :
    LawfulEqCmp (lexPair c d) where
  compare_self {a} := by
    simp [lexPair, ReflCmp.compare_self]
  eq_of_compare {a b} h := by
    obtain ⟨h₁, h₂⟩ := Ordering.then_eq_eq.1 h
    exact Prod.ext (LawfulEqCmp.eq_of_compare h₁) (LawfulEqCmp.eq_of_compare h₂)

/-- Comparison through a view of both sides. -/
def viaView (f : γ → α) (c : α → α → Ordering) (a b : γ) : Ordering :=
  c (f a) (f b)

theorem transCmp_viaView (f : γ → α) (c : α → α → Ordering) [TransCmp c] :
    TransCmp (viaView f c) where
  eq_swap {_ _} := @OrientedCmp.eq_swap _ c _ _ _
  isLE_trans {_ _ _} := @TransCmp.isLE_trans _ c _ _ _ _

/-- A view that loses nothing carries the law that only equal values compare equal. -/
theorem lawfulEqCmp_viaView {f : γ → α} (c : α → α → Ordering) [LawfulEqCmp c]
    (hf : ∀ a b, f a = f b → a = b) : LawfulEqCmp (viaView f c) where
  compare_self {_} := @ReflCmp.compare_self _ c _ _
  eq_of_compare h := hf _ _ (LawfulEqCmp.eq_of_compare h)

end ShapeCheck
