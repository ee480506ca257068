import ShapeCheck.Collection.Lex

/-!
# Sorted sets

A finite set kept as the strictly increasing list of its members. Two such sets are equal as soon
as they have the same members, so sets can be compared, printed and used as keys through their
lists.
-/

namespace ShapeCheck

open Std

variable {α : Type} [Ord α]

/-- Put `a` into an increasing list, unless it is already there. -/
def insertSorted (a : α) : List α → List α
  | [] => [a]
  | b :: l =>
    match compare a b with
    | .lt => a :: b :: l
    | .eq => b :: l
    | .gt => b :: insertSorted a l

/-- A finite set, held as the strictly increasing list of its members. -/
structure SortedSet (α : Type) [Ord α] where
  /-- The members in increasing order. -/
  toList : List α
  /-- The list is strictly increasing. -/
  sorted : toList.Pairwise (fun a b => compare a b = .lt)

theorem mem_insertSorted [LawfulEqOrd α] {a b : α} {l : List α} :
    b ∈ insertSorted a l ↔ b = a ∨ b ∈ l := by
  induction l with
  | nil => simp [insertSorted]
  | cons c l ih =>
    rw [insertSorted]
    split
    · simp
    · next h =>
      have : a = c := LawfulEqCmp.eq_of_compare h
      simp [this]
    · simp only [List.mem_cons, ih]
      exact ⟨fun h => h.elim (.inr ∘ .inl) (Or.imp_right .inr),
        fun h => h.elim (.inr ∘ .inl) (Or.imp_right .inr)⟩

theorem pairwise_insertSorted [TransOrd α] [LawfulEqOrd α] {a : α} {l : List α}
    (h : l.Pairwise (fun a b => compare a b = .lt)) :
    (insertSorted a l).Pairwise (fun a b => compare a b = .lt) := by
  induction l with
  | nil => simp [insertSorted]
  | cons c l ih =>
    rw [List.pairwise_cons] at h
    rw [insertSorted]
    split
    · next hac =>
      refine List.pairwise_cons.2 ⟨fun b hb => ?_, List.pairwise_cons.2 h⟩
      rcases List.mem_cons.1 hb with rfl | hb
      · exact hac
      · exact TransCmp.lt_trans hac (h.1 b hb)
    · exact List.pairwise_cons.2 h
    · next hac =>
      refine List.pairwise_cons.2 ⟨fun b hb => ?_, ih h.2⟩
      rcases mem_insertSorted.1 hb with rfl | hb
      · exact OrientedCmp.lt_of_gt hac
      · exact h.1 b hb

namespace SortedSet

instance : Membership α (SortedSet α) where
  mem s a := a ∈ s.toList

theorem mem_def {s : SortedSet α} {a : α} : a ∈ s ↔ a ∈ s.toList :=
  Iff.rfl

instance [DecidableEq α] : DecidableEq (SortedSet α) := fun s t =>
  if h : s.toList = t.toList then isTrue (by cases s; cases t; simp_all)
  else isFalse (fun e => h (e ▸ rfl))

instance [DecidableEq α] {a : α} {s : SortedSet α} : Decidable (a ∈ s) :=
  inferInstanceAs (Decidable (a ∈ s.toList))

/-- The set with no members. -/
def empty : SortedSet α :=
  ⟨[], .nil⟩

instance : EmptyCollection (SortedSet α) := ⟨empty⟩

instance : Inhabited (SortedSet α) := ⟨empty⟩

@[simp] theorem toList_empty : (∅ : SortedSet α).toList = [] := rfl

@[simp] theorem not_mem_empty {a : α} : a ∉ (∅ : SortedSet α) := List.not_mem_nil

/-- Whether the set has no members. -/
def isEmpty (s : SortedSet α) : Bool :=
  s.toList.isEmpty

/-- The number of members. -/
def size (s : SortedSet α) : Nat :=
  s.toList.length

/-- The members that satisfy `p`. -/
def filter (p : α → Bool) (s : SortedSet α) : SortedSet α :=
  ⟨s.toList.filter p, s.sorted.filter p⟩

@[simp] theorem mem_filter {p : α → Bool} {s : SortedSet α} {a : α} :
    a ∈ s.filter p ↔ a ∈ s ∧ p a :=
  List.mem_filter

/-- The set without `a`. -/
def erase (s : SortedSet α) (a : α) : SortedSet α :=
  s.filter fun b => compare a b != .eq

@[simp] theorem mem_erase [LawfulEqOrd α] {s : SortedSet α} {a b : α} :
    b ∈ s.erase a ↔ b ∈ s ∧ b ≠ a := by
  rw [erase, mem_filter]
  refine and_congr_right fun _ => ?_
  rw [bne_iff_ne, ne_eq, LawfulEqCmp.compare_eq_iff_eq, eq_comm]

variable [TransOrd α] [LawfulEqOrd α]

/-- The set together with `a`. -/
def insert (s : SortedSet α) (a : α) : SortedSet α :=
  ⟨insertSorted a s.toList, pairwise_insertSorted s.sorted⟩

@[simp] theorem mem_insert {s : SortedSet α} {a b : α} : b ∈ s.insert a ↔ b = a ∨ b ∈ s :=
  mem_insertSorted

/-- The set of the members of a list. -/
def ofList (l : List α) : SortedSet α :=
  l.foldl insert ∅

/-- The members of either set. -/
def union (s t : SortedSet α) : SortedSet α :=
  t.toList.foldl insert s

theorem mem_foldl_insert {l : List α} {s : SortedSet α} {a : α} :
    a ∈ l.foldl insert s ↔ a ∈ s ∨ a ∈ l := by
  induction l generalizing s with
  | nil => simp
  | cons b l ih =>
    rw [List.foldl_cons, ih, mem_insert, List.mem_cons, or_comm (a := a = b), or_assoc]

@[simp] theorem mem_union {s t : SortedSet α} {a : α} : a ∈ s.union t ↔ a ∈ s ∨ a ∈ t :=
  mem_foldl_insert

@[simp] theorem mem_ofList {l : List α} {a : α} : a ∈ ofList l ↔ a ∈ l := by
  simp [ofList, mem_foldl_insert]

theorem eq_of_sorted_of_mem_iff : {l m : List α} →
    l.Pairwise (fun a b => compare a b = .lt) → m.Pairwise (fun a b => compare a b = .lt) →
    (∀ a, a ∈ l ↔ a ∈ m) → l = m
  | [], [], _, _, _ => rfl
  | [], b :: m, _, _, h => absurd ((h b).2 List.mem_cons_self) List.not_mem_nil
  | a :: l, [], _, _, h => absurd ((h a).1 List.mem_cons_self) List.not_mem_nil
  | a :: l, b :: m, hl, hm, h => by
    rw [List.pairwise_cons] at hl hm
    have irrefl (c : α) : compare c c ≠ .lt := by simp [ReflCmp.compare_self]
    have hab : a = b := by
      rcases List.mem_cons.1 ((h a).1 List.mem_cons_self) with e | ha
      · exact e
      rcases List.mem_cons.1 ((h b).2 List.mem_cons_self) with e | hb
      · exact e.symm
      exact absurd (TransCmp.lt_trans (hl.1 b hb) (hm.1 a ha)) (irrefl a)
    subst hab
    rw [eq_of_sorted_of_mem_iff hl.2 hm.2 fun c => ⟨fun hc => ?_, fun hc => ?_⟩]
    · rcases List.mem_cons.1 ((h c).1 (List.mem_cons_of_mem _ hc)) with rfl | hc'
      · exact absurd (hl.1 c hc) (irrefl c)
      · exact hc'
    · rcases List.mem_cons.1 ((h c).2 (List.mem_cons_of_mem _ hc)) with rfl | hc'
      · exact absurd (hm.1 c hc) (irrefl c)
      · exact hc'

/-- Sets with the same members are equal. -/
@[ext] theorem ext {s t : SortedSet α} (h : ∀ a, a ∈ s ↔ a ∈ t) : s = t := by
  have : s.toList = t.toList := eq_of_sorted_of_mem_iff s.sorted t.sorted h
  cases s; cases t; simp_all

/-- Sets compared as their increasing lists. -/
instance : Ord (SortedSet α) where
  compare := viaView toList compare

instance : TransOrd (SortedSet α) :=
  transCmp_viaView _ _

instance : LawfulEqOrd (SortedSet α) :=
  lawfulEqCmp_viaView _ fun s t h => by cases s; cases t; simp_all

end SortedSet

end ShapeCheck
