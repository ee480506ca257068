import ShapeCheck.Proofs.Word
import Mathlib.Logic.Basic

/-!
# Branches of an expansion

Expanding a set of formulae takes its members apart one after the other. A *branch* is one way
through the expansion: the sets met on the way, down to a *leaf* in which only next formulae are
left. The leaves of the branches are the ones that the expansion computes.

Two facts about branches carry the correctness of the tableau. A formula that holds hands its truth
down every branch, to a smaller formula or to itself, postponed (`Branch.exists_of_holds`). A set
that fails has a branch on which everything fails and a release is postponed only while its second
argument holds (`exists_isRefuting`).
-/

namespace ShapeCheck

open Std List

theorem insertSorted_perm {α : Type} [Ord α] [LawfulEqOrd α] {a : α} {l : List α} (h : a ∉ l) :
    (insertSorted a l).Perm (a :: l) := by
  induction l with
  | nil => exact .refl _
  | cons b l ih =>
    rw [insertSorted]
    split
    · exact .refl _
    · next hab =>
      have : a = b := LawfulEqCmp.eq_of_compare hab
      exact absurd (this ▸ mem_cons_self) h
    · have hl : a ∉ l := fun ha => h (mem_cons_of_mem b ha)
      exact ((ih hl).cons b).trans (.swap a b l)

theorem total_perm {l m : List Nat} (h : l.Perm m) : total l = total m := by
  induction h with
  | nil => rfl
  | cons a _ ih => rw [total_cons, total_cons, ih]
  | swap a b l =>
    simp only [total_cons]
    omega
  | trans _ _ ih₁ ih₂ => exact ih₁.trans ih₂

namespace FormulaSet

variable {s : FormulaSet} {a : Formula}

theorem weight_insert_of_notMem (h : a ∉ s) : weight (s.insert a) = a.weight + s.weight := by
  have hp : ((s.insert a).toList.map Formula.weight).Perm ((a :: s.toList).map Formula.weight) :=
    (insertSorted_perm h).map _
  exact total_perm hp

theorem weight_insert_le : weight (s.insert a) ≤ a.weight + s.weight := by
  by_cases h : a ∈ s
  · have hs : s.insert a = s := by
      ext b
      simp only [SortedSet.mem_insert, or_iff_right_iff_imp]
      rintro rfl
      exact h
    rw [hs]
    omega
  · exact Nat.le_of_eq (weight_insert_of_notMem h)

theorem weight_erase (h : a ∈ s) : a.weight + weight (s.erase a) = s.weight := by
  have hs : (s.erase a).insert a = s := by
    ext b
    rw [SortedSet.mem_insert, SortedSet.mem_erase]
    by_cases hb : b = a
    · simp only [hb, true_or, h]
    · simp only [hb, false_or, ne_eq, not_false_eq_true, and_true]
  have hna : a ∉ s.erase a := by simp
  rw [← weight_insert_of_notMem hna, hs]

end FormulaSet

namespace Formula

/-- The subformulae of a formula, itself included. -/
def subformulae : Formula → List Formula
  | top => [top]
  | bot => [bot]
  | atom p => [atom p]
  | natom p => [natom p]
  | and a b => and a b :: (a.subformulae ++ b.subformulae)
  | or a b => or a b :: (a.subformulae ++ b.subformulae)
  | next a => next a :: a.subformulae
  | .until a b => .until a b :: (a.subformulae ++ b.subformulae)
  | release a b => release a b :: (a.subformulae ++ b.subformulae)

theorem length_subformulae (a : Formula) : a.subformulae.length = a.size := by
  induction a <;> simp_all [subformulae, size]

@[simp]
theorem mem_subformulae_self (a : Formula) : a ∈ a.subformulae := by
  cases a <;> simp [subformulae]

theorem mem_subformulae_trans {a b c : Formula} (hab : b ∈ a.subformulae)
    (hbc : c ∈ b.subformulae) : c ∈ a.subformulae := by
  induction a with
  | top | bot | atom | natom =>
    rw [subformulae, mem_singleton] at hab
    rwa [hab] at hbc
  | next a ih =>
    rw [subformulae, mem_cons] at hab
    rcases hab with rfl | hab
    · exact hbc
    · exact mem_cons_of_mem _ (ih hab)
  | and a b iha ihb | or a b iha ihb | «until» a b iha ihb | release a b iha ihb =>
    rw [subformulae, mem_cons, mem_append] at hab
    rcases hab with rfl | hab | hab
    · exact hbc
    · exact mem_cons_of_mem _ (mem_append_left _ (iha hab))
    · exact mem_cons_of_mem _ (mem_append_right _ (ihb hab))

theorem mem_subformulae_of_release {a b c : Formula} (h : release b c ∈ a.subformulae) :
    b ∈ a.subformulae ∧ c ∈ a.subformulae := by
  constructor
  · exact mem_subformulae_trans h (by simp [subformulae])
  · exact mem_subformulae_trans h (by simp [subformulae])

theorem weight_pos {a : Formula} (h : a.isNext = false) : 0 < a.weight := by
  cases a with
  | next a => simp [isNext] at h
  | and a b | or a b | «until» a b | release a b =>
    simp only [weight]
    omega
  | top | bot | atom | natom => exact Nat.one_pos

end Formula

namespace FormulaSet

variable {holds : String → Bool} {rest s t : FormulaSet} {a f : Formula}

theorem mem_of_mem_rest (ht : t ∈ split holds rest f) (ha : a ∈ rest) : a ∈ t := by
  cases f <;> simp only [split] at ht <;> grind [SortedSet.mem_insert]

theorem mem_of_mem_split (ht : t ∈ split holds rest f) (ha : a ∈ t) :
    a ∈ rest ∨ a ∈ f.subformulae ∨ a = .next f := by
  cases f <;> simp only [split] at ht <;>
    grind [SortedSet.mem_insert, Formula.subformulae, Formula.mem_subformulae_self]

theorem weight_lt_of_mem_split (hf : f.isNext = false) (ht : t ∈ split holds rest f) :
    weight t < f.weight + weight rest := by
  have h1 (a : Formula) : weight (rest.insert a) ≤ a.weight + weight rest := weight_insert_le
  have h2 (a b : Formula) :
      weight ((rest.insert a).insert b) ≤ b.weight + (a.weight + weight rest) :=
    Nat.le_trans weight_insert_le (Nat.add_le_add_left weight_insert_le _)
  cases f with
  | next => simp [Formula.isNext] at hf
  | top => simp [split] at ht
  | bot =>
    rw [split, mem_singleton] at ht
    subst ht
    simp [Formula.weight]
  | atom p | natom p =>
    have : t = rest := by
      rw [split] at ht
      split at ht <;> simp_all
    subst this
    simp [Formula.weight]
  | and a b | or a b | «until» a b | release a b =>
    simp only [split, mem_cons, not_mem_nil, or_false] at ht
    have := h1 a
    have := h1 b
    have := h2 a b
    have := h2 a (.next (.release a b))
    have := h2 b (.next (.until a b))
    simp only [Formula.weight] at *
    rcases ht with rfl | rfl <;> omega

variable {w : Word} {i : Nat}

/-- A formula that is postponed: an until whose second argument does not hold yet, or a release. -/
def IsPostponed (w : Word) (i : Nat) : Formula → Prop
  | .until _ b => ¬ b.Holds w i
  | .release _ _ => True
  | _ => False

/-- A formula that holds hands its truth to each set that a rule makes: to a smaller formula, or to
itself at the next position. -/
theorem exists_of_mem_split (hf : f.isNext = false) (hi : f.Holds w i)
    (ht : t ∈ split (w i) rest f) :
    ∃ g ∈ t, g.Holds w i ∧ (g.size < f.size ∨ g = .next f ∧ IsPostponed w i f) := by
  cases f with
  | next => simp [Formula.isNext] at hf
  | top => simp [split] at ht
  | bot => exact hi.elim
  | atom p =>
    have hp : w i p = true := hi
    simp [split, hp] at ht
  | natom p =>
    have hp : w i p = false := hi
    simp [split, hp] at ht
  | and a b =>
    simp only [split, mem_cons, not_mem_nil, or_false] at ht
    rcases ht with rfl | rfl
    · exact ⟨a, by simp, hi.1, .inl (by simp only [Formula.size]; omega)⟩
    · exact ⟨b, by simp, hi.2, .inl (by simp only [Formula.size]; omega)⟩
  | or a b =>
    simp only [split, mem_singleton] at ht
    subst ht
    rcases hi with ha | hb
    · exact ⟨a, by simp, ha, .inl (by simp only [Formula.size]; omega)⟩
    · exact ⟨b, by simp, hb, .inl (by simp only [Formula.size]; omega)⟩
  | «until» a b =>
    simp only [split, mem_cons, not_mem_nil, or_false] at ht
    by_cases hb : b.Holds w i
    · refine ⟨b, ?_, hb, .inl (by simp only [Formula.size]; omega)⟩
      rcases ht with rfl | rfl <;> simp
    · obtain ⟨ha, hlater⟩ := (Formula.holds_until_iff.1 hi).resolve_left hb
      rcases ht with rfl | rfl
      · exact ⟨a, by simp, ha, .inl (by simp only [Formula.size]; omega)⟩
      · exact ⟨.next (.until a b), by simp, hlater, .inr ⟨rfl, hb⟩⟩
  | release a b =>
    simp only [split, mem_cons, not_mem_nil, or_false] at ht
    obtain ⟨hb, ha⟩ := Formula.holds_release_iff.1 hi
    rcases ht with rfl | rfl
    · exact ⟨b, by simp, hb, .inl (by simp only [Formula.size]; omega)⟩
    · rcases ha with ha | hlater
      · exact ⟨a, by simp, ha, .inl (by simp only [Formula.size]; omega)⟩
      · exact ⟨.next (.release a b), by simp, hlater, .inr ⟨rfl, trivial⟩⟩

theorem not_holds_insert (ha : ¬ a.Holds w i) (hs : ¬ s.Holds w i) :
    ¬ Holds w (s.insert a) i := by
  rintro ⟨b, hb, hbi⟩
  rcases SortedSet.mem_insert.1 hb with rfl | hb
  · exact ha hbi
  · exact hs ⟨b, hb, hbi⟩

/-- If a set fails, one of the sets that a rule makes fails. For a release the first of them, with
the second argument, is taken as soon as that argument fails. -/
theorem exists_not_holds_split (hf : f.isNext = false) (hi : ¬ f.Holds w i)
    (hr : ¬ rest.Holds w i) :
    ∃ t ∈ split (w i) rest f, ¬ t.Holds w i ∧
      ∀ a b, f = .release a b → b.Holds w i ∨ t = rest.insert b := by
  cases f with
  | next => simp [Formula.isNext] at hf
  | top => exact absurd trivial hi
  | bot => exact ⟨rest, by simp [split], hr, by simp⟩
  | atom p =>
    have hp : ¬ w i p = true := hi
    exact ⟨rest, by simp [split, hp], hr, by simp⟩
  | natom p =>
    have hp : w i p = true := by simpa using (show ¬ w i p = false from hi)
    exact ⟨rest, by simp [split, hp], hr, by simp⟩
  | and a b =>
    by_cases ha : a.Holds w i
    · have hb : ¬ b.Holds w i := fun hb => hi ⟨ha, hb⟩
      exact ⟨rest.insert b, by simp [split], not_holds_insert hb hr, by simp⟩
    · exact ⟨rest.insert a, by simp [split], not_holds_insert ha hr, by simp⟩
  | or a b =>
    have ha : ¬ a.Holds w i := fun ha => hi (.inl ha)
    have hb : ¬ b.Holds w i := fun hb => hi (.inr hb)
    exact ⟨(rest.insert a).insert b, by simp [split],
      not_holds_insert hb (not_holds_insert ha hr), by simp⟩
  | «until» a b =>
    rw [Formula.holds_until_iff, not_or] at hi
    obtain ⟨hb, hlater⟩ := hi
    by_cases ha : a.Holds w i
    · have hx : ¬ (Formula.next (.until a b)).Holds w i := fun hx => hlater ⟨ha, hx⟩
      exact ⟨(rest.insert b).insert (.next (.until a b)), by simp [split],
        not_holds_insert hx (not_holds_insert hb hr), by simp⟩
    · exact ⟨(rest.insert a).insert b, by simp [split],
        not_holds_insert hb (not_holds_insert ha hr), by simp⟩
  | release a b =>
    by_cases hb : b.Holds w i
    · rw [Formula.holds_release_iff, not_and, not_or] at hi
      obtain ⟨ha, hlater⟩ := hi hb
      have hx : ¬ (Formula.next (.release a b)).Holds w i := hlater
      refine ⟨(rest.insert a).insert (.next (.release a b)), by simp [split],
        not_holds_insert hx (not_holds_insert ha hr), ?_⟩
      rintro a' b' ⟨⟩
      exact .inl hb
    · refine ⟨rest.insert b, by simp [split], not_holds_insert hb hr, ?_⟩
      rintro a' b' ⟨⟩
      exact .inr rfl

/-- A way through the expansion of a set, with the sets that are met on it, the first one included,
and the set of next formulae in which it ends. -/
inductive Branch (holds : String → Bool) : FormulaSet → List FormulaSet → FormulaSet → Prop
  | leaf {s : FormulaSet} (h : s.toList.find? (!·.isNext) = none) : Branch holds s [s] s
  | split {s t leaf : FormulaSet} {trail : List FormulaSet} {f : Formula}
      (hf : s.toList.find? (!·.isNext) = some f) (ht : t ∈ split holds (s.erase f) f)
      (h : Branch holds t trail leaf) : Branch holds s (s :: trail) leaf

theorem mem_of_find_isNext (h : s.toList.find? (!·.isNext) = some f) :
    f ∈ s ∧ f.isNext = false := by
  refine ⟨mem_of_find?_eq_some h, ?_⟩
  simpa using find?_some h

theorem isNext_of_find_isNext (h : s.toList.find? (!·.isNext) = none) (ha : a ∈ s) :
    a.isNext = true := by
  simpa using find?_eq_none.1 h a ha

theorem mem_bodies {s : FormulaSet} {a : Formula} : a ∈ s.bodies ↔ .next a ∈ s := by
  rw [bodies, SortedSet.mem_ofList, mem_filterMap]
  constructor
  · rintro ⟨b, hb, hba⟩
    cases b <;> simp only [Formula.body?, Option.some.injEq, reduceCtorEq] at hba
    exact hba ▸ hb
  · exact fun h => ⟨.next a, h, rfl⟩

theorem weight_lt_of_branch_split (hf : s.toList.find? (!·.isNext) = some f)
    (ht : t ∈ split holds (s.erase f) f) : weight t < weight s := by
  obtain ⟨hmem, hnext⟩ := mem_of_find_isNext hf
  rw [← weight_erase hmem]
  exact weight_lt_of_mem_split hnext ht

theorem weight_pos_of_find_isNext (hf : s.toList.find? (!·.isNext) = some f) : 0 < weight s := by
  obtain ⟨hmem, hnext⟩ := mem_of_find_isNext hf
  have := Formula.weight_pos hnext
  have := weight_erase hmem
  omega

theorem find_isNext_eq_none (hs : weight s ≤ 0) : s.toList.find? (!·.isNext) = none := by
  cases hf : s.toList.find? (!·.isNext) with
  | none => rfl
  | some f => exact absurd (weight_pos_of_find_isNext hf) (Nat.not_lt.2 hs)

theorem mem_leavesIn_iff {l : FormulaSet} {steps : Nat} (hs : weight s ≤ steps) :
    l ∈ leavesIn holds steps s ↔ ∃ trail, Branch holds s trail l := by
  induction steps generalizing s with
  | zero =>
    have hnone := find_isNext_eq_none hs
    rw [leavesIn, mem_singleton]
    constructor
    · rintro rfl
      exact ⟨_, .leaf hnone⟩
    · rintro ⟨trail, h⟩
      cases h with
      | leaf => rfl
      | split hf => simp [hnone] at hf
  | succ steps ih =>
    cases hf : s.toList.find? (!·.isNext) with
    | none =>
      simp only [leavesIn, hf, mem_singleton]
      constructor
      · rintro rfl
        exact ⟨_, .leaf hf⟩
      · rintro ⟨trail, h⟩
        cases h with
        | leaf => rfl
        | split hf' => simp [hf] at hf'
    | some f =>
      have hle {t : FormulaSet} (ht : t ∈ split holds (s.erase f) f) : weight t ≤ steps := by
        have := weight_lt_of_branch_split hf ht
        omega
      simp only [leavesIn, hf, mem_flatMap]
      constructor
      · rintro ⟨t, ht, hl⟩
        obtain ⟨trail, h⟩ := (ih (hle ht)).1 hl
        exact ⟨_, .split hf ht h⟩
      · rintro ⟨trail, h⟩
        cases h with
        | leaf hf' => simp [hf] at hf'
        | split hf' ht h =>
          obtain rfl : f = _ := Option.some.inj (hf.symm.trans hf')
          exact ⟨_, ht, (ih (hle ht)).2 ⟨_, h⟩⟩

theorem mem_leaves_iff {l : FormulaSet} :
    l ∈ leaves holds s ↔ ∃ trail, Branch holds s trail l :=
  mem_leavesIn_iff (Nat.le_refl _)

namespace Branch

variable {trail : List FormulaSet} {leaf : FormulaSet}

section

variable (h : Branch holds s trail leaf)
include h

theorem head_mem : s ∈ trail := by
  cases h <;> exact mem_cons_self

theorem leaf_mem : leaf ∈ trail := by
  induction h with
  | leaf => exact mem_cons_self
  | split _ _ _ ih => exact mem_cons_of_mem _ ih

theorem exists_suffix {u : FormulaSet} (hu : u ∈ trail) :
    ∃ rest, Branch holds u rest leaf ∧ rest ⊆ trail := by
  induction h with
  | leaf h =>
    rw [mem_singleton] at hu
    subst hu
    exact ⟨_, .leaf h, List.Subset.refl _⟩
  | split hf ht h ih =>
    rcases mem_cons.1 hu with rfl | hu
    · exact ⟨_, .split hf ht h, List.Subset.refl _⟩
    · obtain ⟨rest, hrest, hsub⟩ := ih hu
      exact ⟨rest, hrest, subset_cons_of_subset _ hsub⟩

theorem next_mem (ha : .next a ∈ s) : .next a ∈ leaf := by
  induction h with
  | leaf => exact ha
  | @split s t leaf trail f hf ht h ih =>
    have hne : Formula.next a ≠ f := by
      rintro rfl
      simpa [Formula.isNext] using (mem_of_find_isNext hf).2
    exact ih (mem_of_mem_rest ht (SortedSet.mem_erase.2 ⟨ha, hne⟩))

/-- What is left at the end of a branch are subformulae of the beginning, or such subformulae
postponed. -/
theorem next_mem_subformulae (ha : .next a ∈ leaf) : ∃ e ∈ s, a ∈ e.subformulae := by
  -- only formulae that are not next formulae themselves are postponed
  suffices ∀ g ∈ leaf, ∃ e ∈ s, g ∈ e.subformulae ∨
      ∃ b ∈ e.subformulae, b.isNext = false ∧ g = .next b by
    obtain ⟨e, he, hsub | ⟨b, hb, -, hab⟩⟩ := this _ ha
    · exact ⟨e, he, Formula.mem_subformulae_trans hsub (by simp [Formula.subformulae])⟩
    · cases hab
      exact ⟨e, he, hb⟩
  induction h with
  | leaf => exact fun g hg => ⟨g, hg, .inl (by simp)⟩
  | @split s t leaf trail f hf ht h ih =>
    obtain ⟨hmem, hnext⟩ := mem_of_find_isNext hf
    intro g hg
    obtain ⟨e, he, hge⟩ := ih ha g hg
    rcases mem_of_mem_split ht he with hrest | hsub | rfl
    · exact ⟨e, (SortedSet.mem_erase.1 hrest).1, hge⟩
    · refine ⟨f, hmem, hge.imp (Formula.mem_subformulae_trans hsub) ?_⟩
      rintro ⟨b, hb, hbn, rfl⟩
      exact ⟨b, Formula.mem_subformulae_trans hsub hb, hbn, rfl⟩
    · refine ⟨f, hmem, ?_⟩
      rcases hge with hge | ⟨b, hb, hbn, rfl⟩
      · rcases mem_cons.1 hge with rfl | hge
        · exact .inr ⟨f, by simp, hnext, rfl⟩
        · exact .inl hge
      · rcases mem_cons.1 hb with rfl | hb
        · simp [Formula.isNext] at hbn
        · exact .inr ⟨b, hb, hbn, rfl⟩

end

/-- A formula that holds hands its truth down a branch: some body at the end of the branch holds at
the next position, and it is smaller than the formula or the formula itself, postponed. -/
theorem exists_of_holds (h : Branch (w i) s trail leaf) (ha : a ∈ s) (hi : a.Holds w i) :
    ∃ g ∈ leaf.bodies, g.Holds w (i + 1) ∧ (g.size < a.size ∨ g = a ∧ IsPostponed w i a) := by
  induction h generalizing a with
  | leaf h =>
    cases a with
    | next g => exact ⟨g, mem_bodies.2 ha, hi, .inl (Nat.lt_succ_self _)⟩
    | _ => simpa [Formula.isNext] using isNext_of_find_isNext h ha
  | @split s t leaf trail f hf ht h ih =>
    obtain ⟨hmem, hnext⟩ := mem_of_find_isNext hf
    by_cases haf : a = f
    · subst haf
      obtain ⟨g, hg, hgi, hsize | ⟨rfl, hpost⟩⟩ := exists_of_mem_split hnext hi ht
      · obtain ⟨g', hg', hgi', hsize'⟩ := ih hg hgi
        refine ⟨g', hg', hgi', .inl ?_⟩
        rcases hsize' with hsize' | ⟨rfl, -⟩ <;> omega
      · exact ⟨a, mem_bodies.2 (h.next_mem hg), hgi, .inr ⟨rfl, hpost⟩⟩
    · exact ih (mem_of_mem_rest ht (SortedSet.mem_erase.2 ⟨ha, haf⟩)) hi

end Branch

/-- A branch on which every formula fails. A release whose second argument fails has it taken up on
the branch, and a release is postponed only while its second argument holds. -/
structure IsRefuting (w : Word) (i : Nat) (s : FormulaSet) (trail : List FormulaSet)
    (leaf : FormulaSet) : Prop where
  branch : Branch (w i) s trail leaf
  not_holds : ∀ u ∈ trail, ¬ u.Holds w i
  /-- The second argument of a release is met if it fails. -/
  taken : ∀ a b, .release a b ∈ s → ¬ b.Holds w i → ∃ u ∈ trail, b ∈ u
  /-- A release at the next position was postponed, or asked for by a next formula. -/
  postponed : ∀ a b, .next (.release a b) ∈ leaf →
    b.Holds w i ∨ ∃ e ∈ s, .next (.release a b) ∈ e.subformulae

theorem exists_isRefuting (hs : ¬ s.Holds w i) : ∃ trail leaf, IsRefuting w i s trail leaf := by
  induction hn : weight s using Nat.strongRecOn generalizing s with
  | ind n ih =>
    cases hf : s.toList.find? (!·.isNext) with
    | none =>
      refine ⟨[s], s, .leaf hf, by simpa using hs, fun a b hab _ => ?_, fun a b hab => ?_⟩
      · simpa [Formula.isNext] using isNext_of_find_isNext hf hab
      · exact .inr ⟨_, hab, by simp⟩
    | some f =>
      obtain ⟨hmem, hnext⟩ := mem_of_find_isNext hf
      have hrest : ¬ Holds w (s.erase f) i := fun ⟨a, ha, hai⟩ =>
        hs ⟨a, (SortedSet.mem_erase.1 ha).1, hai⟩
      obtain ⟨t, ht, hti, hrel⟩ := exists_not_holds_split hnext (fun h => hs ⟨f, hmem, h⟩) hrest
      obtain ⟨trail, leaf, h⟩ := ih _ (hn ▸ weight_lt_of_branch_split hf ht) hti rfl
      refine ⟨s :: trail, leaf, .split hf ht h.branch, ?_, fun a b hab hb => ?_, fun a b hab => ?_⟩
      · exact forall_mem_cons.2 ⟨hs, h.not_holds⟩
      · by_cases hfe : f = .release a b
        · have htb : t = SortedSet.insert _ b := (hrel a b hfe).resolve_left hb
          exact ⟨t, mem_cons_of_mem _ h.branch.head_mem, by simp [htb]⟩
        · have hab' : .release a b ∈ s.erase f := SortedSet.mem_erase.2 ⟨hab, Ne.symm hfe⟩
          obtain ⟨u, hu, hbu⟩ := h.taken a b (mem_of_mem_rest ht hab') hb
          exact ⟨u, mem_cons_of_mem _ hu, hbu⟩
      · refine or_iff_not_imp_left.2 fun hb => ?_
        obtain ⟨e, he, hsub⟩ := (h.postponed a b hab).resolve_left hb
        rcases mem_of_mem_split ht he with her | hef | rfl
        · exact ⟨e, (SortedSet.mem_erase.1 her).1, hsub⟩
        · exact ⟨f, hmem, Formula.mem_subformulae_trans hef hsub⟩
        · rcases mem_cons.1 hsub with heq | hsub
          · -- the release was not postponed here, so its next formula was there before
            cases heq
            have htb : t = SortedSet.insert _ b := (hrel a b rfl).resolve_left hb
            rw [htb, SortedSet.mem_insert] at he
            rcases he with he | he
            · exact ⟨.release a b, hmem, by simp [Formula.subformulae, he]⟩
            · exact ⟨_, (SortedSet.mem_erase.1 he).1, by simp⟩
          · exact ⟨f, hmem, hsub⟩

end FormulaSet

end ShapeCheck
