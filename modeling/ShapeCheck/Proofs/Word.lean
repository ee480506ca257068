import ShapeCheck.Tableau.Check

/-!
# Formulae on infinite words

The meaning of temporal formulae. A word gives the values of the atoms at every position; a formula
holds on a word from a position on. The words of interest are read off the infinite paths of a state
space, along the successors that the checker sees.
-/

namespace ShapeCheck

/-- The values of the atoms at every position. -/
abbrev Word := Nat → String → Bool

namespace Formula

/-- A formula holds on a word from a position on. -/
def Holds (w : Word) : Formula → Nat → Prop
  | top, _ => True
  | bot, _ => False
  | atom p, i => w i p = true
  | natom p, i => w i p = false
  | and a b, i => a.Holds w i ∧ b.Holds w i
  | or a b, i => a.Holds w i ∨ b.Holds w i
  | next a, i => a.Holds w (i + 1)
  | .until a b, i => ∃ k, i ≤ k ∧ b.Holds w k ∧ ∀ j, i ≤ j → j < k → a.Holds w j
  | release a b, i => ∀ k, i ≤ k → b.Holds w k ∨ ∃ j, i ≤ j ∧ j < k ∧ a.Holds w j

variable {w : Word} {a b : Formula} {i : Nat}

/-- An until holds if its second argument does, or if the first one does and the until holds later.
-/
theorem holds_until_iff :
    (Formula.until a b).Holds w i ↔
      b.Holds w i ∨ a.Holds w i ∧ (Formula.until a b).Holds w (i + 1) := by
  simp only [Holds]
  constructor
  · rintro ⟨k, hik, hb, ha⟩
    rcases Nat.eq_or_lt_of_le hik with rfl | hlt
    · exact .inl hb
    · exact .inr ⟨ha i (Nat.le_refl i) hlt, k, hlt, hb, fun j hj => ha j (by omega)⟩
  · rintro (hb | ⟨ha, k, hik, hb, hall⟩)
    · exact ⟨i, Nat.le_refl i, hb, fun j hij hji => absurd hij (by omega)⟩
    · refine ⟨k, by omega, hb, fun j hij hjk => ?_⟩
      rcases Nat.eq_or_lt_of_le hij with rfl | hlt
      · exact ha
      · exact hall j hlt hjk

/-- A release holds if its second argument does and, unless the first one does, it holds later. -/
theorem holds_release_iff :
    (release a b).Holds w i ↔ b.Holds w i ∧ (a.Holds w i ∨ (release a b).Holds w (i + 1)) := by
  simp only [Holds]
  constructor
  · intro h
    refine ⟨?_, ?_⟩
    · rcases h i (Nat.le_refl i) with hb | ⟨j, hij, hji, -⟩
      · exact hb
      · omega
    · by_cases ha : a.Holds w i
      · exact .inl ha
      · refine .inr fun k hk => (h k (by omega)).imp_right ?_
        rintro ⟨j, hij, hjk, hj⟩
        rcases Nat.eq_or_lt_of_le hij with rfl | hlt
        · exact absurd hj ha
        · exact ⟨j, hlt, hjk, hj⟩
  · rintro ⟨hb, ha⟩ k hik
    rcases Nat.eq_or_lt_of_le hik with rfl | hlt
    · exact .inl hb
    · rcases ha with ha | hlater
      · exact .inr ⟨i, Nat.le_refl i, hlt, ha⟩
      · refine (hlater k hlt).imp_right ?_
        rintro ⟨j, hij, hjk, hj⟩
        exact ⟨j, by omega, hjk, hj⟩

theorem holds_release_of_forall (h : ∀ k, i ≤ k → b.Holds w k) : (release a b).Holds w i :=
  fun k hk => .inl (h k hk)

theorem not_holds_until_of_forall (h : ∀ k, i ≤ k → ¬ b.Holds w k) :
    ¬ (Formula.until a b).Holds w i := by
  rintro ⟨k, hk, hb, -⟩
  exact h k hk hb

theorem holds_shift_iff {k : Nat} :
    a.Holds (fun j => w (j + k)) i ↔ a.Holds w (i + k) := by
  induction a generalizing i with
  | top | bot | atom | natom => rfl
  | and a b iha ihb => exact and_congr iha ihb
  | or a b iha ihb => exact or_congr iha ihb
  | next a ih =>
    have : i + 1 + k = i + k + 1 := by omega
    exact (this ▸ ih : _ ↔ a.Holds w (i + k + 1))
  | «until» a b iha ihb =>
    simp only [Holds, iha, ihb]
    constructor
    · rintro ⟨m, him, hb, ha⟩
      refine ⟨m + k, by omega, hb, fun j hij hjm => ?_⟩
      have := ha (j - k) (by omega) (by omega)
      rwa [Nat.sub_add_cancel (by omega)] at this
    · rintro ⟨m, him, hb, ha⟩
      refine ⟨m - k, by omega, ?_, fun j hij hjm => ha (j + k) (by omega) (by omega)⟩
      rwa [Nat.sub_add_cancel (by omega)]
  | release a b iha ihb =>
    simp only [Holds, iha, ihb]
    constructor
    · intro h m him
      rcases h (m - k) (by omega) with hb | ⟨j, hij, hjm, ha⟩
      · exact .inl (by rwa [Nat.sub_add_cancel (by omega)] at hb)
      · exact .inr ⟨j + k, by omega, by omega, ha⟩
    · intro h m him
      refine (h (m + k) (by omega)).imp_right ?_
      rintro ⟨j, hij, hjm, ha⟩
      refine ⟨j - k, by omega, by omega, ?_⟩
      rwa [Nat.sub_add_cancel (by omega)]

end Formula

/-- Some formula of a set holds on a word from a position on. -/
def FormulaSet.Holds (w : Word) (s : FormulaSet) (i : Nat) : Prop :=
  ∃ a ∈ s, a.Holds w i

namespace StateSpace

variable {fp : State → Nat}

/-- An infinite path from an initial state. -/
structure IsPath (sp : StateSpace fp) (π : Nat → StateId) : Prop where
  /-- The path starts in an initial state. -/
  initial : π 0 ∈ sp.initial
  /-- Every state is followed by one of its successors. -/
  step : ∀ i, π (i + 1) ∈ sp.checkSuccessors (π i)

/-- The values of the atoms along a sequence of states. -/
def word (sp : StateSpace fp) (labels : Labelling) (π : Nat → StateId) : Word :=
  fun i => Tableau.valuation sp labels (π i)

/-- A formula holds on every infinite path from an initial state. -/
def Satisfies (sp : StateSpace fp) (labels : Labelling) (a : Formula) : Prop :=
  ∀ π, sp.IsPath π → a.Holds (sp.word labels π) 0

/-- A state that some initial state leads to. -/
inductive Reachable (sp : StateSpace fp) : StateId → Prop
  | initial {id : StateId} (h : id ∈ sp.initial) : Reachable sp id
  | step {id next : StateId} (h : Reachable sp id) (hn : next ∈ sp.checkSuccessors id) :
      Reachable sp next

/-- Every state that can be reached has a successor, so that every path goes on forever. -/
def IsTotal (sp : StateSpace fp) : Prop :=
  ∀ id, sp.Reachable id → sp.checkSuccessors id ≠ []

end StateSpace

end ShapeCheck
