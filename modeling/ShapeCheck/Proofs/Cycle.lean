import ShapeCheck.Tableau.Verdict
import Mathlib.Data.Finset.Lattice.Fold
import Mathlib.Data.List.Chain
import Mathlib.Logic.Relation
import Mathlib.Tactic.Common

/-!
# Sequences that end in a cycle

A counterexample is a list of states that are passed once and a list of states that repeat forever.
This file unrolls two such lists to an infinite sequence, and gives the two facts by which finite
graphs and infinite sequences are compared: elements that can all be reached from each other lie on
one common cycle, and a sequence with finitely many values takes, from some position on, only values
that it takes again and again.
-/

namespace ShapeCheck

open List

section Unroll

variable {α β : Type} [Inhabited α] [Inhabited β] {stem rest : List α} {x : α}

/-- A list followed by another one that is repeated forever. -/
def unroll (stem cycle : List α) (i : Nat) : α :=
  if i < stem.length then stem[i]?.getD default
  else cycle[(i - stem.length) % cycle.length]?.getD default

/-- From the cycle on, only the position in the cycle matters. -/
theorem unroll_eq_of_mod_eq {cycle : List α} {i j : Nat} (hi : stem.length ≤ i)
    (hj : stem.length ≤ j)
    (h : (i - stem.length) % cycle.length = (j - stem.length) % cycle.length) :
    unroll stem cycle i = unroll stem cycle j := by
  rw [unroll, unroll, if_neg (by omega), if_neg (by omega), h]

theorem getElem?_eq_unroll {i : Nat} (hi : i ≤ stem.length + (x :: rest).length) :
    (stem ++ x :: rest ++ [x])[i]? = some (unroll stem (x :: rest) i) := by
  rw [unroll, append_assoc]
  split_ifs with hlt
  · rw [getElem?_append_left hlt]
    simp [hlt]
  · rw [getElem?_append_right (by omega)]
    rcases Nat.lt_or_eq_of_le hi with hi | rfl
    · have hlen : i - stem.length < (x :: rest).length := by omega
      rw [getElem?_append_left hlen, Nat.mod_eq_of_lt hlen]
      simp [getElem?_eq_getElem hlen]
    · rw [getElem?_append_right (by omega)]
      simp

private theorem exists_getElem?_eq_unroll (i : Nat) :
    ∃ j, (stem ++ x :: rest ++ [x])[j]? = some (unroll stem (x :: rest) i) ∧
      (stem ++ x :: rest ++ [x])[j + 1]? = some (unroll stem (x :: rest) (i + 1)) := by
  by_cases hi : i < stem.length
  · exact ⟨i, getElem?_eq_unroll (by omega), getElem?_eq_unroll (by omega)⟩
  · let m := (x :: rest).length
    have hm : (i - stem.length) % m < m := Nat.mod_lt _ (by simp [m])
    refine ⟨stem.length + (i - stem.length) % m, ?_, ?_⟩
    · rw [getElem?_eq_unroll (by omega)]
      refine congrArg some (unroll_eq_of_mod_eq (by omega) (by omega) ?_)
      rw [Nat.add_sub_cancel_left, Nat.mod_mod]
    · rw [getElem?_eq_unroll (by omega)]
      refine congrArg some (unroll_eq_of_mod_eq (by omega) (by omega) ?_)
      rw [Nat.add_assoc, Nat.add_sub_cancel_left, Nat.mod_add_mod]
      congr 1
      omega

theorem rel_unroll_succ {R : α → α → Prop} (h : List.IsChain R (stem ++ x :: rest ++ [x]))
    (i : Nat) : R (unroll stem (x :: rest) i) (unroll stem (x :: rest) (i + 1)) := by
  obtain ⟨j, hj, hj'⟩ := @exists_getElem?_eq_unroll _ _ stem rest x i
  obtain ⟨hlt, hj⟩ := List.getElem?_eq_some_iff.1 hj
  obtain ⟨hlt', hj'⟩ := List.getElem?_eq_some_iff.1 hj'
  rw [← hj, ← hj']
  exact isChain_iff_getElem.1 h j hlt'

theorem unroll_add {cycle : List α} {i k : Nat} (hi : stem.length ≤ i) (hk : cycle.length ∣ k) :
    unroll stem cycle (i + k) = unroll stem cycle i := by
  obtain ⟨q, rfl⟩ := hk
  refine unroll_eq_of_mod_eq (by omega) hi ?_
  rw [Nat.sub_add_comm hi, Nat.add_mul_mod_self_left]

theorem unroll_zero_eq_head : some (unroll stem (x :: rest) 0) = (stem ++ [x]).head? := by
  rw [← getElem?_eq_unroll (Nat.zero_le _), ← head?_eq_getElem?]
  cases stem <;> rfl

theorem unroll_mem {i : Nat} (hi : stem.length ≤ i) : unroll stem (x :: rest) i ∈ x :: rest := by
  have hlt : (i - stem.length) % (x :: rest).length < (x :: rest).length :=
    Nat.mod_lt _ (by simp)
  rw [unroll, if_neg (by omega), getElem?_eq_getElem hlt]
  exact getElem_mem hlt

theorem exists_unroll_eq {y : α} (hy : y ∈ x :: rest) (n : Nat) :
    ∃ i, n ≤ i ∧ stem.length ≤ i ∧ unroll stem (x :: rest) i = y := by
  obtain ⟨k, hk, rfl⟩ := getElem_of_mem hy
  refine ⟨stem.length + (k + (x :: rest).length * n), ?_, by omega, ?_⟩
  · have : n ≤ (x :: rest).length * n := Nat.le_mul_of_pos_left n (by simp)
    omega
  · rw [unroll, if_neg (by omega), Nat.add_sub_cancel_left, Nat.add_mul_mod_self_left,
      Nat.mod_eq_of_lt hk, getElem?_eq_getElem hk]
    rfl

theorem map_unroll (f : α → β) (i : Nat) :
    f (unroll stem (x :: rest) i) = unroll (stem.map f) ((x :: rest).map f) i := by
  have hlt : (i - stem.length) % (x :: rest).length < (x :: rest).length :=
    Nat.mod_lt _ (by simp)
  rw [unroll, unroll, length_map, length_map]
  split_ifs with hi
  · simp [hi]
  · rw [getElem?_map, getElem?_eq_getElem hlt]
    rfl

theorem unroll_map_range (f : Nat → α) {n k : Nat} (hk : 0 < k) (i : Nat) :
    unroll ((List.range n).map f) ((List.range' n k).map f) i =
      f (if i < n then i else n + (i - n) % k) := by
  rw [unroll, length_map, length_map, length_range, length_range']
  split_ifs with hi
  · simp [hi]
  · rw [getElem?_map, getElem?_range' (Nat.mod_lt _ hk)]
    simp

end Unroll

theorem eq_of_periodic {α : Type} {f : Nat → α} {n k : Nat}
    (h : ∀ i, n ≤ i → f (i + k) = f i) {i : Nat} (hi : n ≤ i) : f (n + (i - n) % k) = f i := by
  have hrounds (q : Nat) : f (n + (i - n) % k + k * q) = f (n + (i - n) % k) := by
    induction q with
    | zero => rfl
    | succ q ih => rw [Nat.mul_succ, ← Nat.add_assoc, h _ (by omega), ih]
  rw [← hrounds ((i - n) / k), Nat.add_assoc, Nat.mod_add_div, Nat.add_sub_cancel' hi]

/-- The infinite path of a counterexample with a cycle. -/
def Counterexample.path (c : Counterexample) : Nat → StateId :=
  unroll c.stem c.cycle

section Tour

open Relation

variable {α : Type} {R : α → α → Prop} {x y : α}

theorem exists_isChain_of_transGen (h : TransGen R x y) : ∃ l, List.IsChain R (x :: l ++ [y]) := by
  induction h with
  | single h => exact ⟨[], by simpa using h⟩
  | @tail y z _ h ih =>
    obtain ⟨l, hl⟩ := ih
    have hyz : List.IsChain R [y, z] := by simpa using h
    exact ⟨l ++ [y], by simpa using isChain_split.2 ⟨hl, hyz⟩⟩

/-- Elements that can all be reached from each other lie on a common cycle. -/
theorem exists_tour {l : List α} (h : ∀ y ∈ x :: l, ∀ z ∈ x :: l, TransGen R y z) :
    ∃ c, List.IsChain R (x :: c ++ [x]) ∧ ∀ y ∈ l, y ∈ c := by
  induction l with
  | nil =>
    obtain ⟨c, hc⟩ := exists_isChain_of_transGen (h x (by simp) x (by simp))
    exact ⟨c, hc, by simp⟩
  | cons y l ih =>
    obtain ⟨c, hc, hl⟩ := ih fun z hz z' hz' => h z (by simp_all; tauto) z' (by simp_all; tauto)
    obtain ⟨c₁, hc₁⟩ := exists_isChain_of_transGen (h x (by simp) y (by simp))
    obtain ⟨c₂, hc₂⟩ := exists_isChain_of_transGen (h y (by simp) x (by simp))
    -- the old cycle, then a detour over the new element
    refine ⟨c ++ x :: (c₁ ++ y :: c₂), ?_, ?_⟩
    · have hdetour : List.IsChain R (x :: c₁ ++ y :: (c₂ ++ [x])) :=
        isChain_split.2 ⟨hc₁, hc₂⟩
      have := isChain_split.2 ⟨hc, hdetour⟩
      simpa using this
    · intro z hz
      rcases mem_cons.1 hz with rfl | hz
      · simp
      · simp [hl z hz]

end Tour

/-- A sequence with finitely many values takes, from some position on, only values that it takes
again and again. -/
theorem exists_recurrent {α : Type} {f : Nat → α} {s : Finset α} (h : ∀ i, f i ∈ s) :
    ∃ N, ∀ i, N ≤ i → ∀ m, ∃ j, m ≤ j ∧ f j = f i := by
  have hlast (v : α) : ∃ b, (∀ m, ∃ j, m ≤ j ∧ f j = v) ∨ ∀ j, b ≤ j → f j ≠ v := by
    by_cases hv : ∀ m, ∃ j, m ≤ j ∧ f j = v
    · exact ⟨0, .inl hv⟩
    · push Not at hv
      obtain ⟨m, hm⟩ := hv
      exact ⟨m, .inr hm⟩
  choose b hb using hlast
  refine ⟨s.sup b, fun i hi => (hb (f i)).resolve_right fun hnever => ?_⟩
  have hle : b (f i) ≤ s.sup b := Finset.le_sup (h i)
  exact hnever i (hle.trans hi) rfl

end ShapeCheck
