import ShapeCheck.Proofs.Derivation
import Mathlib.Algebra.Order.BigOperators.Group.List
import Mathlib.Algebra.Group.Action.Defs
import Mathlib.Algebra.Order.Ring.Nat
import Mathlib.Logic.Function.Iterate

/-!
# Expanding with a work list

A set of formulae is taken apart with a stack of sets. Each round takes the topmost set. If it holds a
formula that is not a next formula, the formula is taken apart, which puts at most two sets back. If
only next formulae are left, their bodies are an obligation; but if nothing at all is left, the loop
fails at once. A formula may come back that was taken apart before, and sets that become equal are not
told apart; but the sets that are put back have less weight, since next formulae do not count.

The loop has no bound of its own. It stops from every set, with the result of `FormulaSet.expand`, and
this result is exact: the set holds on a word if and only if the loop does not fail and every
obligation holds on the word without its first letter.
-/

namespace ShapeCheck

open List

/-- The word without its first letter. -/
def Word.tail (w : Word) : Word :=
  fun i => w (i + 1)

namespace FormulaSet

variable {holds : String → Bool} {s t : FormulaSet} {a : Formula} {w : Word}

theorem leavesIn_congr {n m : Nat} (hn : s.weight ≤ n) (hm : s.weight ≤ m) :
    leavesIn holds n s = leavesIn holds m s := by
  induction n generalizing s m with
  | zero =>
    cases m with
    | zero => rfl
    | succ m => simp only [leavesIn, find_isNext_eq_none hn]
  | succ n ih =>
    cases hf : s.toList.find? (!·.isNext) with
    | none => cases m <;> simp only [leavesIn, hf]
    | some a =>
      have hpos := weight_pos_of_find_isNext hf
      obtain ⟨m, rfl⟩ : ∃ k, m = k + 1 := Nat.exists_eq_succ_of_ne_zero (by omega)
      simp only [leavesIn, hf]
      refine flatMap_congr fun t ht => ?_
      have hlt := weight_lt_of_branch_split hf ht
      exact ih (by omega) (by omega)

theorem leaves_of_find_eq_none (hf : s.toList.find? (!·.isNext) = none) : leaves holds s = [s] := by
  rw [leaves]
  cases weight s <;> simp only [leavesIn, hf]

theorem leaves_of_find_eq_some (hf : s.toList.find? (!·.isNext) = some a) :
    leaves holds s = (split holds (s.erase a) a).flatMap (leaves holds) := by
  obtain ⟨n, hn⟩ := Nat.exists_eq_succ_of_ne_zero (Nat.ne_of_gt (weight_pos_of_find_isNext hf))
  rw [leaves, hn]
  simp only [leavesIn, hf]
  refine flatMap_congr fun t ht => ?_
  have hlt := weight_lt_of_branch_split hf ht
  exact leavesIn_congr (by omega) (Nat.le_refl _)

theorem length_split_le : (split holds s a).length ≤ 2 := by
  cases a with
  | atom p | natom p =>
    rw [split]
    split <;> simp
  | _ => simp [split]

end FormulaSet

/-- The loop that takes formulae apart: the sets that are left, the next one first, and the obligations
found so far; or its outcome. -/
inductive Worklist where
  | running (stack : List FormulaSet) (found : SortedSet FormulaSet)
  | stopped (outcome : Expansion)

namespace Worklist

variable {holds : String → Bool} {L : Worklist} {s : FormulaSet} {stack : List FormulaSet}
  {found : SortedSet FormulaSet} {a : Formula}

/-- One round of the loop. -/
def step (holds : String → Bool) : Worklist → Worklist
  | running [] found => stopped (.obligations found.toList)
  | running (s :: stack) found =>
    match s.toList.find? (!·.isNext) with
    | none => if s.isEmpty then stopped .failed else running stack (found.insert s.bodies)
    | some a => running ((FormulaSet.split holds (s.erase a) a).reverse ++ stack) found
  | stopped outcome => stopped outcome

/-- The outcome of obligations that have been found and of leaves that are to come. -/
def conclude (found : SortedSet FormulaSet) (leaves : List FormulaSet) : Expansion :=
  if leaves.any (·.isEmpty) then .failed
  else .obligations (SortedSet.ofList (found.toList ++ leaves.map FormulaSet.bodies)).toList

/-- What the loop comes to. -/
def answer (holds : String → Bool) : Worklist → Expansion
  | running stack found => conclude found (stack.flatMap (FormulaSet.leaves holds))
  | stopped outcome => outcome

/-- A bound on the rounds that are left: a set is taken apart into at most two sets of less weight. -/
def rounds : Worklist → Nat
  | running stack _ => (stack.map fun s => 2 ^ (s.weight + 1) - 1).sum + 1
  | stopped _ => 0

theorem conclude_congr {l l' : List FormulaSet} (hmem : ∀ t, t ∈ l ↔ t ∈ l') :
    conclude found l = conclude found l' := by
  have hany : l.any (·.isEmpty) = l'.any (·.isEmpty) := by
    rw [Bool.eq_iff_iff, any_eq_true, any_eq_true]
    simp only [hmem]
  have hsets : SortedSet.ofList (found.toList ++ l.map FormulaSet.bodies) =
      SortedSet.ofList (found.toList ++ l'.map FormulaSet.bodies) := by
    ext t
    simp only [SortedSet.mem_ofList, mem_append, mem_map, hmem]
  rw [conclude, conclude, hany, hsets]

theorem conclude_cons {l : List FormulaSet} (hs : s.isEmpty = false) :
    conclude found (s :: l) = conclude (found.insert s.bodies) l := by
  have hsets : SortedSet.ofList (found.toList ++ (s :: l).map FormulaSet.bodies) =
      SortedSet.ofList ((found.insert s.bodies).toList ++ l.map FormulaSet.bodies) := by
    ext t
    simp only [SortedSet.mem_ofList, mem_append, ← SortedSet.mem_def, SortedSet.mem_insert,
      map_cons, mem_cons]
    tauto
  rw [conclude, conclude, hsets, any_cons, hs, Bool.false_or]

theorem answer_running_nil : (running [] found).answer holds = .obligations found.toList := by
  have hsets : SortedSet.ofList found.toList = found := by
    ext t
    rw [SortedSet.mem_ofList, SortedSet.mem_def]
  simp [answer, conclude, hsets]

theorem answer_single (s : FormulaSet) : (running [s] ∅).answer holds = s.expand holds := by
  simp [answer, conclude, FormulaSet.expand]

theorem answer_step : (L.step holds).answer holds = L.answer holds := by
  match L with
  | stopped outcome => rfl
  | running [] found => exact answer_running_nil.symm
  | running (s :: stack) found =>
    rw [step]
    cases hf : s.toList.find? (!·.isNext) with
    | none =>
      dsimp only
      rw [answer, flatMap_cons, FormulaSet.leaves_of_find_eq_none hf, singleton_append]
      split
      · next hempty => simp [answer, conclude, hempty]
      · next hempty => exact (conclude_cons (by simpa using hempty)).symm
    | some a =>
      refine conclude_congr fun t => ?_
      rw [flatMap_append, flatMap_cons, FormulaSet.leaves_of_find_eq_some hf]
      simp only [mem_append, mem_flatMap, mem_reverse]

theorem sum_split_lt (holds : String → Bool) (hf : s.toList.find? (!·.isNext) = some a) :
    ((FormulaSet.split holds (s.erase a) a).reverse.map fun t => 2 ^ (t.weight + 1) - 1).sum <
      2 ^ (s.weight + 1) - 1 := by
  have hle : ∀ k ∈ (FormulaSet.split holds (s.erase a) a).reverse.map
      (fun t => 2 ^ (t.weight + 1) - 1), k ≤ 2 ^ s.weight - 1 := by
    intro k hk
    obtain ⟨t, ht, rfl⟩ := mem_map.1 hk
    have hlt := FormulaSet.weight_lt_of_branch_split hf (mem_reverse.1 ht)
    exact Nat.sub_le_sub_right (Nat.pow_le_pow_right (by decide) hlt) 1
  have hsum := sum_le_card_nsmul _ _ hle
  rw [length_map, length_reverse, smul_eq_mul] at hsum
  have hlength : (FormulaSet.split holds (s.erase a) a).length ≤ 2 := FormulaSet.length_split_le
  have htwo := Nat.mul_le_mul_right (2 ^ s.weight - 1) hlength
  have hpos : 0 < 2 ^ s.weight := Nat.pow_pos (by decide)
  rw [Nat.pow_succ]
  omega

theorem rounds_step_lt : ((running stack found).step holds).rounds < (running stack found).rounds := by
  cases stack with
  | nil => exact Nat.succ_pos _
  | cons s stack =>
    have hpos : 0 < 2 ^ s.weight := Nat.pow_pos (by decide)
    rw [step]
    cases hf : s.toList.find? (!·.isNext) with
    | none =>
      dsimp only
      split
      · exact Nat.succ_pos _
      · rw [rounds, rounds, map_cons, sum_cons, Nat.pow_succ]
        omega
    | some a =>
      have hlt := sum_split_lt holds hf
      dsimp only
      rw [rounds, rounds, map_append, sum_append, map_cons, sum_cons]
      omega

theorem iterate_step_eq {n : Nat} (hn : L.rounds ≤ n) :
    (step holds)^[n] L = stopped (L.answer holds) := by
  induction n generalizing L with
  | zero =>
    cases L with
    | running stack found => exact absurd hn (Nat.not_succ_le_zero _)
    | stopped outcome => rfl
  | succ n ih =>
    have hnext : (L.step holds).rounds ≤ n := by
      cases L with
      | running stack found => exact Nat.le_of_lt_succ (Nat.lt_of_lt_of_le rounds_step_lt hn)
      | stopped outcome => exact Nat.zero_le n
    rw [Function.iterate_succ_apply, ih hnext, answer_step]

theorem iterate_step_single (s : FormulaSet) :
    (step holds)^[2 ^ (s.weight + 1)] (running [s] ∅) = stopped (s.expand holds) := by
  have hpos : 0 < 2 ^ (s.weight + 1) := Nat.pow_pos (by decide)
  have hrounds : (running [s] ∅).rounds ≤ 2 ^ (s.weight + 1) := by
    rw [rounds, map_singleton, sum_singleton]
    omega
  rw [iterate_step_eq hrounds, answer_single]

end Worklist

namespace FormulaSet

variable {holds : String → Bool} {s : FormulaSet} {w : Word}

theorem holds_tail_iff : s.Holds w.tail 0 ↔ s.Holds w 1 :=
  exists_congr fun _ => and_congr_right fun _ => Formula.holds_shift_iff

/-- Only next formulae are left in a leaf, so it holds if its bodies hold one position later. -/
theorem holds_of_bodies {i : Nat} (hs : s.bodies.Holds w (i + 1)) : s.Holds w i := by
  obtain ⟨a, ha, hai⟩ := hs
  exact ⟨.next a, mem_bodies.1 ha, hai⟩

theorem holds_iff_forall_leaves {i : Nat} :
    s.Holds w i ↔ ∀ l ∈ leaves (w i) s, l.bodies.Holds w (i + 1) := by
  constructor
  · rintro ⟨a, ha, hai⟩ l hl
    obtain ⟨trail, hbranch⟩ := mem_leaves_iff.1 hl
    obtain ⟨b, hb, hbi, -⟩ := hbranch.exists_of_holds ha hai
    exact ⟨b, hb, hbi⟩
  · intro hall
    by_contra hs
    obtain ⟨trail, l, hrefuting⟩ := exists_isRefuting hs
    refine hrefuting.not_holds l hrefuting.branch.leaf_mem (holds_of_bodies ?_)
    exact hall l (mem_leaves_iff.2 ⟨trail, hrefuting.branch⟩)

/-- Taking a set of formulae apart stops, with an exact result: on a word that begins with the given
values of the atoms, some formula of the set holds if and only if the result is not a failure and some
formula of each obligation holds on the rest of the word. -/
theorem expand_exact (holds : String → Bool) (s : FormulaSet) :
    (Worklist.step holds)^[2 ^ (s.weight + 1)] (.running [s] ∅) = .stopped (s.expand holds) ∧
      ∀ w : Word, w 0 = holds →
        (s.Holds w 0 ↔
          ∃ sets, s.expand holds = .obligations sets ∧ ∀ t ∈ sets, t.Holds w.tail 0) := by
  refine ⟨Worklist.iterate_step_single s, ?_⟩
  rintro w rfl
  rw [holds_iff_forall_leaves]
  constructor
  · intro hall
    cases hsets : s.expand (w 0) with
    | failed =>
      obtain ⟨a, ha, -⟩ := hall ∅ (expand_eq_failed_iff.1 hsets)
      exact absurd (mem_bodies.1 ha) SortedSet.not_mem_empty
    | obligations sets =>
      refine ⟨sets, rfl, fun t ht => ?_⟩
      obtain ⟨l, hl, rfl⟩ := (mem_obligations_iff hsets).1 ht
      exact holds_tail_iff.2 (hall l hl)
  · rintro ⟨sets, hsets, hall⟩ l hl
    exact holds_tail_iff.1 (hall _ ((mem_obligations_iff hsets).2 ⟨l, hl, rfl⟩))

/-- `p` is true at the first two positions, and `q` at the third one only. -/
def awaited : Word :=
  fun i a => a = "p" && i < 2 || a = "q" && i = 2

/-- `q` is awaited, from now on or from the next position on; or it holds and is awaited forever. -/
def awaiting : FormulaSet :=
  .ofList [.or (.until (.atom "p") (.atom "q")) (.next (.until (.atom "p") (.atom "q"))),
    .release .bot (.and (.atom "q") (.until (.atom "p") (.atom "q")))]

theorem expand_exact_awaiting : awaited 0 "p" = true ∧ awaited 0 "q" = false ∧
    awaiting.expand (awaited 0) = .obligations [.ofList [.until (.atom "p") (.atom "q")],
      .ofList [.until (.atom "p") (.atom "q"),
        .release .bot (.and (.atom "q") (.until (.atom "p") (.atom "q")))]] ∧
    (Worklist.step (awaited 0))^[2 ^ (awaiting.weight + 1)] (.running [awaiting] ∅) =
      .stopped (awaiting.expand (awaited 0)) ∧
    (awaiting.Holds awaited 0 ↔ ∃ sets, awaiting.expand (awaited 0) = .obligations sets ∧
      ∀ t ∈ sets, t.Holds awaited.tail 0) := by
  obtain ⟨hstops, hexact⟩ := expand_exact (awaited 0) awaiting
  exact ⟨by decide, by decide, by decide +kernel, hstops, hexact awaited rfl⟩

end FormulaSet

end ShapeCheck
