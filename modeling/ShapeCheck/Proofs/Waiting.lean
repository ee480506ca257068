import ShapeCheck.Search
import ShapeCheck.Proofs.Derivation

/-!
# Sequents that wait at states

A search on the fly opens sequents at their states and lets these states wait on its stack. An initial
state that is new opens a root. When a state is expanded, the sequents that are open at it are expanded
one after the other: each opens its new children at their states, until one of them fails. So what a
search keeps follows from what it keeps when one sequent opens its children.
-/

namespace ShapeCheck

open List

variable {fp : State → Nat} {sp : StateSpace fp} {S : Search} {c : Checker}

namespace Checker

variable {id id' : StateId} {i n : Nat}

/-- A sequent is open at a state. -/
def Awaits (c : Checker) (id : StateId) (i : Nat) : Prop :=
  ∃ sequents, c.waiting.find? id = some sequents ∧ i ∈ sequents

theorem awaits_await :
    (S.await c id n).2.Awaits id' i ↔ c.Awaits id' i ∨ id' = id ∧ i = n := by
  simp only [Awaits, Search.await, SortedMap.find?_insert]
  by_cases hid : id' = id
  · subst hid
    cases hfind : c.waiting.find? id' with
    | none => simp
    | some old => simp
  · simp [hid]

theorem awaits_erase :
    Awaits { c with waiting := c.waiting.erase id } id' i ↔ id' ≠ id ∧ c.Awaits id' i := by
  simp only [Awaits, SortedMap.find?_erase]
  by_cases h : id' = id <;> simp [h]

theorem mem_stack_await_iff : id' ∈ (S.await c id n).1.stack ↔ id' ∈ S.stack ∨ id' = id := by
  by_cases hid : id ∈ S.stack
  · have hmem : id' = id → id' ∈ S.stack := fun h => h ▸ hid
    simpa [Search.await, hid] using hmem
  · simp [Search.await, hid, Search.push, or_comm]

theorem nodup_stack_await (h : S.stack.Nodup) : (S.await c id n).1.stack.Nodup := by
  by_cases hid : id ∈ S.stack
  · simpa [Search.await, hid] using h
  · simpa [Search.await, hid, Search.push] using h

/-- Open several sequents, each at its state. -/
def awaitAll (T : Tableau) (added : List Nat) (S : Search) (c : Checker) : Search × Checker :=
  added.foldl (fun (S, c) child => Search.await S c (T.stateOf child) child) (S, c)

theorem nodup_stack_awaitAll (T : Tableau) (added : List Nat) (h : S.stack.Nodup) :
    (awaitAll T added S c).1.stack.Nodup :=
  List.foldlRecOn added _ (motive := fun r : Search × Checker => r.1.stack.Nodup) h
    fun _ h _ _ => nodup_stack_await h

theorem awaitAll_spec (T : Tableau) (added : List Nat) (S : Search) (c : Checker) :
    (awaitAll T added S c).2 = { c with waiting := (awaitAll T added S c).2.waiting } ∧
      (∀ id, id ∈ (awaitAll T added S c).1.stack ↔
        id ∈ S.stack ∨ ∃ child ∈ added, id = T.stateOf child) ∧
      ∀ id i, (awaitAll T added S c).2.Awaits id i ↔
        c.Awaits id i ∨ i ∈ added ∧ id = T.stateOf i := by
  induction added generalizing S c with
  | nil => simp [awaitAll]
  | cons child added ih =>
    obtain ⟨heq, hstack, hawaits⟩ := ih (S.await c (T.stateOf child) child).1
      (S.await c (T.stateOf child) child).2
    refine ⟨heq, fun id => (hstack id).trans ?_, fun id i => (hawaits id i).trans ?_⟩
    · rw [mem_stack_await_iff]
      simp [or_assoc]
    · rw [awaits_await, mem_cons]
      constructor
      · rintro ((h | ⟨rfl, rfl⟩) | ⟨h, rfl⟩)
        · exact .inl h
        · exact .inr ⟨.inl rfl, rfl⟩
        · exact .inr ⟨.inr h, rfl⟩
      · rintro (h | ⟨rfl | h, rfl⟩)
        · exact .inl (.inl h)
        · exact .inl (.inr ⟨rfl, rfl⟩)
        · exact .inr ⟨h, rfl⟩

end Checker

namespace Search

open Checker

variable {id : StateId} {S' : Search} {c' : Checker} {failed : Bool}

/-- What is kept when a sequent opens its children is kept until all sequents are expanded, or until
one of them fails. -/
theorem discharge_induction {P : List Nat → Search → Checker → Prop} {successors : List StateId}
    (hstep : ∀ {i todo S c sets T added}, P (i :: todo) S c →
      (c.tableau.sequent i).formulae.expand (Tableau.valuation sp c.labels id) = .obligations sets →
      (c.tableau.markNode i).derive i sets successors = (T, added) →
      P todo (awaitAll T added S { c with tableau := T }).1
        (awaitAll T added S { c with tableau := T }).2)
    {todo : List Nat} (h : P todo S c)
    (hr : discharge sp id successors todo S c = (S', c', failed)) :
    failed = false ∧ P [] S' c' ∨ failed = true ∧ ∃ i todo c₀, P (i :: todo) S' c₀ ∧
      (c₀.tableau.sequent i).formulae.expand (Tableau.valuation sp c₀.labels id) = .failed ∧
      c' = { c₀ with tableau :=
        { c₀.tableau.markNode i with failure := c₀.tableau.failure <|> some i } } := by
  induction todo generalizing S c with
  | nil =>
    cases hr
    exact .inl ⟨rfl, h⟩
  | cons i todo ih =>
    rw [discharge] at hr
    cases hsets : (c.tableau.sequent i).formulae.expand (Tableau.valuation sp c.labels id) with
    | failed =>
      rw [Tableau.expand_of_failed hsets] at hr
      cases hr
      exact .inr ⟨rfl, i, todo, c, h, hsets, rfl⟩
    | obligations sets =>
      rw [Tableau.expand_of_obligations hsets] at hr
      rcases hT : (c.tableau.markNode i).derive i sets successors with ⟨T, added⟩
      simp only [hT] at hr
      exact ih (hstep h hsets hT) hr

theorem start_cases (hS : S.checker? = some c) (id : StateId) :
    (S.start id = S ∧ ∃ i, i < c.tableau.size ∧ c.tableau.sequent i = Sequent.root c.formula id) ∨
      ∃ T, T = c.tableau.pushNode ⟨Sequent.root c.formula id, none, false⟩ ∧
        (c.tableau.assert (Sequent.root c.formula id) none).1 = T ∧
        S.start id = { (S.await { c with tableau := T } id c.tableau.size).1 with
          checker? := some (S.await { c with tableau := T } id c.tableau.size).2 } := by
  rcases c.tableau.assert_cases (Sequent.root c.formula id) none with
    ⟨i, hi, hseq, hassert⟩ | ⟨-, hassert⟩
  · have hassert' : c.tableau.assert ⟨id, SortedSet.ofList [c.formula]⟩ none =
      (c.tableau, i, false) := hassert
    have hstart : S.start id = { S with checker? := some c } := by simp [start, hS, hassert']
    exact .inl ⟨by rw [hstart, ← hS], i, hi, hseq⟩
  · have hassert' : c.tableau.assert ⟨id, SortedSet.ofList [c.formula]⟩ none =
      (c.tableau.pushNode ⟨Sequent.root c.formula id, none, false⟩, c.tableau.size, true) := hassert
    refine .inr ⟨_, rfl, congrArg Prod.fst hassert', ?_⟩
    simp only [start, hS, hassert', if_true]

/-- A state at which nothing is open is passed over. Otherwise the search goes on after its sequents
are expanded, or it stops with a failure. -/
theorem expanded_cases (hS : S.checker? = some c) (sp : StateSpace fp) (id : StateId)
    (fresh : List StateId) :
    (c.waiting.find? id = none ∧ S.expanded sp id fresh = (S, none)) ∨
      ∃ sequents S' c' failed, c.waiting.find? id = some sequents ∧
        discharge sp id (sp.checkSuccessors id) sequents S
          { c with waiting := c.waiting.erase id } = (S', c', failed) ∧
        S.expanded sp id fresh = if failed then
          ({ stack := [], checker? := some { c' with waiting := ∅ } }, some c'.tableau.verdict)
        else ({ S' with checker? := some c' }, none) := by
  simp only [expanded, hS]
  cases hfind : c.waiting.find? id with
  | none => exact .inl ⟨rfl, rfl⟩
  | some sequents =>
    rcases hr : discharge sp id (sp.checkSuccessors id) sequents S
        { c with waiting := c.waiting.erase id } with ⟨S', c', failed⟩
    refine .inr ⟨sequents, S', c', failed, rfl, hr, ?_⟩
    cases failed <;> simp only [hr] <;> rfl

end Search

namespace Tableau

variable {T : Tableau} {N : Nat}

/-- All sequents are about states below `N`. -/
def IsBelow (N : Nat) (T : Tableau) : Prop :=
  ∀ i, i < T.size → T.stateOf i < N

theorem IsBelow.assert (h : T.IsBelow N) {q : Sequent} (hq : q.state < N) (p? : Option Nat) :
    (T.assert q p?).1.IsBelow N := by
  intro i hi
  rcases T.assert_cases q p? with ⟨id, -, -, heq⟩ | ⟨-, heq⟩
  · rw [heq, size_record] at hi
    rw [heq, stateOf, sequent_record]
    exact h i hi
  · rw [heq, size_record, size_pushNode] at hi
    rw [heq, stateOf, sequent_record, sequent_pushNode]
    split
    · exact hq
    · exact h i (by omega)

theorem IsBelow.derive (h : T.IsBelow N) (id : Nat) (sets : List FormulaSet)
    {successors : List StateId} (hsucc : ∀ t ∈ successors, t < N) :
    (T.derive id sets successors).1.IsBelow N := by
  have hq (q : Sequent) (hq : q ∈ sets.flatMap fun s => successors.map fun t => Sequent.mk t s) :
      q.state < N := by
    obtain ⟨s, -, hq⟩ := mem_flatMap.1 hq
    obtain ⟨t, ht, rfl⟩ := mem_map.1 hq
    exact hsucc t ht
  exact List.foldlRecOn _ _ (motive := fun r : Tableau × List Nat => r.1.IsBelow N) h
    fun r hr q hmem => hr.assert (hq q hmem) _

theorem IsBelow.markNode (h : T.IsBelow N) (id : Nat) : (T.markNode id).IsBelow N := fun i hi => by
  rw [stateOf, sequent_markNode]
  exact h i (by simpa using hi)

end Tableau

namespace Search

open Checker

variable {N : Nat} {id : StateId}

/-- The search mentions only states below `N`. -/
structure IsBelow (N : Nat) (S : Search) : Prop where
  stack : ∀ id ∈ S.stack, id < N
  checker : ∀ c, S.checker? = some c → c.tableau.IsBelow N

theorem isBelow_depthFirst : depthFirst.IsBelow 0 :=
  ⟨forall_mem_nil _, nofun⟩

theorem isBelow_onTheFly (a : Formula) (labels : Labelling) : (onTheFly a labels).IsBelow 0 := by
  refine ⟨forall_mem_nil _, fun c hc i hi => ?_⟩
  obtain rfl := Option.some.inj hc
  exact absurd hi (Nat.not_lt_zero i)

theorem IsBelow.mono (h : S.IsBelow N) {N' : Nat} (hN : N ≤ N') : S.IsBelow N' :=
  ⟨fun id hid => Nat.lt_of_lt_of_le (h.stack id hid) hN,
    fun c hc i hi => Nat.lt_of_lt_of_le (h.checker c hc i hi) hN⟩

theorem IsBelow.tail (h : S.IsBelow N) {stack : List StateId} (hstack : S.stack = id :: stack) :
    IsBelow N ⟨stack, S.checker?⟩ :=
  ⟨fun i hi => h.stack i (hstack ▸ mem_cons_of_mem _ hi), h.checker⟩

theorem isBelow_discharge {successors : List StateId} {sequents : List Nat}
    (hsucc : ∀ t ∈ successors, t < N) (hS : ∀ id ∈ S.stack, id < N) (hc : c.tableau.IsBelow N)
    {S' : Search} {c' : Checker} {failed : Bool}
    (hr : discharge sp id successors sequents S c = (S', c', failed)) :
    (∀ i ∈ S'.stack, i < N) ∧ c'.tableau.IsBelow N := by
  refine (discharge_induction (P := fun _ S c => (∀ i ∈ S.stack, i < N) ∧ c.tableau.IsBelow N)
    (fun {i todo S c sets T added} h _ hT => ?_) ⟨hS, hc⟩ hr).elim And.right ?_
  · have hbelow := (h.2.markNode i).derive i sets hsucc
    rw [hT] at hbelow
    obtain ⟨heq, hstack, -⟩ := awaitAll_spec T added S { c with tableau := T }
    refine ⟨fun id hid => ?_, by rwa [heq]⟩
    rcases (hstack id).1 hid with hid | ⟨child, hchild, rfl⟩
    · exact h.1 id hid
    · exact hbelow child (Tableau.mem_of_derive_eq hT |>.1 hchild).2
  · rintro ⟨-, i, todo, c₀, h, -, rfl⟩
    exact ⟨h.1, h.2.markNode i⟩

theorem IsBelow.push (h : S.IsBelow N) (hid : id < N) : (S.push id).IsBelow N :=
  ⟨forall_mem_cons.2 ⟨hid, h.stack⟩, h.checker⟩

theorem IsBelow.start (h : S.IsBelow N) (hid : id < N) : (S.start id).IsBelow N := by
  cases hS : S.checker? with
  | none =>
    rw [Search.start, hS]
    exact h.push hid
  | some c =>
    rcases start_cases hS id with ⟨heq, -⟩ | ⟨T, -, hassert, heq⟩
    · rwa [heq]
    · have hbelow := (h.checker c hS).assert (q := Sequent.root c.formula id) hid none
      rw [heq]
      refine ⟨fun i hi => ?_, fun c' hc' => ?_⟩
      · rcases mem_stack_await_iff.1 hi with hi | rfl
        · exact h.stack i hi
        · exact hid
      · obtain rfl := Option.some.inj hc'
        exact hassert ▸ hbelow

theorem IsBelow.expanded (h : S.IsBelow N) {fresh : List StateId} (hfresh : ∀ i ∈ fresh, i < N)
    (hsucc : ∀ t ∈ sp.checkSuccessors id, t < N) : (S.expanded sp id fresh).1.IsBelow N := by
  cases hS : S.checker? with
  | none =>
    rw [Search.expanded, hS]
    exact List.foldlRecOn fresh Search.push (motive := IsBelow N) h fun T hT i hi =>
      hT.push (hfresh i hi)
  | some c =>
    rcases expanded_cases hS sp id fresh with
      ⟨-, heq⟩ | ⟨sequents, S', c', failed, -, hr, heq⟩ <;> rw [heq]
    · exact h
    · obtain ⟨hstack, hbelow⟩ := isBelow_discharge
        (c := { c with waiting := c.waiting.erase id }) hsucc h.stack (h.checker c hS) hr
      cases failed with
      | true => exact ⟨forall_mem_nil _, fun c' hc' => Option.some.inj hc' ▸ hbelow⟩
      | false => exact ⟨hstack, fun c' hc' => Option.some.inj hc' ▸ hbelow⟩

theorem foldl_start_eq {l : List StateId} (hnone : S.checker? = none) :
    l.foldl start S = l.foldl push S := by
  induction l generalizing S with
  | nil => rfl
  | cons id l ih =>
    have hstart : S.start id = S.push id := by rw [start, hnone]
    rw [foldl_cons, foldl_cons, hstart]
    exact ih hnone

theorem mem_stack_foldl_push {fresh : List StateId} {id : StateId} :
    id ∈ (fresh.foldl push S).stack ↔ id ∈ S.stack ∨ id ∈ fresh := by
  induction fresh generalizing S with
  | nil => simp
  | cons i fresh ih =>
    rw [foldl_cons, ih, push, mem_cons, mem_cons, or_assoc, or_left_comm]

theorem checker?_foldl_push {fresh : List StateId} :
    (fresh.foldl push S).checker? = S.checker? := by
  induction fresh generalizing S with
  | nil => rfl
  | cons i fresh ih => exact ih

end Search

end ShapeCheck
