import ShapeCheck.Proofs.Branch
import Mathlib.Data.Finset.Powerset
import Mathlib.Data.Finset.Prod
import Mathlib.Tactic.Common

/-!
# The sequents of a tableau

One sequent *leads to* another if expanding it at its state leaves the formulae of the other one for
a successor of the state. A tableau that is made by adding roots and expanding sequents is
*derived*: every sequent in it is a root or was led to by an earlier one, every recorded step is
such a derivation, and no sequent occurs twice. Saturating a tableau either meets a sequent that
cannot hold or leaves it *closed*: whatever its sequents lead to is recorded.

All formulae of a derived tableau are subformulae of the formula that is checked, so there are only
finitely many sequents, and the bound on the number of steps is never met.

## Main results

* `saturate_spec`: saturating closes a tableau or meets a failure.
* `IsDerived.size_le`: the number of sequents is bounded.
-/

namespace ShapeCheck

open List

namespace FormulaSet

variable {holds : String → Bool} {s : FormulaSet}

theorem isEmpty_iff : s.isEmpty = true ↔ s = ∅ := by
  rw [SortedSet.isEmpty, List.isEmpty_iff]
  constructor
  · intro h
    ext a
    rw [SortedSet.mem_def, h]
    simp
  · rintro rfl
    rfl

theorem expand_eq_failed_iff : s.expand holds = .failed ↔ ∅ ∈ leaves holds s := by
  rw [expand]
  split
  · next h =>
    obtain ⟨t, ht, he⟩ := any_eq_true.1 h
    simp only [true_iff]
    exact isEmpty_iff.1 he ▸ ht
  · next h =>
    simp only [reduceCtorEq, false_iff]
    exact fun hmem => h (any_eq_true.2 ⟨∅, hmem, rfl⟩)

theorem mem_obligations_iff {sets : List FormulaSet} (h : s.expand holds = .obligations sets)
    {t : FormulaSet} : t ∈ sets ↔ ∃ leaf ∈ leaves holds s, t = leaf.bodies := by
  rw [expand] at h
  split at h
  · cases h
  · cases h
    rw [← SortedSet.mem_def, SortedSet.mem_ofList, mem_map]
    simp only [eq_comm]

end FormulaSet

variable {fp : State → Nat}

/-! ### Sequents -/

namespace Sequent

/-- One sequent leads to another: a branch at its state leaves the formulae of the other one, which
stands at a successor. -/
structure Leads (sp : StateSpace fp) (labels : Labelling) (q q' : Sequent) : Prop where
  state : q'.state ∈ sp.checkSuccessors q.state
  formulae : ∃ trail leaf,
    FormulaSet.Branch (Tableau.valuation sp labels q.state) q.formulae trail leaf ∧
      q'.formulae = leaf.bodies

/-- A sequent that cannot hold: some branch leaves nothing. -/
def IsFailing (sp : StateSpace fp) (labels : Labelling) (q : Sequent) : Prop :=
  ∃ trail, FormulaSet.Branch (Tableau.valuation sp labels q.state) q.formulae trail ∅

/-- The sequent that asserts a formula at a state. -/
def root (a : Formula) (id : StateId) : Sequent :=
  ⟨id, SortedSet.ofList [a]⟩

variable {sp : StateSpace fp} {labels : Labelling} {q : Sequent}

theorem expand_eq_failed_iff :
    q.formulae.expand (Tableau.valuation sp labels q.state) = .failed ↔
      q.IsFailing sp labels := by
  rw [FormulaSet.expand_eq_failed_iff, FormulaSet.mem_leaves_iff]
  rfl

theorem leads_iff {sets : List FormulaSet}
    (h : q.formulae.expand (Tableau.valuation sp labels q.state) = .obligations sets)
    {q' : Sequent} :
    q.Leads sp labels q' ↔ q'.state ∈ sp.checkSuccessors q.state ∧ q'.formulae ∈ sets := by
  rw [FormulaSet.mem_obligations_iff h]
  simp only [FormulaSet.mem_leaves_iff]
  constructor
  · rintro ⟨hstate, trail, leaf, hbranch, heq⟩
    exact ⟨hstate, leaf, ⟨trail, hbranch⟩, heq⟩
  · rintro ⟨hstate, leaf, ⟨trail, hbranch⟩, heq⟩
    exact ⟨hstate, trail, leaf, hbranch, heq⟩

end Sequent

namespace Tableau

/-! ### Derived and closed tableaux -/

/-- The node that a node was first derived from. -/
def parent (T : Tableau) (id : Nat) : Option Nat :=
  T.nodes[id]?.bind (·.parent)

/-- Every sequent is a root or derived from an earlier one, every step is a derivation, and no
sequent occurs twice. -/
structure IsDerived (sp : StateSpace fp) (labels : Labelling) (a : Formula) (T : Tableau) :
    Prop where
  inj : ∀ i j, i < T.size → j < T.size → T.sequent i = T.sequent j → i = j
  /-- A node without a parent asserts the formula at an initial state. -/
  root : ∀ i, i < T.size → T.parent i = none → ∃ id ∈ sp.initial, T.sequent i = Sequent.root a id
  /-- A parent is an earlier node with a step to its child. -/
  parent : ∀ i p, T.parent i = some p → p < i ∧ (p, i) ∈ T.edges
  edge : ∀ i j, (i, j) ∈ T.edges → i < T.size ∧ j < T.size ∧
    (T.sequent i).Leads sp labels (T.sequent j)

/-- A node whose sequent can hold, with steps to all that its sequent leads to. -/
structure IsClosedAt (sp : StateSpace fp) (labels : Labelling) (T : Tableau) (i : Nat) : Prop where
  not_isFailing : ¬ (T.sequent i).IsFailing sp labels
  edge : ∀ q, (T.sequent i).Leads sp labels q → ∃ j, (i, j) ∈ T.edges ∧ T.sequent j = q

/-- All nodes can hold, with steps to all that their sequents lead to. -/
def IsClosed (sp : StateSpace fp) (labels : Labelling) (T : Tableau) : Prop :=
  ∀ i, i < T.size → T.IsClosedAt sp labels i

/-- One tableau contains another, with the same numbers. -/
structure Extends (T' T : Tableau) : Prop where
  size_le : T.size ≤ T'.size
  sequent : ∀ i, i < T.size → T'.sequent i = T.sequent i
  edge : ∀ e ∈ T.edges, e ∈ T'.edges

theorem Extends.refl (T : Tableau) : T.Extends T :=
  ⟨Nat.le_refl _, fun _ _ => rfl, fun _ h => h⟩

theorem Extends.trans {T₁ T₂ T₃ : Tableau} (h : T₂.Extends T₁) (h' : T₃.Extends T₂) :
    T₃.Extends T₁ where
  size_le := Nat.le_trans h.size_le h'.size_le
  sequent i hi := (h'.sequent i (Nat.lt_of_lt_of_le hi h.size_le)).trans (h.sequent i hi)
  edge e he := h'.edge e (h.edge e he)

theorem Extends.stateOf {T' T : Tableau} (h : T'.Extends T) {i : Nat} (hi : i < T.size) :
    T'.stateOf i = T.stateOf i :=
  congrArg Sequent.state (h.sequent i hi)

/-- A node stands at its state in a larger tableau. -/
theorem Extends.stands {T' T : Tableau} (h : T'.Extends T) {i : Nat} {state : StateId}
    (hi : i < T.size ∧ T.stateOf i = state) : i < T'.size ∧ T'.stateOf i = state :=
  ⟨Nat.lt_of_lt_of_le hi.1 h.size_le, (h.stateOf hi.1).trans hi.2⟩

variable {T : Tableau} {q : Sequent} {p? : Option Nat} {i id : Nat}

/-! ### Adding a sequent -/

/-- Record the step from a parent, if there is one. -/
def record (T : Tableau) (p? : Option Nat) (id : Nat) : Tableau :=
  match p? with
  | some p => { T with edges := T.edges.push (p, id) }
  | none => T

/-- Add a node. -/
def pushNode (T : Tableau) (n : TableauNode) : Tableau :=
  { T with nodes := T.nodes.push n }

@[simp]
theorem nodes_record : (T.record p? id).nodes = T.nodes := by
  cases p? <;> rfl

@[simp]
theorem failure_record : (T.record p? id).failure = T.failure := by
  cases p? <;> rfl

@[simp]
theorem size_record : (T.record p? id).size = T.size := by
  simp [size]

@[simp]
theorem sequent_record : (T.record p? id).sequent i = T.sequent i := by
  simp [sequent]

@[simp]
theorem parent_record : (T.record p? id).parent i = T.parent i := by
  simp [parent]

theorem mem_edges_record {e : Nat × Nat} :
    e ∈ (T.record p? id).edges ↔ e ∈ T.edges ∨ ∃ p, p? = some p ∧ e = (p, id) := by
  cases p? <;> simp [record]

@[simp]
theorem size_pushNode (n : TableauNode) : (T.pushNode n).size = T.size + 1 := by
  simp [size, pushNode]

theorem sequent_pushNode (n : TableauNode) :
    (T.pushNode n).sequent i = if i = T.size then n.sequent else T.sequent i := by
  simp only [sequent, pushNode, Array.getElem?_push, size]
  by_cases h : i = T.nodes.size <;> simp [h]

theorem parent_pushNode (n : TableauNode) :
    (T.pushNode n).parent i = if i = T.size then n.parent else T.parent i := by
  simp only [parent, pushNode, Array.getElem?_push, size]
  by_cases h : i = T.nodes.size <;> simp [h]

theorem assert_cases (T : Tableau) (q : Sequent) (p? : Option Nat) :
    (∃ id, id < T.size ∧ T.sequent id = q ∧ T.assert q p? = (T.record p? id, id, false)) ∨
      (∀ i, i < T.size → T.sequent i ≠ q) ∧
        T.assert q p? = ((T.pushNode ⟨q, p?, false⟩).record p? T.size, T.size, true) := by
  cases hfind : T.nodes.findIdx? (·.sequent = q) with
  | some id =>
    obtain ⟨hlt, hid, -⟩ := Array.findIdx?_eq_some_iff_getElem.1 hfind
    refine .inl ⟨id, hlt, ?_, ?_⟩
    · rw [sequent, Array.getElem?_eq_getElem hlt]
      simpa using hid
    · rw [assert, hfind]
      cases p? <;> rfl
  | none =>
    refine .inr ⟨fun i hi => ?_, ?_⟩
    · have := Array.findIdx?_eq_none_iff.1 hfind T.nodes[i] (Array.getElem_mem hi)
      rw [sequent, Array.getElem?_eq_getElem hi]
      simpa using this
    · rw [assert, hfind]
      cases p? <;> rfl

@[simp]
theorem failure_assert : (T.assert q p?).1.failure = T.failure := by
  rcases T.assert_cases q p? with ⟨id, -, -, h⟩ | ⟨-, h⟩ <;> simp [h, pushNode]

theorem assert_extends : (T.assert q p?).1.Extends T := by
  rcases T.assert_cases q p? with ⟨id, -, -, h⟩ | ⟨-, h⟩
  · rw [h]
    exact ⟨by simp, by simp, fun e he => mem_edges_record.2 (.inl he)⟩
  · rw [h]
    refine ⟨by simp, fun i hi => ?_, fun e he => mem_edges_record.2 (.inl he)⟩
    rw [sequent_record, sequent_pushNode, if_neg (by omega)]

/-- The returned node carries the sequent. -/
theorem assert_spec :
    (T.assert q p?).2.1 < (T.assert q p?).1.size ∧
      (T.assert q p?).1.sequent (T.assert q p?).2.1 = q ∧
      ∀ p, p? = some p → (p, (T.assert q p?).2.1) ∈ (T.assert q p?).1.edges := by
  rcases T.assert_cases q p? with ⟨id, hid, hq, h⟩ | ⟨-, h⟩
  · rw [h]
    exact ⟨by simpa using hid, by simpa using hq,
      fun p hp => mem_edges_record.2 (.inr ⟨p, hp, rfl⟩)⟩
  · rw [h]
    refine ⟨by simp, ?_, fun p hp => mem_edges_record.2 (.inr ⟨p, hp, rfl⟩)⟩
    rw [sequent_record, sequent_pushNode, if_pos rfl]

theorem mem_edges_assert {e : Nat × Nat} (he : e ∈ (T.assert q p?).1.edges) :
    e ∈ T.edges ∨ p? = some e.1 := by
  rcases T.assert_cases q p? with ⟨id, -, -, h⟩ | ⟨-, h⟩
  all_goals
    rw [h] at he
    refine (mem_edges_record.1 he).imp_right ?_
    rintro ⟨p, hp, rfl⟩
    exact hp

variable {sp : StateSpace fp} {labels : Labelling} {a : Formula}

/-- What may be added next: a root, or a sequent that a node leads to. -/
structure Admits (sp : StateSpace fp) (labels : Labelling) (a : Formula) (T : Tableau)
    (p? : Option Nat) (q : Sequent) : Prop where
  root : p? = none → ∃ id ∈ sp.initial, q = Sequent.root a id
  parent : ∀ p, p? = some p → p < T.size ∧ (T.sequent p).Leads sp labels q

theorem Admits.of_extends {T' : Tableau} (h : T.Admits sp labels a p? q) (hext : T'.Extends T) :
    T'.Admits sp labels a p? q := by
  refine ⟨h.root, fun p hp => ?_⟩
  obtain ⟨hlt, hleads⟩ := h.parent p hp
  exact ⟨Nat.lt_of_lt_of_le hlt hext.size_le, hext.sequent p hlt ▸ hleads⟩

theorem admits_root {id : StateId} (hid : id ∈ sp.initial) :
    T.Admits sp labels a none (Sequent.root a id) :=
  ⟨fun _ => ⟨id, hid, rfl⟩, by simp⟩

theorem isDerived_empty : ({} : Tableau).IsDerived sp labels a := by
  constructor <;> simp [size, parent]

theorem IsDerived.assert (h : T.IsDerived sp labels a) (hq : T.Admits sp labels a p? q) :
    (T.assert q p?).1.IsDerived sp labels a := by
  obtain ⟨hroot, hparent⟩ := hq
  rcases T.assert_cases q p? with ⟨id, hid, hq, heq⟩ | ⟨hnew, heq⟩
  · rw [heq]
    refine ⟨by simpa using h.inj, by simpa using h.root, fun i p hp => ?_, fun i j hij => ?_⟩
    · rw [parent_record] at hp
      exact ⟨(h.parent i p hp).1, mem_edges_record.2 (.inl (h.parent i p hp).2)⟩
    · simp only [size_record, sequent_record]
      rcases mem_edges_record.1 hij with hij | ⟨p, hp, hij⟩
      · exact h.edge i j hij
      · cases hij
        exact ⟨(hparent i hp).1, hid, hq ▸ (hparent i hp).2⟩
  · rw [heq]
    have hlt {i : Nat} (hi : i < T.size) : (T.pushNode ⟨q, p?, false⟩).sequent i = T.sequent i := by
      rw [sequent_pushNode, if_neg (by omega)]
    have hlast : (T.pushNode ⟨q, p?, false⟩).sequent T.size = q := by
      rw [sequent_pushNode, if_pos rfl]
    refine ⟨fun i j hi hj hij => ?_, fun i hi hp => ?_, fun i p hp => ?_, fun i j hij => ?_⟩
    · simp only [size_record, size_pushNode, sequent_record] at hi hj hij
      rcases Nat.lt_succ_iff_lt_or_eq.1 hi with hi | rfl <;>
        rcases Nat.lt_succ_iff_lt_or_eq.1 hj with hj | rfl
      · exact h.inj i j hi hj (by rwa [hlt hi, hlt hj] at hij)
      · rw [hlt hi, hlast] at hij
        exact absurd hij (hnew i hi)
      · rw [hlt hj, hlast] at hij
        exact absurd hij.symm (hnew j hj)
      · rfl
    · simp only [size_record, size_pushNode, sequent_record, parent_record] at hi hp ⊢
      rcases Nat.lt_succ_iff_lt_or_eq.1 hi with hi | rfl
      · rw [hlt hi]
        rw [parent_pushNode, if_neg (by omega)] at hp
        exact h.root i hi hp
      · rw [hlast]
        rw [parent_pushNode, if_pos rfl] at hp
        exact hroot hp
    · rw [parent_record, parent_pushNode] at hp
      rw [mem_edges_record]
      split at hp
      · next hi =>
        subst hi
        exact ⟨(hparent p hp).1, .inr ⟨p, hp, rfl⟩⟩
      · exact ⟨(h.parent i p hp).1, .inl (h.parent i p hp).2⟩
    · simp only [size_record, size_pushNode, sequent_record]
      rcases mem_edges_record.1 hij with hij | ⟨p, hp, hij⟩
      · obtain ⟨hi, hj, hleads⟩ := h.edge i j hij
        rw [hlt hi, hlt hj]
        exact ⟨by omega, by omega, hleads⟩
      · cases hij
        obtain ⟨hi, hleads⟩ := hparent i hp
        rw [hlt hi, hlast]
        exact ⟨by omega, by omega, hleads⟩

variable {holds : String → Bool}

/-! ### Expanding a node -/

/-- Mark a node as expanded. -/
def markNode (T : Tableau) (id : Nat) : Tableau :=
  { T with nodes := T.nodes.modify id fun n => { n with expanded := true } }

@[simp]
theorem sequent_markNode : (T.markNode id).sequent i = T.sequent i := by
  simp only [sequent, markNode, Array.getElem?_modify]
  split_ifs
  · cases T.nodes[i]? <;> rfl
  · rfl

@[simp]
theorem parent_markNode : (T.markNode id).parent i = T.parent i := by
  simp only [parent, markNode, Array.getElem?_modify]
  split_ifs
  · cases T.nodes[i]? <;> rfl
  · rfl

@[simp]
theorem size_markNode : (T.markNode id).size = T.size := by
  simp [size, markNode]

theorem expand_of_failed (h : (T.sequent id).formulae.expand holds = .failed) :
    T.expand id holds = ({ T.markNode id with failure := T.failure <|> some id }, .failed) := by
  cases hn : T.failure <;> simp [expand, markNode, h, hn]

/-- Expanding any other node just marks it. -/
theorem expand_of_obligations {sets : List FormulaSet}
    (h : (T.sequent id).formulae.expand holds = .obligations sets) :
    T.expand id holds = (T.markNode id, .obligations sets) := by
  simp [expand, markNode, h]

theorem IsDerived.congr {T' : Tableau} (h : T.IsDerived sp labels a) (hsize : T'.size = T.size)
    (hsequent : ∀ i, T'.sequent i = T.sequent i) (hparent : ∀ i, T'.parent i = T.parent i)
    (hedges : T'.edges = T.edges) : T'.IsDerived sp labels a where
  inj := by simpa only [hsize, hsequent] using h.inj
  root := by simpa only [hsize, hsequent, hparent] using h.root
  parent := by simpa only [hparent, hedges] using h.parent
  edge := by simpa only [hsize, hsequent, hedges] using h.edge

theorem IsDerived.markNode (h : T.IsDerived sp labels a) (id : Nat) :
    (T.markNode id).IsDerived sp labels a :=
  h.congr size_markNode (fun _ => sequent_markNode) (fun _ => parent_markNode) rfl

theorem markNode_extends : (T.markNode id).Extends T :=
  ⟨by simp, by simp, fun _ he => he⟩

/-- A later stage of a tableau: it is still derived, and it has failed no more than before. -/
structure IsStageOf (sp : StateSpace fp) (labels : Labelling) (a : Formula) (T' T : Tableau) :
    Prop where
  isDerived : T'.IsDerived sp labels a
  isExtension : T'.Extends T
  failure : T'.failure = T.failure

theorem IsStageOf.trans {T₁ T₂ T₃ : Tableau} (h : T₂.IsStageOf sp labels a T₁)
    (h' : T₃.IsStageOf sp labels a T₂) : T₃.IsStageOf sp labels a T₁ :=
  ⟨h'.isDerived, h.isExtension.trans h'.isExtension, h'.failure.trans h.failure⟩

theorem IsClosedAt.of_extends {T' : Tableau} (h : T.IsClosedAt sp labels i) (hi : i < T.size)
    (hder : T.IsDerived sp labels a) (hext : T'.Extends T) : T'.IsClosedAt sp labels i := by
  refine ⟨?_, fun q hq => ?_⟩
  · rw [hext.sequent i hi]
    exact h.not_isFailing
  · rw [hext.sequent i hi] at hq
    obtain ⟨j, hij, rfl⟩ := h.edge q hq
    exact ⟨j, hext.edge _ hij, hext.sequent j (hder.edge i j hij).2.1⟩

/-! ### Deriving obligations -/

/-- Add a sequent, and queue it if it is new. -/
def enqueue (p? : Option Nat) (found : Tableau × List Nat) (q : Sequent) : Tableau × List Nat :=
  ((found.1.assert q p?).1,
    if (found.1.assert q p?).2.2 then found.2 ++ [(found.1.assert q p?).2.1] else found.2)

theorem derive_eq (sets : List FormulaSet) (successors : List StateId) :
    T.derive id sets successors = (sets.flatMap fun s => successors.map fun t =>
      Sequent.mk t s).foldl (enqueue (some id)) (T, []) :=
  rfl

/-- The queue holds the nodes from a number on. -/
def IsQueueFrom (n : Nat) (T : Tableau) (queue : List Nat) : Prop :=
  n ≤ T.size ∧ queue = List.range' n (T.size - n)

/-- A new sequent gets the next number. -/
theorem IsQueueFrom.enqueue {n : Nat} {found : Tableau × List Nat}
    (h : IsQueueFrom n found.1 found.2) (q : Sequent) :
    IsQueueFrom n (Tableau.enqueue p? found q).1 (Tableau.enqueue p? found q).2 := by
  obtain ⟨hle, hqueue⟩ := h
  rcases found.1.assert_cases q p? with ⟨id, -, -, heq⟩ | ⟨-, heq⟩
  · simpa [IsQueueFrom, Tableau.enqueue, heq] using And.intro hle hqueue
  · have hsize : found.1.size + 1 - n = found.1.size - n + 1 := by omega
    simp only [IsQueueFrom, Tableau.enqueue, heq, size_record, size_pushNode, if_true]
    refine ⟨by omega, ?_⟩
    rw [hqueue, hsize, range'_1_concat, Nat.add_sub_cancel' hle]

theorem IsQueueFrom.foldl_enqueue {n : Nat} {found : Tableau × List Nat}
    (h : IsQueueFrom n found.1 found.2) (l : List Sequent) :
    IsQueueFrom n (l.foldl (Tableau.enqueue p?) found).1
      (l.foldl (Tableau.enqueue p?) found).2 :=
  List.foldlRecOn l _ (motive := fun found : Tableau × List Nat => IsQueueFrom n found.1 found.2) h
    fun _ h q _ => h.enqueue q

/-- The new nodes of a derivation are the ones that come last. -/
theorem isQueueFrom_derive (sets : List FormulaSet) (successors : List StateId) :
    IsQueueFrom T.size (T.derive id sets successors).1 (T.derive id sets successors).2 :=
  @IsQueueFrom.foldl_enqueue (some id) T.size (T, []) ⟨Nat.le_refl _, by simp⟩ _

theorem mem_of_derive_eq {sets : List FormulaSet} {successors : List StateId} {T' : Tableau}
    {added : List Nat} (hT' : T.derive id sets successors = (T', added)) {child : Nat} :
    child ∈ added ↔ T.size ≤ child ∧ child < T'.size := by
  have hfrom := @isQueueFrom_derive T id sets successors
  rw [hT'] at hfrom
  obtain ⟨hle, rfl⟩ : T.size ≤ T'.size ∧ added = List.range' T.size (T'.size - T.size) := hfrom
  rw [mem_range'_1, Nat.add_sub_cancel' hle]

private theorem foldl_enqueue {found : Tableau × List Nat} {l : List Sequent}
    (h : found.1.IsDerived sp labels a) (hl : ∀ q ∈ l, found.1.Admits sp labels a p? q) :
    (l.foldl (enqueue p?) found).1.IsStageOf sp labels a found.1 ∧
      ∀ q ∈ l, ∃ j, j < (l.foldl (enqueue p?) found).1.size ∧
        (l.foldl (enqueue p?) found).1.sequent j = q ∧
        ∀ p, p? = some p → (p, j) ∈ (l.foldl (enqueue p?) found).1.edges := by
  induction l generalizing found with
  | nil => exact ⟨⟨h, .refl _, rfl⟩, by simp⟩
  | cons q l ih =>
    have hext : (found.1.assert q p?).1.Extends found.1 := assert_extends
    have h' := h.assert (hl q mem_cons_self)
    obtain ⟨hstage, hall⟩ := @ih (enqueue p? found q) h' fun q' hq' =>
      (hl q' (mem_cons_of_mem q hq')).of_extends hext
    obtain ⟨hlt, hseq, hedge⟩ := @assert_spec found.1 q p?
    rw [foldl_cons]
    refine ⟨IsStageOf.trans ⟨h', hext, failure_assert⟩ hstage, fun q' hq' => ?_⟩
    rcases mem_cons.1 hq' with rfl | hq'
    · exact ⟨_, hlt.trans_le hstage.isExtension.size_le,
        (hstage.isExtension.sequent _ hlt).trans hseq,
        fun p hp => hstage.isExtension.edge _ (hedge p hp)⟩
    · exact hall q' hq'

/-- Expanding a node and deriving its obligations closes it. -/
theorem derive_spec (h : T.IsDerived sp labels a) (hid : id < T.size) {state : StateId}
    (hstate : T.stateOf id = state) {sets : List FormulaSet}
    (hsets : (T.sequent id).formulae.expand (valuation sp labels state) = .obligations sets) :
    ((T.markNode id).derive id sets (sp.checkSuccessors state)).1.IsStageOf sp labels a T ∧
      ((T.markNode id).derive id sets (sp.checkSuccessors state)).1.IsClosedAt sp labels id := by
  subst hstate
  have hleads (q : Sequent) : (T.sequent id).Leads sp labels q ↔
      q ∈ sets.flatMap fun s =>
        (sp.checkSuccessors (T.stateOf id)).map fun t => Sequent.mk t s := by
    rw [Sequent.leads_iff hsets]
    simp only [mem_flatMap, mem_map]
    constructor
    · exact fun ⟨hstate, hset⟩ => ⟨q.formulae, hset, q.state, hstate, rfl⟩
    · rintro ⟨s, hs, t, ht, rfl⟩
      exact ⟨ht, hs⟩
  have hadmits (q : Sequent) (hq : (T.sequent id).Leads sp labels q) :
      (T.markNode id).Admits sp labels a (some id) q := by
    refine ⟨by simp, fun p hp => ?_⟩
    obtain rfl := Option.some.inj hp
    rw [size_markNode, sequent_markNode]
    exact ⟨hid, hq⟩
  rw [derive_eq]
  obtain ⟨hstage, hall⟩ := @foldl_enqueue _ (some id) sp labels a (T.markNode id, []) _
    (h.markNode id) fun q hq => hadmits q ((hleads q).2 hq)
  have hext := markNode_extends.trans hstage.isExtension
  have hseq := hext.sequent id hid
  refine ⟨⟨hstage.isDerived, hext, hstage.failure⟩, ?_, fun q hq => ?_⟩
  · rw [hseq, ← Sequent.expand_eq_failed_iff]
    exact fun hf => Expansion.noConfusion (hsets.symm.trans hf)
  · obtain ⟨j, -, hj, hedge⟩ := hall q ((hleads q).1 (hseq ▸ hq))
    exact ⟨j, hedge id rfl, hj⟩

/-! ### Saturating -/

theorem saturate_of_le {steps cursor : Nat} (h : T.size ≤ cursor) :
    saturate sp labels steps cursor T = T := by
  cases steps with
  | zero => rfl
  | succ steps => rw [saturate, if_neg (by omega)]

theorem saturate_of_failed {steps cursor : Nat} (h : cursor < T.size) (hT : T.failure = none)
    (hf : (T.sequent cursor).formulae.expand (valuation sp labels (T.stateOf cursor)) = .failed) :
    saturate sp labels (steps + 1) cursor T =
      { T.markNode cursor with failure := some cursor } := by
  simp only [saturate, if_pos h, expand_of_failed hf, hT]
  rfl

theorem saturate_of_obligations {steps cursor : Nat} {sets : List FormulaSet} (h : cursor < T.size)
    (hsets : (T.sequent cursor).formulae.expand (valuation sp labels (T.stateOf cursor)) =
      .obligations sets) :
    saturate sp labels (steps + 1) cursor T = saturate sp labels steps (cursor + 1)
      ((T.markNode cursor).derive cursor sets (sp.checkSuccessors (T.stateOf cursor))).1 := by
  simp only [saturate, if_pos h, expand_of_obligations hsets]

/-- A tableau in which the search met a node that cannot hold. -/
def HasFailing (sp : StateSpace fp) (labels : Labelling) (T : Tableau) : Prop :=
  ∃ i, i < T.size ∧ T.failure = some i ∧ (T.sequent i).IsFailing sp labels

/-- Saturation keeps a tableau derived. It meets a node that cannot hold, or it closes every node,
or the steps run out before the nodes do. -/
theorem saturate_spec {steps cursor : Nat} (h : T.IsDerived sp labels a) (hT : T.failure = none)
    (hcursor : cursor ≤ T.size) (hclosed : ∀ i, i < cursor → T.IsClosedAt sp labels i) :
    (saturate sp labels steps cursor T).IsDerived sp labels a ∧
      (saturate sp labels steps cursor T).Extends T ∧
      ((saturate sp labels steps cursor T).HasFailing sp labels ∨
        (saturate sp labels steps cursor T).failure = none ∧
          ((saturate sp labels steps cursor T).IsClosed sp labels ∨
            steps + cursor ≤ (saturate sp labels steps cursor T).size)) := by
  induction steps generalizing T cursor with
  | zero => exact ⟨h, .refl T, .inr ⟨hT, .inr (by simpa [saturate] using hcursor)⟩⟩
  | succ steps ih =>
    by_cases hlt : cursor < T.size
    · cases hsets : (T.sequent cursor).formulae.expand
          (valuation sp labels (T.stateOf cursor)) with
      | failed =>
        rw [saturate_of_failed hlt hT hsets]
        refine ⟨h.congr size_markNode (fun _ => sequent_markNode) (fun _ => parent_markNode) rfl,
          ⟨size_markNode.ge, fun i _ => sequent_markNode, fun _ he => he⟩,
          .inl ⟨cursor, hlt.trans_le size_markNode.ge, rfl, ?_⟩⟩
        have hseq : (T.markNode cursor).sequent cursor = T.sequent cursor := sequent_markNode
        exact hseq ▸ Sequent.expand_eq_failed_iff.1 hsets
      | obligations sets =>
        rw [saturate_of_obligations hlt hsets]
        obtain ⟨hstage, hclosed'⟩ := derive_spec h hlt rfl hsets
        have hext := hstage.isExtension
        rw [show steps + 1 + cursor = steps + (cursor + 1) by omega]
        obtain ⟨hder, hext', hend⟩ :=
          @ih _ (cursor + 1) hstage.isDerived (hstage.failure.trans hT)
            (hlt.trans_le hext.size_le) fun i hi => by
              rcases Nat.lt_succ_iff_lt_or_eq.1 hi with hi | rfl
              · exact (hclosed i hi).of_extends (by omega) h hext
              · exact hclosed'
        exact ⟨hder, hext.trans hext', hend⟩
    · rw [saturate_of_le (by omega)]
      exact ⟨h, .refl T, .inr ⟨hT, .inl fun i hi => hclosed i (by omega)⟩⟩

theorem ofRoots_eq (l : List StateId) :
    ofRoots a l = ((l.map (Sequent.root a)).foldl (enqueue none) ({}, [])).1 := by
  have hfst (l : List Sequent) : (l.foldl (enqueue none) ({}, [])).1 =
      l.foldl (fun T q => (T.assert q none).1) {} := (foldl_hom Prod.fst fun _ _ => rfl).symm
  rw [hfst, foldl_map]
  rfl

private theorem ofRoots_spec : (ofRoots a sp.initial).IsStageOf sp labels a {} ∧
    ∀ q ∈ sp.initial.map (Sequent.root a), ∃ j, j < (ofRoots a sp.initial).size ∧
      (ofRoots a sp.initial).sequent j = q ∧
      ∀ p, none = some p → (p, j) ∈ (ofRoots a sp.initial).edges := by
  rw [ofRoots_eq]
  refine @foldl_enqueue _ none sp labels a ({}, []) _ isDerived_empty fun q hq => ?_
  obtain ⟨id, hid, rfl⟩ := mem_map.1 hq
  exact admits_root hid

/-- The roots make a derived tableau that has not failed. -/
theorem ofRoots_isStageOf : (ofRoots a sp.initial).IsStageOf sp labels a {} :=
  ofRoots_spec.1

/-- Every initial state has a root. -/
theorem exists_root {id : StateId} (h : id ∈ sp.initial) :
    ∃ i, i < (ofRoots a sp.initial).size ∧
      (ofRoots a sp.initial).sequent i = Sequent.root a id := by
  obtain ⟨i, hi, hseq, -⟩ := (@ofRoots_spec _ sp (fun _ _ => false) a).2 _ (mem_map_of_mem h)
  exact ⟨i, hi, hseq⟩

end Tableau

namespace StateSpace

variable {sp : StateSpace fp}

/-! ### The size of a tableau -/

/-- The states that are initial or the target of a step, possibly with repetitions. -/
def mentioned (sp : StateSpace fp) : List StateId :=
  sp.initial ++ sp.entries.toList.flatMap fun e => e.edges.map Prod.snd

theorem length_mentioned : sp.mentioned.length = sp.initial.length + sp.edgeCount := by
  rw [mentioned, length_append, edgeCount, Nat.add_left_cancel_iff]
  induction sp.entries.toList with
  | nil => rfl
  | cons e l ih => simp [ih]

theorem mem_mentioned_of_mem_edges {id : StateId} {e : EdgeKind × StateId} (h : e ∈ sp.edges id) :
    e.2 ∈ sp.mentioned := by
  rw [edges] at h
  split at h
  · next entry hentry =>
    have hmem : entry ∈ sp.entries.toList := by
      rw [Array.mem_toList_iff]
      exact Array.mem_of_getElem? hentry
    exact mem_append_right _ (mem_flatMap.2 ⟨entry, hmem, mem_map_of_mem h⟩)
  · simp at h

theorem mem_mentioned_of_mem_checkSuccessors {id next : StateId}
    (h : next ∈ sp.checkSuccessors id) : next ∈ sp.mentioned := by
  rw [checkSuccessors, mem_eraseDups, mem_flatMap] at h
  obtain ⟨⟨kind, target⟩, he, hnext⟩ := h
  cases kind with
  | flow | loop =>
    rw [throughEdge, mem_singleton] at hnext
    · exact hnext ▸ mem_mentioned_of_mem_edges he
    · simp
  | unfolding =>
    rw [throughEdge, mem_map] at hnext
    obtain ⟨e, he, rfl⟩ := hnext
    exact mem_mentioned_of_mem_edges (mem_filter.1 he).1

end StateSpace

namespace Tableau.IsDerived

variable {T : Tableau} {sp : StateSpace fp} {labels : Labelling} {a : Formula} {i : Nat}

variable (h : T.IsDerived sp labels a)
include h

theorem induction {P : Sequent → Prop} (hroot : ∀ id ∈ sp.initial, P (Sequent.root a id))
    (hleads : ∀ q q', P q → q.Leads sp labels q' → P q') (hi : i < T.size) : P (T.sequent i) := by
  induction i using Nat.strongRecOn with
  | ind i ih =>
    cases hp : T.parent i with
    | none =>
      obtain ⟨id, hid, heq⟩ := h.root i hi hp
      exact heq ▸ hroot id hid
    | some p =>
      obtain ⟨hpi, hedge⟩ := h.parent i p hp
      exact hleads _ _ (ih p hpi (hpi.trans hi)) (h.edge p i hedge).2.2

theorem state_mem_mentioned (hi : i < T.size) : (T.sequent i).state ∈ sp.mentioned := by
  refine h.induction (P := fun q => q.state ∈ sp.mentioned) ?_ ?_ hi
  · exact fun id hid => mem_append_left _ hid
  · exact fun q q' _ hq => StateSpace.mem_mentioned_of_mem_checkSuccessors hq.state

/-- All formulae are subformulae of the formula that is checked. -/
theorem mem_subformulae (hi : i < T.size) {b : Formula} (hb : b ∈ (T.sequent i).formulae) :
    b ∈ a.subformulae := by
  refine h.induction (P := fun q => ∀ b ∈ q.formulae, b ∈ a.subformulae) ?_ ?_ hi b hb
  · intro id _ b hb
    rw [Sequent.root, SortedSet.mem_ofList, mem_singleton] at hb
    simp [hb]
  · rintro q q' hq ⟨-, trail, leaf, hbranch, heq⟩ b hb
    rw [heq, FormulaSet.mem_bodies] at hb
    obtain ⟨e, he, hbe⟩ := hbranch.next_mem_subformulae hb
    exact Formula.mem_subformulae_trans (hq e he) hbe

/-- There are finitely many sequents: a state and a set of subformulae each. -/
theorem size_le_card : T.size ≤ sp.mentioned.toFinset.card * 2 ^ a.subformulae.toFinset.card := by
  let code (i : Nat) : StateId × Finset Formula :=
    ((T.sequent i).state, (T.sequent i).formulae.toList.toFinset)
  have hinj : Set.InjOn code (Finset.range T.size) := by
    intro i hi j hj hij
    obtain ⟨hstate, hformulae⟩ := Prod.mk.inj hij
    rw [Finset.coe_range, Set.mem_Iio] at hi hj
    refine h.inj i j hi hj ?_
    have : (T.sequent i).formulae = (T.sequent j).formulae := by
      ext b
      rw [SortedSet.mem_def, SortedSet.mem_def, ← mem_toFinset, hformulae, mem_toFinset]
    cases hqi : T.sequent i
    cases hqj : T.sequent j
    simp_all
  have hmaps : Set.MapsTo code (Finset.range T.size)
      ((sp.mentioned.toFinset ×ˢ a.subformulae.toFinset.powerset : Finset _) : Set _) := by
    intro i hi
    rw [Finset.coe_range, Set.mem_Iio] at hi
    rw [Finset.mem_coe, Finset.mem_product, mem_toFinset, Finset.mem_powerset]
    refine ⟨h.state_mem_mentioned hi, fun b hb => ?_⟩
    rw [mem_toFinset] at hb ⊢
    exact h.mem_subformulae hi hb
  have hcard := Finset.card_le_card_of_injOn code hmaps hinj
  rwa [Finset.card_range, Finset.card_product, Finset.card_powerset] at hcard

theorem size_le : T.size ≤ (sp.initial.length + sp.edgeCount) * 2 ^ a.size := by
  refine h.size_le_card.trans (Nat.mul_le_mul ?_ (Nat.pow_le_pow_right (by omega) ?_))
  · rw [← StateSpace.length_mentioned]
    exact toFinset_card_le _
  · rw [← Formula.length_subformulae]
    exact toFinset_card_le _

end Tableau.IsDerived

namespace StateSpace

variable (sp : StateSpace fp) (labels : Labelling) (a : Formula)

/-! ### The tableau of a check -/

/-- The tableau that a formula is checked with. -/
def tableau : Tableau :=
  Tableau.saturate sp labels (Tableau.sequentBound sp a) 0 (Tableau.ofRoots a sp.initial)

theorem check_eq : sp.check labels a = (sp.tableau labels a).verdict :=
  rfl

variable {sp labels a}

private theorem tableau_spec : (sp.tableau labels a).IsDerived sp labels a ∧
    (sp.tableau labels a).Extends (Tableau.ofRoots a sp.initial) ∧
    ((sp.tableau labels a).HasFailing sp labels ∨ (sp.tableau labels a).failure = none ∧
      ((sp.tableau labels a).IsClosed sp labels ∨
        Tableau.sequentBound sp a + 0 ≤ (sp.tableau labels a).size)) := by
  have hroots := @Tableau.ofRoots_isStageOf _ sp labels a
  exact Tableau.saturate_spec hroots.isDerived hroots.failure (Nat.zero_le _)
    fun i hi => absurd hi (Nat.not_lt_zero i)

theorem tableau_isDerived : (sp.tableau labels a).IsDerived sp labels a :=
  tableau_spec.1

/-- Every initial state has a root in the tableau. -/
theorem exists_root_tableau {id : StateId} (h : id ∈ sp.initial) :
    ∃ i, i < (sp.tableau labels a).size ∧ (sp.tableau labels a).sequent i = Sequent.root a id := by
  obtain ⟨i, hi, heq⟩ := Tableau.exists_root (a := a) h
  have hext := (@tableau_spec _ sp labels a).2.1
  exact ⟨i, hi.trans_le hext.size_le, (hext.sequent i hi).trans heq⟩

/-- The search for sequents ends: with one that cannot hold, or with all of them. -/
theorem tableau_cases : (sp.tableau labels a).HasFailing sp labels ∨
    (sp.tableau labels a).failure = none ∧ (sp.tableau labels a).IsClosed sp labels := by
  refine (@tableau_spec _ sp labels a).2.2.imp_right fun ⟨hnone, hend⟩ => ⟨hnone, ?_⟩
  refine hend.resolve_right fun hle => ?_
  have hsize := (@tableau_isDerived _ sp labels a).size_le
  have hbound : Tableau.sequentBound sp a =
    (sp.initial.length + sp.edgeCount) * 2 ^ a.size + 1 := rfl
  omega

theorem isClosed_of_failure_eq_none (h : (sp.tableau labels a).failure = none) :
    (sp.tableau labels a).IsClosed sp labels := by
  rcases @tableau_cases _ sp labels a with ⟨i, -, hi, -⟩ | ⟨-, hclosed⟩
  · simp [h] at hi
  · exact hclosed

theorem isFailing_of_failure_eq_some {i : Nat} (h : (sp.tableau labels a).failure = some i) :
    i < (sp.tableau labels a).size ∧ ((sp.tableau labels a).sequent i).IsFailing sp labels := by
  rcases @tableau_cases _ sp labels a with ⟨j, hlt, hj, hf⟩ | ⟨hnone, -⟩
  · obtain rfl : i = j := Option.some.inj (h.symm.trans hj)
    exact ⟨hlt, hf⟩
  · simp [h] at hnone

end StateSpace

end ShapeCheck
