import ShapeCheck.Proofs.Component
import ShapeCheck.Proofs.Cycle
import ShapeCheck.Proofs.Derivation

/-!
# What a verdict says about a tableau

A verdict looks at the graph of the recorded steps. This file states what it finds in terms of the
steps: the components are the classes of nodes that can be reached from each other, a component
contains a cycle if some node of it can be reached from itself, and a component is justified if its
sequents share a release. An infinite sequence of steps ends in one component.
-/

namespace ShapeCheck

open List

namespace Tableau

open Relation

variable {T : Tableau}

/-- Add an edge unless it is present. -/
private def addEdge (g : Graph) (e : Nat × Nat) : Graph :=
  g.modify e.1 fun targets => if e.2 ∈ targets then targets else e.2 :: targets

private theorem mem_next_addEdge {g : Graph} {e : Nat × Nat} {v w : Nat} :
    w ∈ (addEdge g e).next v ↔ w ∈ g.next v ∨ (v, w) = e ∧ v < g.size := by
  obtain ⟨u, x⟩ := e
  rw [Graph.next, addEdge, Array.getElem?_modify, Graph.next]
  by_cases hlt : v < g.size
  · rw [Array.getElem?_eq_getElem hlt]
    by_cases hu : u = v
    · subst hu
      simp only [if_true, Option.map_some, Option.getD_some, Prod.mk.injEq, true_and, hlt, and_true]
      split_ifs with hx
      · exact ⟨.inl, fun h => h.elim id fun hw => hw ▸ hx⟩
      · rw [mem_cons, or_comm]
    · simp [hu, Ne.symm hu]
  · simp [hlt]

private theorem foldl_addEdge_spec (l : List (Nat × Nat)) (g : Graph) :
    (l.foldl addEdge g).size = g.size ∧
      ∀ v w, w ∈ (l.foldl addEdge g).next v ↔ w ∈ g.next v ∨ (v, w) ∈ l ∧ v < g.size := by
  induction l generalizing g with
  | nil => simp
  | cons e l ih =>
    obtain ⟨hsize, hmem⟩ := ih (addEdge g e)
    have hsame : (addEdge g e).size = g.size := Array.size_modify
    refine ⟨hsize.trans hsame, fun v w => ?_⟩
    rw [foldl_cons, hmem, mem_next_addEdge, hsame, mem_cons]
    tauto

private theorem graph_eq : T.graph = T.edges.toList.foldl addEdge (Array.replicate T.size []) :=
  Array.foldl_toList addEdge |>.symm

theorem size_graph : T.graph.size = T.size := by
  rw [graph_eq, (foldl_addEdge_spec _ _).1, Array.size_replicate]

theorem edge_graph_iff {v w : Nat} : T.graph.Edge v w ↔ (v, w) ∈ T.edges ∧ v < T.size := by
  have hnil : w ∉ Graph.next (Array.replicate T.size []) v := by
    simp only [Graph.next, Array.getElem?_replicate]
    split <;> simp
  rw [Graph.Edge, graph_eq, (foldl_addEdge_spec _ _).2]
  simp [hnil]

variable {fp : State → Nat} {sp : StateSpace fp} {labels : Labelling} {a : Formula}

theorem IsDerived.edge_graph (h : T.IsDerived sp labels a) {v w : Nat} :
    T.graph.Edge v w ↔ (v, w) ∈ T.edges := by
  rw [edge_graph_iff]
  exact ⟨fun h => h.1, fun hvw => ⟨hvw, (h.edge v w hvw).1⟩⟩

theorem IsDerived.inRange_graph (h : T.IsDerived sp labels a) : T.graph.InRange := by
  intro v w hvw
  rw [size_graph]
  exact (h.edge v w (h.edge_graph.1 hvw)).2.1

variable {g : Graph} {C : List Nat} {components : Graph → List (List Nat)}
  [Graph.Decomposes components]

section

variable (hg : g.InRange) (hC : C ∈ components g)
include hg hC

theorem reach_of_mem_components {v w : Nat} (hv : v ∈ C) (hw : w ∈ C) : g.Reach v w := by
  obtain ⟨u, -, -, hmem⟩ := Graph.Decomposes.exists_of_mem hg hC
  exact ((hmem v).1 hv).2.trans ((hmem w).1 hw).1

theorem mem_of_reach {v w : Nat} (hv : v ∈ C) (hvw : g.Reach v w) (hwv : g.Reach w v) : w ∈ C := by
  obtain ⟨u, -, -, hmem⟩ := Graph.Decomposes.exists_of_mem hg hC
  obtain ⟨huv, hvu⟩ := (hmem v).1 hv
  exact (hmem w).2 ⟨huv.trans hvw, hwv.trans hvu⟩

theorem transGen_of_hasCycle (hcycle : hasCycle g C) {v w : Nat} (hv : v ∈ C) (hw : w ∈ C) :
    TransGen g.Edge v w := by
  have hne {v w : Nat} (hv : v ∈ C) (hw : w ∈ C) (hvw : v ≠ w) : TransGen g.Edge v w :=
    (reflTransGen_iff_eq_or_transGen.1 (reach_of_mem_components hg hC hv hw)).resolve_left
      (Ne.symm hvw)
  by_cases hvw : v = w
  · subst hvw
    by_cases hother : ∃ x ∈ C, v ≠ x
    · obtain ⟨x, hx, hvx⟩ := hother
      exact (hne hv hx hvx).trans (hne hx hv (Ne.symm hvx))
    · -- the node is alone in its component, so the cycle is a step to itself
      obtain ⟨-, -, hnodup, -⟩ := Graph.Decomposes.exists_of_mem hg hC
      match C, hnodup, hcycle with
      | [id], _, hcycle =>
        obtain rfl : v = id := by simpa using hv
        exact .single (by simpa [hasCycle, Graph.Edge] using hcycle)
      | id :: id' :: rest, hnodup, _ =>
        refine absurd ?_ hother
        by_cases hid : v = id
        · refine ⟨id', by simp, fun hid' => ?_⟩
          simp [← hid, ← hid'] at hnodup
        · exact ⟨id, by simp, hid⟩
  · exact hne hv hw hvw

theorem hasCycle_of_transGen {v : Nat} (hv : v ∈ C) (h : TransGen g.Edge v v) : hasCycle g C := by
  match C, hC, hv with
  | [id], hC, hv =>
    obtain rfl : v = id := by simpa using hv
    obtain ⟨w, hvw, hwv⟩ := TransGen.head'_iff.1 h
    have hw : w ∈ [v] := mem_of_reach hg hC hv (.single hvw) hwv
    obtain rfl : w = v := by simpa using hw
    simpa [hasCycle, Graph.Edge] using hvw
  | id :: id' :: rest, _, _ => simp [hasCycle]

end

theorem isJustified_iff (hC : C ≠ []) :
    T.isJustified C = true ↔ ∃ a b, ∀ id ∈ C, .release a b ∈ (T.sequent id).formulae := by
  match C, hC with
  | id :: rest, _ =>
    simp only [isJustified, any_eq_true, Bool.and_eq_true, all_eq_true,
      decide_eq_true_eq, forall_mem_cons]
    constructor
    · rintro ⟨f, hf, hrel, hall⟩
      cases f with
      | release a b => exact ⟨a, b, hf, hall⟩
      | _ => simp [Formula.isRelease] at hrel
    · rintro ⟨a, b, hf, hall⟩
      exact ⟨.release a b, hf, rfl, hall⟩

theorem IsDerived.lt_size_of_mem (h : T.IsDerived sp labels a) (hC : C ∈ components T.graph)
    {v : Nat} (hv : v ∈ C) : v < T.size := by
  obtain ⟨u, hu, -, hmem⟩ := Graph.Decomposes.exists_of_mem h.inRange_graph hC
  rw [← size_graph]
  exact h.inRange_graph.reach_lt hu ((hmem v).1 hv).1

theorem ne_nil_of_mem_components (hg : g.InRange) (hC : C ∈ components g) : C ≠ [] := by
  obtain ⟨v, -, -, hmem⟩ := Graph.Decomposes.exists_of_mem hg hC
  exact ne_nil_of_mem ((hmem v).2 ⟨.refl, .refl⟩)

omit [Graph.Decomposes components] in
theorem verdict_eq_satisfied_iff : T.verdict components = .satisfied ↔
    T.failure = none ∧ ∀ C ∈ components T.graph, hasCycle T.graph C → T.isJustified C := by
  cases hf : T.failure with
  | some id => simp [verdict, hf]
  | none =>
    cases hfind : (components T.graph).find?
        fun members => hasCycle T.graph members && !T.isJustified members with
    | some C =>
      have hC := find?_some hfind
      rw [Bool.and_eq_true, Bool.not_eq_true'] at hC
      simp only [verdict, hf, hfind, reduceCtorEq, true_and, false_iff]
      intro hall
      simpa [hC.2] using hall C (mem_of_find?_eq_some hfind) hC.1
    | none =>
      simp only [verdict, hf, hfind, true_and, true_iff]
      intro C hC hcycle
      simpa [hcycle] using find?_eq_none.1 hfind C hC

omit [Graph.Decomposes components] in
/-- A violation is a node that cannot hold, or a component with a cycle that is not justified. -/
theorem verdict_eq_violated {c : Counterexample} (h : T.verdict components = .violated c) :
    (∃ id, T.failure = some id ∧ c = ⟨T.pathTo id, []⟩) ∨
      T.failure = none ∧ ∃ C ∈ components T.graph, hasCycle T.graph C ∧ ¬ T.isJustified C ∧
        c = T.lasso C := by
  cases hf : T.failure with
  | some id =>
    simp only [verdict, hf, Verdict.violated.injEq] at h
    exact .inl ⟨id, rfl, h.symm⟩
  | none =>
    cases hfind : (components T.graph).find?
        fun members => hasCycle T.graph members && !T.isJustified members with
    | some C =>
      simp only [verdict, hf, hfind, Verdict.violated.injEq] at h
      have hC := find?_some hfind
      rw [Bool.and_eq_true, Bool.not_eq_true'] at hC
      exact .inr ⟨rfl, C, mem_of_find?_eq_some hfind, hC.1, by simp [hC.2], h.symm⟩
    | none => simp [verdict, hf, hfind] at h

variable (components) in
/-- An infinite sequence of steps ends in a component with a cycle. -/
theorem IsDerived.exists_component (h : T.IsDerived sp labels a) {ν : Nat → Nat}
    (hν : ∀ i, (ν i, ν (i + 1)) ∈ T.edges) :
    ∃ C ∈ components T.graph, hasCycle T.graph C ∧ ∃ n, ∀ i, n ≤ i → ν i ∈ C := by
  have hedge (i : Nat) : T.graph.Edge (ν i) (ν (i + 1)) := h.edge_graph.2 (hν i)
  have hlt (i : Nat) : ν i < T.graph.size := (hedge i).lt_size
  have hreach {i j : Nat} (hij : i < j) : TransGen T.graph.Edge (ν i) (ν j) := by
    induction j, hij using Nat.le_induction with
    | base => exact .single (hedge i)
    | succ j _ ih => exact ih.tail (hedge j)
  obtain ⟨n, hn⟩ := exists_recurrent fun i => Finset.mem_range.2 (hlt i)
  have hback {i j : Nat} (hi : n ≤ i) : TransGen T.graph.Edge (ν j) (ν i) := by
    obtain ⟨k, hjk, hk⟩ := hn i hi (j + 1)
    exact hk ▸ hreach hjk
  obtain ⟨C, hC, hmem⟩ := @Graph.Decomposes.exists_mem components _ _ _ h.inRange_graph (hlt n)
  refine ⟨C, hC, hasCycle_of_transGen h.inRange_graph hC hmem (hback (Nat.le_refl n)), n,
    fun i hi => ?_⟩
  exact mem_of_reach h.inRange_graph hC hmem (hback hi).to_reflTransGen
    (hback (Nat.le_refl n)).to_reflTransGen

end Tableau

end ShapeCheck
