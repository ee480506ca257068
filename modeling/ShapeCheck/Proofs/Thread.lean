import ShapeCheck.Proofs.Run
import ShapeCheck.Proofs.Verdict

/-!
# Threads of a tableau

A *thread* is an infinite sequence of inferences, each from the sequent that the one before it ends
with. It runs along a sequence of states, and it is a run over the word of these states
(`IsThread.run`), so a formula holds on a path if and only if all threads from its root along the
path are justified. The threads from the roots of a closed tableau are the ones that stay inside it.

Two constructions give paths on which the checked formula fails. From any sequent of a tableau, a
failure on the states that follow is carried back to an initial state. Inside a component with a
cycle that no release justifies, a thread can be made to visit an inference against every release.
-/

namespace ShapeCheck

open Relation

variable {fp : State → Nat} {sp : StateSpace fp} {labels : Labelling} {a b : Formula}

/-- A derivation of one sequent from another, with the branch that it takes. -/
structure Inference where
  source : Sequent
  target : Sequent
  trail : List FormulaSet
  leaf : FormulaSet
  deriving Inhabited

namespace Inference

/-- The target stands at a successor and has the formulae that the branch leaves. -/
structure IsValid (sp : StateSpace fp) (labels : Labelling) (d : Inference) : Prop where
  state : d.target.state ∈ sp.checkSuccessors d.source.state
  branch : FormulaSet.Branch (Tableau.valuation sp labels d.source.state) d.source.formulae d.trail
    d.leaf
  formulae : d.target.formulae = d.leaf.bodies

/-- A release is in the source, and its second argument is not met on the branch. -/
def Upholds (d : Inference) (a b : Formula) : Prop :=
  .release a b ∈ d.source.formulae ∧ ∀ u ∈ d.trail, b ∉ u

theorem IsValid.leads {d : Inference} (h : d.IsValid sp labels) :
    d.source.Leads sp labels d.target :=
  ⟨h.state, d.trail, d.leaf, h.branch, h.formulae⟩

theorem exists_of_leads {q q' : Sequent} (h : q.Leads sp labels q') :
    ∃ d : Inference, d.IsValid sp labels ∧ d.source = q ∧ d.target = q' := by
  obtain ⟨hstate, trail, leaf, hbranch, heq⟩ := h
  exact ⟨⟨q, q', trail, leaf⟩, ⟨hstate, hbranch, heq⟩, rfl, rfl⟩

end Inference

/-- An infinite sequence of inferences along a sequence of states. -/
structure IsThread (sp : StateSpace fp) (labels : Labelling) (π : Nat → StateId)
    (e : Nat → Inference) : Prop where
  isValid : ∀ i, (e i).IsValid sp labels
  target : ∀ i, (e i).target = (e (i + 1)).source
  state : ∀ i, (e i).source.state = π i

/-- From some position on, all inferences of a thread uphold the same release. -/
def IsJustifiedThread (e : Nat → Inference) : Prop :=
  ∃ a b n, ∀ i, n ≤ i → (e i).Upholds a b

variable {π : Nat → StateId} {e : Nat → Inference}

namespace IsThread

theorem step (h : IsThread sp labels π e) (i : Nat) : π (i + 1) ∈ sp.checkSuccessors (π i) := by
  have hstate := (h.isValid i).state
  rwa [h.target i, h.state, h.state] at hstate

/-- The branches of a thread make a run over the word of its states. -/
def run (h : IsThread sp labels π e) : FormulaSet.Run (sp.word labels π) where
  sets i := (e i).source.formulae
  trail i := (e i).trail
  leaf i := (e i).leaf
  branch i := by
    have hbranch := (h.isValid i).branch
    rwa [h.state] at hbranch
  sets_succ i := by rw [← h.target, (h.isValid i).formulae]

theorem isJustified_of_holds (h : IsThread sp labels π e)
    (hholds : (e 0).source.formulae.Holds (sp.word labels π) 0) : IsJustifiedThread e :=
  FormulaSet.Run.isJustified_of_holds (r := h.run) hholds

end IsThread

/-- The inferences that a run makes along a sequence of states. -/
def FormulaSet.Run.thread {w : Word} (r : FormulaSet.Run w) (π : Nat → StateId) (i : Nat) :
    Inference where
  source := ⟨π i, r.sets i⟩
  target := ⟨π (i + 1), r.sets (i + 1)⟩
  trail := r.trail i
  leaf := r.leaf i

theorem FormulaSet.Run.isThread (r : FormulaSet.Run (sp.word labels π))
    (hπ : ∀ i, π (i + 1) ∈ sp.checkSuccessors (π i)) : IsThread sp labels π (r.thread π) where
  isValid i := ⟨hπ i, r.branch i, r.sets_succ i⟩
  target _ := rfl
  state _ := rfl

/-- A set holds along a path if and only if all its threads along the path are justified. -/
theorem holds_iff_forall_thread (hπ : ∀ i, π (i + 1) ∈ sp.checkSuccessors (π i)) {s : FormulaSet} :
    s.Holds (sp.word labels π) 0 ↔
      ∀ e, IsThread sp labels π e → (e 0).source = ⟨π 0, s⟩ → IsJustifiedThread e := by
  constructor
  · intro hs e he h0
    refine he.isJustified_of_holds ?_
    rwa [h0]
  · intro h
    refine FormulaSet.holds_iff_forall_run.2 fun r hr => ?_
    refine h (r.thread π) (r.isThread hπ) ?_
    rw [FormulaSet.Run.thread, hr]

/-- A formula holds on a path if and only if all threads from its root along the path are justified.
-/
theorem holds_iff_forall_root_thread (hπ : ∀ i, π (i + 1) ∈ sp.checkSuccessors (π i)) :
    a.Holds (sp.word labels π) 0 ↔
      ∀ e, IsThread sp labels π e → (e 0).source = Sequent.root a (π 0) → IsJustifiedThread e := by
  rw [Sequent.root, ← holds_iff_forall_thread hπ]
  simp [FormulaSet.Holds, SortedSet.mem_ofList]

theorem Sequent.IsFailing.not_holds {q : Sequent} (h : q.IsFailing sp labels) (h0 : π 0 = q.state) :
    ¬ q.formulae.Holds (sp.word labels π) 0 := by
  obtain ⟨trail, hbranch⟩ := h
  rw [← h0] at hbranch
  rintro ⟨f, hf, hholds⟩
  have hbranch : FormulaSet.Branch (sp.word labels π 0) q.formulae trail ∅ := hbranch
  obtain ⟨g, hg, -⟩ := hbranch.exists_of_holds hf hholds
  rw [FormulaSet.mem_bodies] at hg
  exact SortedSet.not_mem_empty hg

namespace Tableau

variable {T : Tableau} {i : Nat} {C : List Nat}

theorem IsClosed.exists_nodes (hclosed : T.IsClosed sp labels) (hT : T.IsDerived sp labels a)
    (he : IsThread sp labels π e) (hi : i < T.size) (h0 : T.sequent i = (e 0).source) :
    ∃ ν : Nat → Nat, (∀ k, ν k < T.size ∧ T.sequent (ν k) = (e k).source) ∧
      ∀ k, (ν k, ν (k + 1)) ∈ T.edges := by
  have hstep (k : Nat) (j : { j // j < T.size ∧ T.sequent j = (e k).source }) :
      ∃ j' : { j // j < T.size ∧ T.sequent j = (e (k + 1)).source }, (j.1, j'.1) ∈ T.edges := by
    obtain ⟨j, hj, hseq⟩ := j
    have hleads : (T.sequent j).Leads sp labels (e (k + 1)).source := by
      rw [hseq, ← he.target]
      exact (he.isValid k).leads
    obtain ⟨j', hedge, hseq'⟩ := (hclosed j hj).edge _ hleads
    exact ⟨⟨j', (hT.edge j j' hedge).2.1, hseq'⟩, hedge⟩
  choose next hnext using hstep
  let ν (k : Nat) : { j // j < T.size ∧ T.sequent j = (e k).source } := Nat.rec ⟨i, hi, h0⟩ next k
  exact ⟨fun k => (ν k).1, fun k => (ν k).2, fun k => hnext k (ν k)⟩

theorem IsDerived.exists_isThread (hT : T.IsDerived sp labels a) {ν : Nat → Nat}
    (hν : ∀ k, T.graph.Edge (ν k) (ν (k + 1))) :
    ∃ e, IsThread sp labels (fun k => T.stateOf (ν k)) e ∧ ∀ k, T.sequent (ν k) = (e k).source := by
  have hinference (k : Nat) := Inference.exists_of_leads (hT.edge _ _ (hT.edge_graph.1 (hν k))).2.2
  choose e hvalid hsource htarget using hinference
  refine ⟨e, ⟨hvalid, fun k => (htarget k).trans (hsource (k + 1)).symm, fun k => ?_⟩,
    fun k => (hsource k).symm⟩
  rw [hsource]
  rfl

theorem IsDerived.reachable (hT : T.IsDerived sp labels a) (hi : i < T.size) :
    sp.Reachable (T.sequent i).state := by
  refine hT.induction (P := fun q => sp.Reachable q.state) ?_ ?_ hi
  · exact fun id hid => .initial hid
  · exact fun q q' hq hleads => .step hq hleads.state

theorem IsDerived.exists_isPath_of_not_holds (hT : T.IsDerived sp labels a) (hi : i < T.size)
    (h0 : π 0 = (T.sequent i).state) (hπ : ∀ i, π (i + 1) ∈ sp.checkSuccessors (π i))
    (hfail : ¬ (T.sequent i).formulae.Holds (sp.word labels π) 0) :
    ∃ ρ, sp.IsPath ρ ∧ ¬ a.Holds (sp.word labels ρ) 0 := by
  refine hT.induction (P := fun q => ∀ π : Nat → StateId, π 0 = q.state →
    (∀ i, π (i + 1) ∈ sp.checkSuccessors (π i)) → ¬ q.formulae.Holds (sp.word labels π) 0 →
      ∃ ρ, sp.IsPath ρ ∧ ¬ a.Holds (sp.word labels ρ) 0) ?_ ?_ hi π h0 hπ hfail
  · intro id hid π h0 hπ hfail
    refine ⟨π, ⟨?_, hπ⟩, fun ha => hfail ⟨a, ?_, ha⟩⟩
    · rw [h0]
      exact hid
    · simp [Sequent.root, SortedSet.mem_ofList]
  · rintro q q' ih ⟨hstate, trail, leaf, hbranch, heq⟩ π h0 hπ hfail
    -- the path with the state of the earlier sequent in front
    let ρ (i : Nat) : StateId := Nat.casesOn i q.state π
    have hρ (i : Nat) : ρ (i + 1) ∈ sp.checkSuccessors (ρ i) := by
      cases i with
      | zero =>
        show π 0 ∈ sp.checkSuccessors q.state
        rwa [h0]
      | succ i => exact hπ i
    refine ih ρ rfl hρ ?_
    rintro ⟨f, hf, hholds⟩
    have hbranch : FormulaSet.Branch (sp.word labels ρ 0) q.formulae trail leaf := hbranch
    obtain ⟨g, hg, hgholds, -⟩ := hbranch.exists_of_holds hf hholds
    refine hfail ⟨g, heq ▸ hg, ?_⟩
    exact (@Formula.holds_shift_iff (sp.word labels ρ) g 0 1).2 hgholds

/-- An inference between sequents of a component. -/
structure IsInner (sp : StateSpace fp) (labels : Labelling) (T : Tableau) (C : List Nat)
    (d : Inference) : Prop where
  isValid : d.IsValid sp labels
  source : ∃ v ∈ C, T.sequent v = d.source
  target : ∃ v ∈ C, T.sequent v = d.target

/-- All inferences between sequents of a component uphold the same release. -/
def IsUpheld (sp : StateSpace fp) (labels : Labelling) (T : Tableau) (C : List Nat) : Prop :=
  ∃ a b, ∀ d, IsInner sp labels T C d → d.Upholds a b

/-- Two inner inferences of which the second starts where the first ends. -/
private def InnerStep (sp : StateSpace fp) (labels : Labelling) (T : Tableau) (C : List Nat)
    (d d' : Inference) : Prop :=
  IsInner sp labels T C d ∧ IsInner sp labels T C d' ∧ d.target = d'.source

namespace IsDerived

variable {components : Graph → List (List Nat)} [Graph.Decomposes components]
  (hT : T.IsDerived sp labels a)
include hT

theorem exists_isInner {v w : Nat} (hv : v ∈ C) (hw : w ∈ C) (hvw : T.graph.Edge v w) :
    ∃ d, IsInner sp labels T C d ∧ d.source = T.sequent v ∧ d.target = T.sequent w := by
  have hleads := (hT.edge v w (hT.edge_graph.1 hvw)).2.2
  obtain ⟨d, hd, hsource, htarget⟩ := Inference.exists_of_leads hleads
  exact ⟨d, ⟨hd, ⟨v, hv, hsource.symm⟩, w, hw, htarget.symm⟩, hsource, htarget⟩

theorem exists_isInner_source (hC : C ∈ components T.graph) (hcycle : hasCycle T.graph C) {v : Nat}
    (hv : v ∈ C) :
    ∃ d, IsInner sp labels T C d ∧ d.source = T.sequent v := by
  have hself := transGen_of_hasCycle hT.inRange_graph hC hcycle hv hv
  obtain ⟨w, hvw, hwv⟩ := TransGen.head'_iff.1 hself
  have hw : w ∈ C := mem_of_reach hT.inRange_graph hC hv (.single hvw) hwv
  obtain ⟨d, hd, hsource, -⟩ := hT.exists_isInner hv hw hvw
  exact ⟨d, hd, hsource⟩

theorem isJustified_of_isUpheld (hC : C ∈ components T.graph) (hcycle : hasCycle T.graph C)
    (h : IsUpheld sp labels T C) : T.isJustified C := by
  obtain ⟨a, b, hab⟩ := h
  refine (isJustified_iff (ne_nil_of_mem_components hT.inRange_graph hC)).2 ⟨a, b, fun v hv => ?_⟩
  obtain ⟨d, hd, hsource⟩ := hT.exists_isInner_source hC hcycle hv
  exact hsource ▸ (hab d hd).1

private theorem transGen_innerStep (hC : C ∈ components T.graph) {d d' : Inference}
    (hd : IsInner sp labels T C d) (hd' : IsInner sp labels T C d') :
    TransGen (InnerStep sp labels T C) d d' := by
  obtain ⟨v, hv, hvd⟩ := hd.target
  obtain ⟨w, hw, hwd⟩ := hd'.source
  have hreach := reach_of_mem_components hT.inRange_graph hC hv hw
  induction hreach using ReflTransGen.head_induction_on generalizing d with
  | refl => exact .single ⟨hd, hd', hvd.symm.trans hwd⟩
  | @head v u hvu huw ih =>
    have hwv := reach_of_mem_components hT.inRange_graph hC hw hv
    have hu : u ∈ C := mem_of_reach hT.inRange_graph hC hv (.single hvu) (huw.trans hwv)
    obtain ⟨d'', hd'', hsource, htarget⟩ := hT.exists_isInner hv hu hvu
    exact .head ⟨hd, hd'', hvd.symm.trans hsource.symm⟩ (ih hd'' hu htarget.symm)

theorem exists_isThread_of_not_isUpheld (hC : C ∈ components T.graph) (h : ¬ IsUpheld sp labels T C)
    :
    ∃ e, IsThread sp labels (fun i => (e i).source.state) e ∧ ¬ IsJustifiedThread e ∧
      ∃ v ∈ C, T.sequent v = (e 0).source := by
  have hagainst (f g : Formula) : ∃ d, IsInner sp labels T C d ∧ ¬ d.Upholds f g := by
    by_contra hall
    refine h ⟨f, g, fun d hd => ?_⟩
    by_contra hfg
    exact hall ⟨d, hd, hfg⟩
  choose d hd hnot using hagainst
  -- a tour over an inference against every release that can occur
  let against : List Inference := a.subformulae.flatMap fun f => a.subformulae.map (d f)
  have hinner (x : Inference) (hx : x ∈ d a a :: against) : IsInner sp labels T C x := by
    rcases List.mem_cons.1 hx with rfl | hx
    · exact hd a a
    · obtain ⟨f, -, hx⟩ := List.mem_flatMap.1 hx
      obtain ⟨g, -, rfl⟩ := List.mem_map.1 hx
      exact hd f g
  obtain ⟨c, hchain, hall⟩ := @exists_tour _ (InnerStep sp labels T C) (d a a) against
    fun x hx y hy => hT.transGen_innerStep hC (hinner x hx) (hinner y hy)
  let e : Nat → Inference := unroll [] (d a a :: c)
  have hstep (i : Nat) : InnerStep sp labels T C (e i) (e (i + 1)) := rel_unroll_succ hchain i
  refine ⟨e, ⟨fun i => (hstep i).1.isValid, fun i => (hstep i).2.2, fun _ => rfl⟩, ?_,
    (hstep 0).1.source⟩
  rintro ⟨f, g, n, hn⟩
  have hsub : Formula.release f g ∈ a.subformulae := by
    obtain ⟨v, hv, hsource⟩ := (hstep n).1.source
    exact hT.mem_subformulae (hT.lt_size_of_mem hC hv) (hsource ▸ (hn n (Nat.le_refl n)).1)
  have hvisit : d f g ∈ d a a :: c := by
    obtain ⟨hf, hg⟩ := Formula.mem_subformulae_of_release hsub
    have hmem : d f g ∈ against := List.mem_flatMap.2 ⟨f, hf, List.mem_map_of_mem hg⟩
    exact List.mem_cons_of_mem _ (hall _ hmem)
  obtain ⟨i, hi, -, hei⟩ := @exists_unroll_eq _ _ [] c (d a a) _ hvisit n
  have hup := hn i hi
  rw [show e i = d f g from hei] at hup
  exact hnot f g hup

theorem exists_isPath_of_not_isUpheld (hC : C ∈ components T.graph) (h : ¬ IsUpheld sp labels T C) :
    ∃ ρ, sp.IsPath ρ ∧ ¬ a.Holds (sp.word labels ρ) 0 := by
  obtain ⟨e, he, hnot, v, hv, hsource⟩ := hT.exists_isThread_of_not_isUpheld hC h
  refine @exists_isPath_of_not_holds _ _ _ _ (fun i => (e i).source.state) _ _ hT
    (hT.lt_size_of_mem hC hv) ?_ he.step ?_
  · rw [hsource]
  · rw [hsource]
    exact fun hholds => hnot (he.isJustified_of_holds hholds)

end IsDerived

end Tableau

end ShapeCheck
