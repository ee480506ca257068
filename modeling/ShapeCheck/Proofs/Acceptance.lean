import ShapeCheck.Proofs.Verdict

/-!
# Obligations and the verdict on them

A formula that is checked at some states gives rise to *obligations*: to meet one, all that it leads
to have to be met. Obligations are met as a whole if none of those that arise fails by itself, and
if every cycle of them has a release formula that all obligations on it share. A tableau computes
with obligations; the sequents over a state space are obligations too, and so are the sequents over
any other system of states.

Whether obligations are met does not depend on how they are numbered or found. If one system of
obligations simulates another one, and each obligation of the latter has only one counterpart, then
the cycles of the latter are cycles of the former. So a tableau that simulates the sequents of a
space in both directions gives the verdict on the space, in whatever order its sequents were found.
-/

namespace ShapeCheck

open Relation

/-- Obligations, each of which leads to others. -/
structure Obligations (ν : Type) where
  /-- The obligations to begin with. -/
  root : ν → Prop
  /-- What has to be met in order to meet an obligation. -/
  leads : ν → ν → Prop
  /-- The obligations that cannot be met. -/
  fails : ν → Prop
  /-- The formulae of which an obligation asks that one holds. -/
  formulae : ν → FormulaSet

namespace Obligations

variable {ν μ : Type}

/-- An obligation that a root leads to. -/
def Arises (G : Obligations ν) (q : ν) : Prop :=
  ∃ r, G.root r ∧ ReflTransGen G.leads r q

/-- Nothing that arises fails, and the obligations of a cycle share a release. -/
structure IsMet (G : Obligations ν) : Prop where
  not_fails : ∀ q, G.Arises q → ¬ G.fails q
  justified : ∀ q, G.Arises q → TransGen G.leads q q → ∃ a b, ∀ q',
    ReflTransGen G.leads q q' → ReflTransGen G.leads q' q → .release a b ∈ G.formulae q'

/-- The obligations of one system have counterparts in another one, one each. -/
structure IsSimulation (G : Obligations ν) (H : Obligations μ) (R : ν → μ → Prop) : Prop where
  root : ∀ x, G.root x → ∃ y, R x y ∧ H.Arises y
  leads : ∀ x y x', R x y → G.leads x x' → ∃ y', R x' y' ∧ H.leads y y'
  fails : ∀ x y, R x y → G.fails x → H.fails y
  formulae : ∀ x y, R x y → G.formulae x = H.formulae y
  unique : ∀ x y y', R x y → R x y' → y = y'

namespace IsSimulation

variable {G : Obligations ν} {H : Obligations μ} {R : ν → μ → Prop} {x x' : ν} {y : μ}

theorem reflTransGen (h : IsSimulation G H R) (hxy : R x y) (hx : ReflTransGen G.leads x x') :
    ∃ y', R x' y' ∧ ReflTransGen H.leads y y' := by
  induction hx with
  | refl => exact ⟨y, hxy, .refl⟩
  | tail _ hstep ih =>
    obtain ⟨z, hz, hyz⟩ := ih
    obtain ⟨z', hz', hstep'⟩ := h.leads _ _ _ hz hstep
    exact ⟨z', hz', hyz.tail hstep'⟩

theorem transGen (h : IsSimulation G H R) (hxy : R x y) (hx : TransGen G.leads x x') :
    ∃ y', R x' y' ∧ TransGen H.leads y y' := by
  obtain ⟨z, hxz, hz⟩ := TransGen.tail'_iff.1 hx
  obtain ⟨w, hw, hyw⟩ := h.reflTransGen hxy hxz
  obtain ⟨w', hw', hstep⟩ := h.leads _ _ _ hw hz
  exact ⟨w', hw', TransGen.tail' hyw hstep⟩

theorem arises (h : IsSimulation G H R) (hx : G.Arises x) : ∃ y, R x y ∧ H.Arises y := by
  obtain ⟨r, hr, hrx⟩ := hx
  obtain ⟨s, hrs, t, ht, hts⟩ := h.root r hr
  obtain ⟨y, hxy, hsy⟩ := h.reflTransGen hrs hrx
  exact ⟨y, hxy, t, ht, hts.trans hsy⟩

/-- Obligations are met if their counterparts are. A cycle of obligations is a cycle of counterparts
because there is only one counterpart to come back to. -/
theorem isMet (h : IsSimulation G H R) (hH : H.IsMet) : G.IsMet where
  not_fails x hx hfails := by
    obtain ⟨y, hxy, hy⟩ := h.arises hx
    exact hH.not_fails y hy (h.fails x y hxy hfails)
  justified x hx hcycle := by
    obtain ⟨y, hxy, hy⟩ := h.arises hx
    obtain ⟨y', hxy', hyy'⟩ := h.transGen hxy hcycle
    obtain rfl := h.unique x y y' hxy hxy'
    obtain ⟨a, b, hshared⟩ := hH.justified y hy hyy'
    refine ⟨a, b, fun x' hto hback => ?_⟩
    obtain ⟨z, hz, hyz⟩ := h.reflTransGen hxy hto
    obtain ⟨y'', hy'', hzy⟩ := h.reflTransGen hz hback
    obtain rfl := h.unique x y y'' hxy hy''
    exact h.formulae x' z hz ▸ hshared z hyz hzy

end IsSimulation

end Obligations

namespace Tableau

/-- The nodes of a tableau as obligations, some of which are known to fail. -/
def obligations (T : Tableau) (fails : Nat → Prop) : Obligations Nat where
  root i := i < T.size ∧ T.parent i = none
  leads i j := (i, j) ∈ T.edges
  fails := fails
  formulae i := (T.sequent i).formulae

variable {fp : State → Nat} {sp : StateSpace fp} {labels : Labelling} {a : Formula} {T : Tableau}
  {fails : Nat → Prop}

theorem IsDerived.arises (hT : T.IsDerived sp labels a) {i : Nat} (hi : i < T.size) :
    (T.obligations fails).Arises i := by
  induction i using Nat.strongRecOn with
  | ind i ih =>
    cases hp : T.parent i with
    | none => exact ⟨i, ⟨hi, hp⟩, .refl⟩
    | some p =>
      obtain ⟨hpi, hedge⟩ := hT.parent i p hp
      obtain ⟨r, hr, hrp⟩ := ih p hpi (hpi.trans hi)
      exact ⟨r, hr, hrp.tail hedge⟩

theorem IsDerived.lt_size_of_arises (hT : T.IsDerived sp labels a) {i : Nat}
    (hi : (T.obligations fails).Arises i) : i < T.size := by
  obtain ⟨r, hr, hri⟩ := hi
  rcases ReflTransGen.cases_tail hri with rfl | ⟨j, -, hj⟩
  · exact hr.1
  · exact (hT.edge j i hj).2.1

variable {components : Graph → List (List Nat)} [Graph.Decomposes components]

theorem IsDerived.verdict_eq_satisfied_iff_of_not_fails (hT : T.IsDerived sp labels a)
    (hfailure : T.failure = none) (hfails : ∀ i, i < T.size → ¬ fails i) :
    T.verdict components = .satisfied ↔ (T.obligations fails).IsMet := by
  have hleads : T.graph.Edge = (T.obligations fails).leads := by
    funext v w
    exact propext hT.edge_graph
  have hreach : T.graph.Reach = ReflTransGen (T.obligations fails).leads :=
    congrArg ReflTransGen hleads
  have hrange := hT.inRange_graph
  rw [verdict_eq_satisfied_iff]
  constructor
  · rintro ⟨-, hall⟩
    refine ⟨fun i hi => hfails i (hT.lt_size_of_arises hi), fun i hi hcycle => ?_⟩
    obtain ⟨C, hC, hmem⟩ := @Graph.Decomposes.exists_mem components _ _ _ hrange
      (size_graph ▸ hT.lt_size_of_arises hi : i < T.graph.size)
    have hjustified := hall C hC (hasCycle_of_transGen hrange hC hmem (hleads ▸ hcycle))
    obtain ⟨f, g, hshared⟩ := (isJustified_iff (ne_nil_of_mem_components hrange hC)).1 hjustified
    refine ⟨f, g, fun j hij hji => hshared j (mem_of_reach hrange hC hmem ?_ ?_)⟩
    · exact hreach ▸ hij
    · exact hreach ▸ hji
  · intro hmet
    refine ⟨hfailure, fun C hC hcycle => ?_⟩
    have hne := ne_nil_of_mem_components hrange hC
    obtain ⟨v, hv⟩ := List.exists_mem_of_ne_nil C hne
    obtain ⟨f, g, hshared⟩ := hmet.justified v (hT.arises (hT.lt_size_of_mem hC hv))
      (hleads ▸ transGen_of_hasCycle hrange hC hcycle hv hv)
    refine (isJustified_iff hne).2 ⟨f, g, fun w hw => hshared w ?_ ?_⟩
    · exact hreach ▸ reach_of_mem_components hrange hC hv hw
    · exact hreach ▸ reach_of_mem_components hrange hC hw hv

/-- A tableau whose nodes have counterparts among some obligations gives the verdict on these,
provided that it has met a failure or that conversely the obligations have counterparts in it. -/
theorem IsDerived.verdict_eq_satisfied_iff_isMet {μ : Type} {H : Obligations μ} {R : Nat → μ → Prop}
    (hT : T.IsDerived sp labels a) (hsim : (T.obligations fails).IsSimulation H R)
    (hend : (∃ i, i < T.size ∧ T.failure = some i ∧ fails i) ∨
      T.failure = none ∧ (∀ i, i < T.size → ¬ fails i) ∧
        H.IsSimulation (T.obligations fails) (flip R)) :
    T.verdict components = .satisfied ↔ H.IsMet := by
  rcases hend with ⟨i, hi, hfailure, hfails⟩ | ⟨hfailure, hfails, hconv⟩
  · have hviolated : T.verdict components ≠ .satisfied := fun h => by
      simpa [hfailure] using (verdict_eq_satisfied_iff.1 h).1
    exact iff_of_false hviolated fun hH => (hsim.isMet hH).not_fails i (hT.arises hi) hfails
  · rw [hT.verdict_eq_satisfied_iff_of_not_fails hfailure hfails]
    exact ⟨hconv.isMet, hsim.isMet⟩

end Tableau

/-- The sequents over a space as obligations: the formula is asserted at the initial states. -/
def StateSpace.obligations {fp : State → Nat} (sp : StateSpace fp) (labels : Labelling)
    (a : Formula) : Obligations Sequent where
  root q := ∃ id ∈ sp.initial, q = Sequent.root a id
  leads := Sequent.Leads sp labels
  fails := Sequent.IsFailing sp labels
  formulae := Sequent.formulae

namespace Tableau

variable {fp : State → Nat} {sp : StateSpace fp} {labels : Labelling} {a : Formula} {T : Tableau}

/-- The initial states have their roots in a tableau. -/
def IsRooted (sp : StateSpace fp) (a : Formula) (T : Tableau) : Prop :=
  ∀ id ∈ sp.initial, ∃ i, i < T.size ∧ T.sequent i = Sequent.root a id

/-- The node carries the sequent. -/
def Carries (T : Tableau) (i : Nat) (q : Sequent) : Prop :=
  i < T.size ∧ T.sequent i = q

theorem IsDerived.isSimulation (hT : T.IsDerived sp labels a) :
    (T.obligations fun i => (T.sequent i).IsFailing sp labels).IsSimulation
      (sp.obligations labels a) T.Carries where
  root i hi := ⟨T.sequent i, ⟨hi.1, rfl⟩, T.sequent i, hT.root i hi.1 hi.2, .refl⟩
  leads := by
    rintro i _ j ⟨-, rfl⟩ hij
    obtain ⟨-, hj, hleads⟩ := hT.edge i j hij
    exact ⟨T.sequent j, ⟨hj, rfl⟩, hleads⟩
  fails := by
    rintro i _ ⟨-, rfl⟩ hi
    exact hi
  formulae := by
    rintro i _ ⟨-, rfl⟩
    rfl
  unique := by
    rintro i _ _ ⟨-, rfl⟩ ⟨-, rfl⟩
    rfl

theorem IsDerived.isSimulation_of_isClosed (hT : T.IsDerived sp labels a)
    (hroot : T.IsRooted sp a) (hclosed : T.IsClosed sp labels) :
    (sp.obligations labels a).IsSimulation
      (T.obligations fun i => (T.sequent i).IsFailing sp labels) (flip T.Carries) where
  root := by
    rintro _ ⟨id, hid, rfl⟩
    obtain ⟨i, hi, heq⟩ := hroot id hid
    exact ⟨i, ⟨hi, heq⟩, hT.arises hi⟩
  leads := by
    rintro _ i q ⟨hi, rfl⟩ hq
    obtain ⟨j, hij, rfl⟩ := (hclosed i hi).edge q hq
    exact ⟨j, ⟨(hT.edge i j hij).2.1, rfl⟩, hij⟩
  fails := by
    rintro _ i ⟨-, rfl⟩ hi
    exact hi
  formulae := by
    rintro _ i ⟨-, rfl⟩
    rfl
  unique := by
    rintro q i j ⟨hi, rfl⟩ ⟨hj, heq⟩
    exact hT.inj i j hi hj heq.symm

/-- A derived tableau that has met a failure, or holds all that the roots lead to. -/
structure IsComplete (sp : StateSpace fp) (labels : Labelling) (a : Formula) (T : Tableau) :
    Prop where
  isDerived : T.IsDerived sp labels a
  ended : T.HasFailing sp labels ∨ T.failure = none ∧ T.IsRooted sp a ∧ T.IsClosed sp labels

/-- The verdict of a complete tableau decides whether the sequents over the space can be met, in
whatever way components are found. -/
theorem IsComplete.verdict_eq_satisfied_iff {components : Graph → List (List Nat)}
    [Graph.Decomposes components] (h : T.IsComplete sp labels a) :
    T.verdict components = .satisfied ↔ (sp.obligations labels a).IsMet := by
  refine h.isDerived.verdict_eq_satisfied_iff_isMet h.isDerived.isSimulation ?_
  rcases h.ended with hfailing | ⟨hnone, hroot, hclosed⟩
  · exact .inl hfailing
  · exact .inr ⟨hnone, fun i hi => (hclosed i hi).not_isFailing,
      h.isDerived.isSimulation_of_isClosed hroot hclosed⟩

end Tableau

theorem StateSpace.isComplete_tableau {fp : State → Nat} {sp : StateSpace fp} {labels : Labelling}
    {a : Formula} : (sp.tableau labels a).IsComplete sp labels a where
  isDerived := tableau_isDerived
  ended := tableau_cases.imp_right fun ⟨hnone, hclosed⟩ =>
    ⟨hnone, fun _ => exists_root_tableau, hclosed⟩

end ShapeCheck
