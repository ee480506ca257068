import ShapeCheck.Proofs.Lasso
import ShapeCheck.Proofs.Waiting

/-!
# Reported paths are paths of the space

A violation is reported as a path: states that are passed once, and states that repeat. Whatever
order the sequents of a tableau were expanded in, its verdict reports a path of the space that
starts in an initial state, and a cycle that closes. A path without a cycle ends in a sequent that
cannot hold, and then the formula fails on every infinite path that begins with it: the failure is
carried back along the parents, one sequent at a time.

A search on the fly expands sequents in the order in which their states come up. What it keeps is
that its tableau is derived and that the sequents open at a state stand at that state, so the
verdict of its tableau is as good as that of a saturated one.
-/

namespace ShapeCheck

open List

variable {fp : State → Nat} {sp : StateSpace fp} {labels : Labelling} {a : Formula}

/-- A reported path runs along the steps of a space from an initial state, its cycle closes, and if
it has no cycle, the formula fails on every infinite path that begins with it. -/
structure Counterexample.IsGenuine (sp : StateSpace fp) (labels : Labelling) (a : Formula)
    (c : Counterexample) : Prop where
  /-- The path starts in an initial state. -/
  initial : ∃ s ∈ sp.initial, c.states.head? = some s
  /-- Every state is followed by one of its successors. -/
  step : List.IsChain (fun s t => t ∈ sp.checkSuccessors s) c.states
  /-- The first state of the cycle is a successor of the last one. -/
  closes : ∀ s t, c.cycle.getLast? = some s → c.cycle.head? = some t → t ∈ sp.checkSuccessors s
  /-- Without a cycle, no continuation of the path satisfies the formula. -/
  fails : c.cycle = [] → ∀ π, sp.IsPath π → (∀ i s, c.stem[i]? = some s → π i = s) →
    ¬ a.Holds (sp.word labels π) 0

theorem Sequent.Leads.not_holds {q q' : Sequent} (h : q.Leads sp labels q') {π : Nat → StateId}
    (h0 : π 0 = q.state)
    (hfail : ¬ q'.formulae.Holds (sp.word labels fun i => π (i + 1)) 0) :
    ¬ q.formulae.Holds (sp.word labels π) 0 := by
  obtain ⟨-, trail, leaf, hbranch, heq⟩ := h
  rintro ⟨f, hf, hholds⟩
  rw [← h0] at hbranch
  have hbranch : FormulaSet.Branch (sp.word labels π 0) q.formulae trail leaf := hbranch
  obtain ⟨g, hg, hgholds, -⟩ := hbranch.exists_of_holds hf hholds
  refine hfail ⟨g, heq ▸ hg, ?_⟩
  exact (@Formula.holds_shift_iff (sp.word labels π) g 0 1).2 hgholds

namespace Tableau

variable {T : Tableau} {id : Nat}

theorem IsDerived.mem_checkSuccessors (hT : T.IsDerived sp labels a) {v w : Nat}
    (h : T.graph.Edge v w) : T.stateOf w ∈ sp.checkSuccessors (T.stateOf v) :=
  (hT.edge v w (hT.edge_graph.1 h)).2.2.state

/-- A failure at the end of a chain of steps is carried back to its beginning, whatever states
follow the chain. -/
theorem IsDerived.not_holds_of_isChain (hT : T.IsDerived sp labels a) {v : Nat} {nodes : List Nat}
    (hchain : List.IsChain T.graph.Edge (v :: nodes))
    (hlast : ∀ w, (v :: nodes).getLast? = some w → (T.sequent w).IsFailing sp labels)
    {π : Nat → StateId} (hπ : ∀ i s, ((v :: nodes).map T.stateOf)[i]? = some s → π i = s) :
    ¬ (T.sequent v).formulae.Holds (sp.word labels π) 0 := by
  induction nodes generalizing v π with
  | nil => exact (hlast v rfl).not_holds (hπ 0 _ rfl)
  | cons w nodes ih =>
    obtain ⟨hedge, hchain⟩ := isChain_cons_cons.1 hchain
    have hleads := (hT.edge v w (hT.edge_graph.1 hedge)).2.2
    refine hleads.not_holds (hπ 0 _ rfl) (ih hchain (fun u hu => hlast u ?_) fun i s hs => ?_)
    · rwa [getLast?_cons_cons]
    · exact hπ (i + 1) s hs

/-- The verdict of a derived tableau reports a genuine path, provided that a recorded failure is
one, in whatever way components are found. -/
theorem IsDerived.isGenuine_of_verdict {components : Graph → List (List Nat)}
    [Graph.Decomposes components] (hT : T.IsDerived sp labels a)
    (hfailure : ∀ i, T.failure = some i → i < T.size ∧ (T.sequent i).IsFailing sp labels)
    {c : Counterexample} (h : T.verdict components = .violated c) : c.IsGenuine sp labels a := by
  have hstep {l : List Nat} (hl : List.IsChain T.graph.Edge l) :
      List.IsChain (fun s t => t ∈ sp.checkSuccessors s) (l.map T.stateOf) :=
    (isChain_map T.stateOf).2 (hl.imp fun _ _ => hT.mem_checkSuccessors)
  rcases verdict_eq_violated h with ⟨id, hid, rfl⟩ | ⟨-, C, hC, hcycle, -, rfl⟩
  · obtain ⟨hlt, hfailing⟩ := hfailure id hid
    obtain ⟨nodes, hpath, hchain, v, s, hhead, hs, hroot⟩ := hT.climb_spec hlt hlt []
    rw [append_nil] at hpath
    have hv : T.stateOf v = s := by rw [stateOf, hroot, Sequent.root]
    refine ⟨⟨s, hs, ?_⟩, ?_, by simp, fun _ π _ hπ hholds => ?_⟩
    · rw [Counterexample.states, append_nil, pathTo, hpath, head?_map, hhead,
        Option.map_some, hv]
    · rw [Counterexample.states, append_nil, pathTo, hpath]
      exact hstep hchain
    · obtain ⟨rest, hrest⟩ : ∃ rest, nodes ++ [id] = v :: rest := by
        cases nodes with
        | nil => exact ⟨[], by simpa using hhead⟩
        | cons u nodes => exact ⟨nodes ++ [id], by simpa using hhead⟩
      rw [pathTo, hpath, hrest] at hπ
      rw [hrest] at hchain
      refine hT.not_holds_of_isChain hchain (fun w hw => ?_) hπ ⟨a, ?_, hholds⟩
      · rw [← hrest, getLast?_concat] at hw
        exact Option.some.inj hw ▸ hfailing
      · rw [hroot]
        simp [Sequent.root, SortedSet.mem_ofList]
  · obtain ⟨stem, entry, rest, hlasso, hchain, v, s, hhead, hs, hroot⟩ := hT.lasso_spec hC hcycle
    have hv : T.stateOf v = s := by rw [stateOf, hroot, Sequent.root]
    have hround := hstep hchain
    rw [map_append, map_singleton] at hround
    obtain ⟨hpath, -, hclose⟩ := isChain_append.1 hround
    rw [hlasso]
    refine ⟨⟨s, hs, ?_⟩, ?_, fun u t hu ht => ?_, by simp⟩
    · have hfirst : (stem ++ entry :: rest).head? = some v := by
        rw [← hhead]
        cases stem <;> rfl
      rw [Counterexample.states, ← map_append, head?_map, hfirst, Option.map_some, hv]
    · rwa [Counterexample.states, ← map_append]
    · obtain rfl : t = T.stateOf entry := by simpa using ht.symm
      refine hclose u ?_ _ rfl
      rw [map_append, getLast?_append, hu]
      rfl

end Tableau

namespace Search

variable {S : Search} {c : Checker} {id : StateId}

/-- A search on the fly over a space: it begins with initial states, states wait and are taken in
any order, and the space answers for the successors of a state. -/
inductive IsOver (sp : StateSpace fp) (labels : Labelling) (a : Formula) : Search → Prop
  | begin : IsOver sp labels a (onTheFly a labels)
  | start {S : Search} {id : StateId} (h : IsOver sp labels a S) (hid : id ∈ sp.initial) :
      IsOver sp labels a (S.start id)
  | push {S : Search} (h : IsOver sp labels a S) (id : StateId) : IsOver sp labels a (S.push id)
  | pop {S S' : Search} {id : StateId} (h : IsOver sp labels a S) (hpop : S.pop? = some (id, S')) :
      IsOver sp labels a S'
  | remove {S : Search} (h : IsOver sp labels a S) (id : StateId) : IsOver sp labels a (S.remove id)
  | expanded {S : Search} (h : IsOver sp labels a S) (id : StateId) (fresh : List StateId) :
      IsOver sp labels a (S.expanded sp id fresh).1

end Search

/-- What a search on the fly keeps: its tableau is derived, a recorded failure is one, and the
sequents that are open at a state stand at that state. -/
structure Checker.IsSound (sp : StateSpace fp) (labels : Labelling) (a : Formula) (c : Checker) :
    Prop where
  formula : c.formula = a
  labelling : c.labels = labels
  isDerived : c.tableau.IsDerived sp labels a
  failure : ∀ i, c.tableau.failure = some i →
    i < c.tableau.size ∧ (c.tableau.sequent i).IsFailing sp labels
  awaits : ∀ id i, c.Awaits id i → i < c.tableau.size ∧ c.tableau.stateOf i = id

namespace Checker.IsSound

variable {c c' : Checker} {id : StateId} {T : Tableau} {i : Nat}

variable (h : c.IsSound sp labels a)
include h

theorem of_extends (hT : T.IsDerived sp labels a) (hext : T.Extends c.tableau)
    (hfailure : ∀ i, T.failure = some i → i < T.size ∧ (T.sequent i).IsFailing sp labels) :
    IsSound sp labels a { c with tableau := T } :=
  ⟨h.formula, h.labelling, hT, hfailure, fun id i hi => hext.stands (h.awaits id i hi)⟩

theorem of_isStageOf (hT : T.IsStageOf sp labels a c.tableau) :
    IsSound sp labels a { c with tableau := T } :=
  h.of_extends hT.isDerived hT.isExtension fun i hi => by
    obtain ⟨hlt, hfailing⟩ := h.failure i (hT.failure ▸ hi)
    exact ⟨hlt.trans_le hT.isExtension.size_le, hT.isExtension.sequent i hlt ▸ hfailing⟩

theorem record_failure (hlt : i < c.tableau.size)
    (hfailing : (c.tableau.sequent i).IsFailing sp labels) : IsSound sp labels a { c with tableau :=
      { c.tableau.markNode i with failure := c.tableau.failure <|> some i } } := by
  have hmark := @Tableau.markNode_extends c.tableau i
  refine h.of_extends (h.isDerived.congr Tableau.size_markNode (fun _ => Tableau.sequent_markNode)
    (fun _ => Tableau.parent_markNode) rfl) ⟨hmark.size_le, hmark.sequent, hmark.edge⟩ fun j hj => ?_
  have hj' : j < c.tableau.size ∧ (c.tableau.sequent j).IsFailing sp labels := by
    cases hf : c.tableau.failure with
    | some k => exact h.failure j (hj ▸ by rw [hf]; rfl)
    | none =>
      obtain rfl : i = j := Option.some.inj (by simpa [hf] using hj)
      exact ⟨hlt, hfailing⟩
  exact ⟨hj'.1.trans_le hmark.size_le, hmark.sequent j hj'.1 ▸ hj'.2⟩

/-- Opening and closing sequents keeps a checker sound, if what is open stands at its state. -/
theorem of_awaits (heq : c' = { c with waiting := c'.waiting })
    (hawaits : ∀ id i, c'.Awaits id i → i < c.tableau.size ∧ c.tableau.stateOf i = id) :
    c'.IsSound sp labels a := by
  have htableau : c'.tableau = c.tableau := by rw [heq]
  refine ⟨?_, ?_, htableau ▸ h.isDerived, htableau ▸ h.failure, htableau ▸ hawaits⟩ <;> rw [heq]
  · exact h.formula
  · exact h.labelling

theorem develop (hlt : i < c.tableau.size) (hstate : c.tableau.stateOf i = id)
    {sets : List FormulaSet}
    (hsets : (c.tableau.sequent i).formulae.expand (Tableau.valuation sp c.labels id) =
      .obligations sets) {added : List Nat}
    (hT : (c.tableau.markNode i).derive i sets (sp.checkSuccessors id) = (T, added)) (S : Search) :
    T.IsStageOf sp labels a c.tableau ∧ T.IsClosedAt sp labels i ∧
      (awaitAll T added S { c with tableau := T }).2.IsSound sp labels a := by
  rw [h.labelling] at hsets
  obtain ⟨hstage, hclosed⟩ := Tableau.derive_spec h.isDerived hlt hstate hsets
  rw [hT] at hstage hclosed
  have hsound := h.of_isStageOf hstage
  obtain ⟨heq, -, hawaits⟩ := awaitAll_spec T added S { c with tableau := T }
  refine ⟨hstage, hclosed, hsound.of_awaits heq fun id j hj => ?_⟩
  rcases (hawaits id j).1 hj with hold | ⟨hnew, rfl⟩
  · exact hsound.awaits id j hold
  · exact ⟨((Tableau.mem_of_derive_eq hT).1 hnew).2, rfl⟩

theorem discharge {sequents : List Nat}
    (hsequents : ∀ i ∈ sequents, i < c.tableau.size ∧ c.tableau.stateOf i = id) {S S' : Search}
    {failed : Bool}
    (hr : Search.discharge sp id (sp.checkSuccessors id) sequents S c = (S', c', failed)) :
    c'.IsSound sp labels a := by
  refine (Search.discharge_induction (P := fun todo _ c => c.IsSound sp labels a ∧
      ∀ i ∈ todo, i < c.tableau.size ∧ c.tableau.stateOf i = id)
    (fun {i todo S c sets T added} hP hsets hT => ?_) ⟨h, hsequents⟩ hr).elim
    (fun hend => hend.2.1) ?_
  · obtain ⟨⟨hlt, hstate⟩, htodo⟩ := forall_mem_cons.1 hP.2
    obtain ⟨hstage, -, hsound⟩ := hP.1.develop hlt hstate hsets hT S
    refine ⟨hsound, fun j hj => ?_⟩
    rw [(awaitAll_spec T added S { c with tableau := T }).1]
    exact hstage.isExtension.stands (htodo j hj)
  · rintro ⟨-, i, todo, c₀, ⟨h, htodo⟩, hfailed, rfl⟩
    obtain ⟨hlt, hstate⟩ := htodo i mem_cons_self
    rw [h.labelling, ← hstate] at hfailed
    exact h.record_failure hlt (Sequent.expand_eq_failed_iff.1 hfailed)

end Checker.IsSound

namespace Search

open Checker

variable {S : Search} {id : StateId}

theorem exists_checker_start {c : Checker} (hS : S.checker? = some c)
    (hc : c.IsSound sp labels a) (hid : id ∈ sp.initial) :
    ∃ c, (S.start id).checker? = some c ∧ c.IsSound sp labels a := by
  rcases start_cases hS id with ⟨heq, -⟩ | ⟨T, hT, hassert, heq⟩ <;> rw [heq]
  · exact ⟨c, hS, hc⟩
  · have hstage : T.IsStageOf sp labels a c.tableau := by
      rw [← hassert, hc.formula]
      exact ⟨hc.isDerived.assert (Tableau.admits_root hid), Tableau.assert_extends,
        Tableau.failure_assert⟩
    have hsound := hc.of_isStageOf hstage
    refine ⟨_, rfl, hsound.of_awaits rfl fun id' j hj => ?_⟩
    rcases awaits_await.1 hj with hj | ⟨rfl, rfl⟩
    · exact hsound.awaits id' j hj
    · rw [hT]
      refine ⟨by simp, ?_⟩
      rw [Tableau.stateOf, Tableau.sequent_pushNode, if_pos rfl, Sequent.root]

/-- Expanding a state keeps a search sound. A verdict is the one of its tableau. -/
theorem exists_checker_expanded {c : Checker} (hS : S.checker? = some c)
    (hc : c.IsSound sp labels a) (id : StateId) (fresh : List StateId) :
    ∃ c, (S.expanded sp id fresh).1.checker? = some c ∧ c.IsSound sp labels a ∧
      ∀ v, (S.expanded sp id fresh).2 = some v → v = c.tableau.verdict := by
  rcases expanded_cases hS sp id fresh with
    ⟨-, heq⟩ | ⟨sequents, S', c', failed, hfind, hr, heq⟩ <;> rw [heq]
  · exact ⟨c, hS, hc, by simp⟩
  · have herase : IsSound sp labels a { c with waiting := c.waiting.erase id } :=
      hc.of_awaits rfl fun id' i hi => hc.awaits id' i (awaits_erase.1 hi).2
    have hsound := herase.discharge (fun i hi => hc.awaits id i ⟨sequents, hfind, hi⟩) hr
    cases failed with
    | false => exact ⟨c', rfl, hsound, by simp⟩
    | true => exact ⟨{ c' with waiting := ∅ }, rfl, hsound.of_awaits rfl (by simp [Awaits]), by simp⟩

theorem IsOver.exists_checker (h : IsOver sp labels a S) :
    ∃ c, S.checker? = some c ∧ c.IsSound sp labels a := by
  induction h with
  | begin =>
    exact ⟨_, rfl, rfl, rfl, Tableau.isDerived_empty, by simp, by simp [Awaits]⟩
  | start _ hid ih =>
    obtain ⟨c, hS, hc⟩ := ih
    exact exists_checker_start hS hc hid
  | push _ _ ih | remove _ _ ih => exact ih
  | @pop S S' id _ hpop ih =>
    rw [pop?] at hpop
    split at hpop
    · cases hpop
    · cases hpop
      exact ih
  | expanded _ id fresh ih =>
    obtain ⟨c, hS, hc⟩ := ih
    obtain ⟨c', hS', hc', -⟩ := exists_checker_expanded hS hc id fresh
    exact ⟨c', hS', hc'⟩

/-- The verdict of a search on the fly, while it goes on or when it has finished, is the verdict of
a sound tableau. -/
theorem IsOver.isGenuine (h : IsOver sp labels a S) {c : Counterexample}
    (hv : S.finish = some (.violated c) ∨
      ∃ id fresh, (S.expanded sp id fresh).2 = some (.violated c)) : c.IsGenuine sp labels a := by
  obtain ⟨c₀, hS, hc₀⟩ := h.exists_checker
  rcases hv with hv | ⟨id, fresh, hv⟩
  · rw [finish, hS] at hv
    exact hc₀.isDerived.isGenuine_of_verdict hc₀.failure (Option.some.inj hv)
  · obtain ⟨c₁, -, hc₁, hverdict⟩ := exists_checker_expanded hS hc₀ id fresh
    exact hc₁.isDerived.isGenuine_of_verdict hc₁.failure (hverdict _ hv).symm

/-- Driving a search keeps to searches over the space, and a verdict comes from one of them. -/
theorem IsOver.driveFrom (h : IsOver sp labels a S) (steps : Nat) :
    IsOver sp labels a (Search.driveFrom sp steps S).1 ∧
      ∀ v, (Search.driveFrom sp steps S).2.1 = some v → ∃ S', IsOver sp labels a S' ∧
        ∃ id fresh, (S'.expanded sp id fresh).2 = some v := by
  induction steps generalizing S with
  | zero => exact ⟨h, by simp [Search.driveFrom]⟩
  | succ steps ih =>
    rw [Search.driveFrom]
    cases hpop : S.pop? with
    | none => exact ⟨h, by simp⟩
    | some next =>
      obtain ⟨id, S'⟩ := next
      have hS' := h.pop hpop
      rcases hexp : S'.expanded sp id [] with ⟨S'', v?⟩
      have hS'' : IsOver sp labels a S'' := by
        have := hS'.expanded id []
        rwa [hexp] at this
      cases v? with
      | some v =>
        simp only [hexp]
        exact ⟨hS'', fun w hw => ⟨S', hS', id, [], hexp ▸ hw⟩⟩
      | none =>
        simp only [hexp]
        exact ih hS''

theorem isGenuine_of_drive {c : Counterexample} (h : (drive sp labels a).1 = .violated c) :
    c.IsGenuine sp labels a := by
  have hstart (l : List StateId) (hl : ∀ id ∈ l, id ∈ sp.initial) {S : Search}
      (hS : IsOver sp labels a S) : IsOver sp labels a (l.foldl start S) := by
    induction l generalizing S with
    | nil => exact hS
    | cons id l ih =>
      exact ih (fun x hx => hl x (by simp [hx])) (hS.start (hl id (by simp)))
  obtain ⟨hend, hverdict⟩ := (hstart sp.initial (fun _ h => h) .begin).driveFrom
    (Tableau.sequentBound sp a)
  rcases hdrive : Search.driveFrom sp (Tableau.sequentBound sp a)
      (sp.initial.foldl start (onTheFly a labels)) with ⟨S, v?, ids⟩
  rw [hdrive] at hend hverdict
  simp only [drive, hdrive] at h
  cases v? with
  | some v =>
    obtain ⟨S', hS', hv⟩ := hverdict v rfl
    rw [Option.getD_some] at h
    exact hS'.isGenuine (.inr (h ▸ hv))
  | none =>
    obtain ⟨c₀, hS, hc₀⟩ := hend.exists_checker
    have hfinish : S.finish = some (.violated c) := by
      rw [finish, hS, ← h]
      simp [show S.checker? = some c₀ from hS]
    exact hend.isGenuine (.inl hfinish)

end Search

/-- Whether a formula is checked on a finished space or on the fly, in any order of states, a
violation is reported by a path of the space from an initial state whose cycle closes; and if it
has no cycle, the formula fails on every infinite path that begins with it. -/
theorem StateSpace.isGenuine_of_violated {c : Counterexample}
    (h : sp.check labels a = .violated c ∨ (Search.drive sp labels a).1 = .violated c ∨
      ∃ S, Search.IsOver sp labels a S ∧ (S.finish = some (.violated c) ∨
        ∃ id fresh, (S.expanded sp id fresh).2 = some (.violated c))) :
    c.IsGenuine sp labels a := by
  rcases h with h | h | ⟨S, hS, h⟩
  · exact tableau_isDerived.isGenuine_of_verdict (fun i => isFailing_of_failure_eq_some) h
  · exact Search.isGenuine_of_drive h
  · exact hS.isGenuine h

/-- Always `p` fails after two steps, whatever follows. -/
theorem StateSpace.isGenuine_always :
    (ofTargets [[1], [2], [0, 1]]).check (Labelling.atLines [0, 1]) (.release .bot (.atom "p")) =
        .violated ⟨[0, 1, 2], []⟩ ∧
      Counterexample.IsGenuine (ofTargets [[1], [2], [0, 1]]) (Labelling.atLines [0, 1])
        (.release .bot (.atom "p")) ⟨[0, 1, 2], []⟩ := by
  have hcheck : (ofTargets [[1], [2], [0, 1]]).check (Labelling.atLines [0, 1])
      (.release .bot (.atom "p")) = .violated ⟨[0, 1, 2], []⟩ := by decide +kernel
  exact ⟨hcheck, isGenuine_of_violated (.inl hcheck)⟩

end ShapeCheck
