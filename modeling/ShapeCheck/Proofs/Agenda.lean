import ShapeCheck.Proofs.Acceptance
import ShapeCheck.Proofs.OnTheFly

/-!
# The agenda of a search on the fly

A search on the fly expands only states at which a sequent is open. Between two states, its tableau
and its stack fit together: a sequent that has been expanded is closed, a sequent that has not been
expanded waits at its state, and the stack holds the states at which something waits, each once.
Nothing waits any more when the stack is empty, so the tableau is then closed; and if the search
stops before, it has met a sequent that fails. In both cases its verdict decides whether the
obligations over the space are met.

Every state that is taken from the stack expands a sequent that was not expanded before. There are
fewer sequents than steps, so a search that is driven over a finished space comes to its end.
-/

namespace ShapeCheck

open List

variable {fp : State → Nat} {sp : StateSpace fp} {labels : Labelling} {a : Formula}

namespace Tableau

variable {T : Tableau} {i id : Nat}

/-- Whether a node has been expanded. -/
def isMarked (T : Tableau) (i : Nat) : Bool :=
  T.nodes[i]?.any (·.expanded)

theorem lt_size_of_isMarked (h : T.isMarked i) : i < T.size := by
  by_contra hi
  rw [isMarked, Array.getElem?_eq_none (Nat.not_lt.1 hi)] at h
  simp at h

theorem isMarked_size : T.isMarked T.size = false :=
  Bool.eq_false_iff.2 fun h => (lt_size_of_isMarked h).false

@[simp]
theorem isMarked_record {p? : Option Nat} : (T.record p? id).isMarked i = T.isMarked i := by
  simp [isMarked]

theorem isMarked_assert {q : Sequent} {p? : Option Nat} :
    (T.assert q p?).1.isMarked i = T.isMarked i := by
  rcases T.assert_cases q p? with ⟨id, -, -, h⟩ | ⟨-, h⟩
  · rw [h, isMarked_record]
  · rw [h, isMarked_record, isMarked, pushNode, Array.getElem?_push]
    split
    · next hi =>
      rw [hi]
      exact isMarked_size.symm
    · rfl

theorem isMarked_markNode : (T.markNode id).isMarked i ↔ T.isMarked i ∨ i = id ∧ id < T.size := by
  simp only [isMarked, markNode, Array.getElem?_modify, size]
  by_cases hi : id = i
  · subst hi
    by_cases hlt : id < T.nodes.size <;> simp [hlt]
  · simp [hi, Ne.symm hi]

/-- The number of expanded nodes. -/
def marks (T : Tableau) : Nat :=
  ((Finset.range T.size).filter fun i => T.isMarked i).card

theorem marks_le : T.marks ≤ T.size :=
  (Finset.card_filter_le _ _).trans (Finset.card_range _).le

theorem marks_lt {T' : Tableau} (hmono : ∀ j, T.isMarked j → T'.isMarked j)
    (hi : T.isMarked i = false) (hi' : T'.isMarked i) : T.marks < T'.marks := by
  refine Finset.card_lt_card (Finset.ssubset_iff_of_subset ?_ |>.2 ⟨i, ?_, ?_⟩)
  · intro j hj
    have hj' := hmono j (Finset.mem_filter.1 hj).2
    exact Finset.mem_filter.2 ⟨Finset.mem_range.2 (lt_size_of_isMarked hj'), hj'⟩
  · exact Finset.mem_filter.2 ⟨Finset.mem_range.2 (lt_size_of_isMarked hi'), hi'⟩
  · simp [hi]

/-- All steps that deriving the obligations of a node adds start in the node, and nothing is expanded
by it. -/
theorem derive_adds {sets : List FormulaSet} {successors : List StateId} {T' : Tableau}
    {added : List Nat} (hT' : T.derive id sets successors = (T', added)) :
    (∀ e ∈ T'.edges, e ∈ T.edges ∨ e.1 = id) ∧ ∀ j, T'.isMarked j = T.isMarked j := by
  obtain rfl : T' = (T.derive id sets successors).1 := by rw [hT']
  rw [derive_eq]
  refine List.foldlRecOn _ (enqueue (some id)) (motive := fun found : Tableau × List Nat =>
    (∀ e ∈ found.1.edges, e ∈ T.edges ∨ e.1 = id) ∧ ∀ j, found.1.isMarked j = T.isMarked j)
    ⟨fun _ => .inl, fun _ => rfl⟩ fun found h q _ => ⟨fun e he => ?_, fun j => ?_⟩
  · rcases mem_edges_assert he with he | hid
    · exact h.1 e he
    · exact .inr (Option.some.inj hid).symm
  · exact isMarked_assert.trans (h.2 j)

end Tableau

namespace Checker

/-- What a search on the fly has still to do. The nodes of `todo` stand at the state that is just
being expanded. -/
structure IsAgenda (sp : StateSpace fp) (labels : Labelling) (a : Formula) (stack : List StateId)
    (todo : List Nat) (c : Checker) : Prop where
  isSound : c.IsSound sp labels a
  failure : c.tableau.failure = none
  closed : ∀ i, c.tableau.isMarked i → c.tableau.IsClosedAt sp labels i
  source : ∀ i j, (i, j) ∈ c.tableau.edges → c.tableau.isMarked i
  /-- What has not been expanded waits at its state or is about to be expanded. -/
  pending : ∀ i, i < c.tableau.size → c.tableau.isMarked i = false →
    c.Awaits (c.tableau.stateOf i) i ∨ i ∈ todo
  /-- What waits has not been expanded, and is not about to be. -/
  fresh : ∀ id i, c.Awaits id i → c.tableau.isMarked i = false ∧ i ∉ todo
  nodup : stack.Nodup
  mem_stack : ∀ id, id ∈ stack ↔ ∃ i, c.Awaits id i

variable {c c' : Checker} {S S' : Search} {id : StateId} {i : Nat}

/-- A later stage of a checker, where what was expanded in between stands at one state. -/
structure IsAdvance (id : StateId) (c c' : Checker) : Prop where
  isExtension : c'.tableau.Extends c.tableau
  marked : ∀ i, c.tableau.isMarked i → c'.tableau.isMarked i
  stateOf : ∀ i, c'.tableau.isMarked i → c.tableau.isMarked i ∨ c'.tableau.stateOf i = id

theorem IsAdvance.refl (id : StateId) (c : Checker) : IsAdvance id c c :=
  ⟨.refl _, fun _ h => h, fun _ h => .inl h⟩

theorem IsAdvance.trans {c₁ c₂ c₃ : Checker} (h : IsAdvance id c₁ c₂) (h' : IsAdvance id c₂ c₃) :
    IsAdvance id c₁ c₃ where
  isExtension := h.isExtension.trans h'.isExtension
  marked i hi := h'.marked i (h.marked i hi)
  stateOf i hi := by
    rcases h'.stateOf i hi with hi' | hstate
    · exact (h.stateOf i hi').imp_right
        (h'.isExtension.stateOf (Tableau.lt_size_of_isMarked hi')).trans
    · exact .inr hstate

namespace IsAgenda

variable {todo : List Nat} {sets : List FormulaSet}

/-- Deriving the obligations of a node that is due: the node is closed, and its new children wait
at their states. -/
theorem derive (h : c.IsAgenda sp labels a S.stack (i :: todo))
    (htodo : ∀ j ∈ i :: todo, j < c.tableau.size ∧ c.tableau.stateOf j = id)
    (hsets : (c.tableau.sequent i).formulae.expand (Tableau.valuation sp c.labels id) =
      .obligations sets) {T : Tableau} {added : List Nat}
    (hT : (c.tableau.markNode i).derive i sets (sp.checkSuccessors id) = (T, added)) :
    (awaitAll T added S { c with tableau := T }).2.IsAgenda sp labels a
        (awaitAll T added S { c with tableau := T }).1.stack todo ∧
      IsAdvance id c (awaitAll T added S { c with tableau := T }).2 ∧
      (awaitAll T added S { c with tableau := T }).2.tableau.isMarked i := by
  obtain ⟨hlt, hstate⟩ := htodo i (by simp)
  obtain ⟨hstage, hclosed, hsound⟩ := h.isSound.develop hlt hstate hsets hT S
  obtain ⟨hedges, hmarked⟩ := Tableau.derive_adds hT
  have hext := hstage.isExtension
  have hiff (j : Nat) : T.isMarked j ↔ c.tableau.isMarked j ∨ j = i := by
    rw [hmarked, Tableau.isMarked_markNode]
    exact or_congr_right (and_iff_left hlt)
  have hnew (j : Nat) : j ∈ added ↔ c.tableau.size ≤ j ∧ j < T.size := by
    simpa using Tableau.mem_of_derive_eq hT
  have hnodup := nodup_stack_awaitAll T added (c := { c with tableau := T }) h.nodup
  obtain ⟨heq, hstack, hawaits⟩ := awaitAll_spec T added S { c with tableau := T }
  generalize awaitAll T added S { c with tableau := T } = next at *
  obtain rfl : next.2.tableau = T := by rw [heq]
  refine ⟨⟨hsound, hstage.failure.trans h.failure, fun j hj => ?_, fun j k hjk => ?_,
    fun j hj hun => ?_, fun id' j hj => ?_, hnodup, fun id' => ?_⟩,
    ⟨hext, fun j hj => (hiff j).2 (.inl hj), fun j hj => ((hiff j).1 hj).imp_right ?_⟩,
    (hiff i).2 (.inr rfl)⟩
  · rcases (hiff j).1 hj with hj | rfl
    · exact (h.closed j hj).of_extends (Tableau.lt_size_of_isMarked hj) h.isSound.isDerived hext
    · exact hclosed
  · rcases hedges (j, k) hjk with hjk | rfl
    · exact (hiff j).2 (.inl (h.source j k hjk))
    · exact (hiff _).2 (.inr rfl)
  · rw [hawaits]
    have hun' : c.tableau.isMarked j = false := by
      rw [Bool.eq_false_iff] at hun ⊢
      exact fun hj => hun ((hiff j).2 (.inl hj))
    by_cases hold : j < c.tableau.size
    · rw [hext.stateOf hold]
      rcases h.pending j hold hun' with hj' | hj'
      · exact .inl (.inl hj')
      · rcases mem_cons.1 hj' with rfl | hj'
        · simp [(hiff j).2 (.inr rfl)] at hun
        · exact .inr hj'
    · exact .inl (.inr ⟨(hnew j).2 ⟨Nat.not_lt.1 hold, hj⟩, rfl⟩)
  · rw [Bool.eq_false_iff, Ne, hiff]
    rcases (hawaits id' j).1 hj with hj | ⟨hj, -⟩
    · obtain ⟨hun, hdue⟩ := h.fresh id' j hj
      rw [mem_cons, not_or] at hdue
      exact ⟨by simp [hun, hdue.1], hdue.2⟩
    · have hle := ((hnew j).1 hj).1
      refine ⟨fun hor => ?_, fun hdue => ?_⟩
      · rcases hor with hm | rfl
        · exact absurd (Tableau.lt_size_of_isMarked hm) (by omega)
        · omega
      · exact absurd (htodo j (by simp [hdue])).1 (by omega)
  · rw [hstack, h.mem_stack]
    simp only [hawaits]
    constructor
    · rintro (⟨j, hj⟩ | ⟨j, hj, rfl⟩)
      · exact ⟨j, .inl hj⟩
      · exact ⟨j, .inr ⟨hj, rfl⟩⟩
    · rintro ⟨j, hj | ⟨hj, rfl⟩⟩
      · exact .inl ⟨j, hj⟩
      · exact .inr ⟨j, hj, rfl⟩
  · rintro rfl
    exact (hext.stateOf hlt).trans hstate

theorem isAdvance_of_failed (h : c.IsAgenda sp labels a S.stack (i :: todo))
    (hi : i < c.tableau.size ∧ c.tableau.stateOf i = id) {T : Tableau}
    (hT : T = { c.tableau.markNode i with failure := some i }) :
    IsAdvance id c { c with tableau := T } ∧ ∀ j k, (j, k) ∈ T.edges → T.isMarked j := by
  have hmarked (j : Nat) : T.isMarked j ↔ c.tableau.isMarked j ∨ j = i := by
    rw [← and_iff_left (a := j = i) hi.1, ← Tableau.isMarked_markNode, hT]
    rfl
  have hmark := @Tableau.markNode_extends c.tableau i
  have hedges : T.edges = c.tableau.edges := by rw [hT]; rfl
  have hext : T.Extends c.tableau := hT ▸ ⟨hmark.size_le, hmark.sequent, hmark.edge⟩
  refine ⟨⟨hext, fun j hj => (hmarked j).2 (.inl hj), fun j hj => ((hmarked j).1 hj).imp_right ?_⟩,
    fun j k hjk => (hmarked j).2 (.inl (h.source j k (hedges ▸ hjk)))⟩
  rintro rfl
  exact (hext.stateOf hi.1).trans hi.2

/-- Expanding the nodes that are due at a state, one after the other: one of them fails, or all of
them have been expanded. -/
theorem discharge (h : c.IsAgenda sp labels a S.stack todo)
    (htodo : ∀ i ∈ todo, i < c.tableau.size ∧ c.tableau.stateOf i = id) {failed : Bool}
    (hr : Search.discharge sp id (sp.checkSuccessors id) todo S c = (S', c', failed)) :
    IsAdvance id c c' ∧ (∀ i j, (i, j) ∈ c'.tableau.edges → c'.tableau.isMarked i) ∧
      (failed = true → c'.tableau.HasFailing sp labels) ∧
      (failed = false → c'.IsAgenda sp labels a S'.stack [] ∧ ∀ i ∈ todo, c'.tableau.isMarked i) := by
  refine (Search.discharge_induction (P := fun rest S c' => c'.IsAgenda sp labels a S.stack rest ∧
      IsAdvance id c c' ∧ (∀ i ∈ rest, i < c'.tableau.size ∧ c'.tableau.stateOf i = id) ∧
      ∀ i ∈ todo, c'.tableau.isMarked i ∨ i ∈ rest) (fun hP hsets hT => ?_)
    ⟨h, .refl id c, htodo, fun _ => .inr⟩ hr).elim ?_ ?_
  · obtain ⟨h, hadv, hrest, hall⟩ := hP
    obtain ⟨hagenda, hstep, hmarked⟩ := h.derive hrest hsets hT
    refine ⟨hagenda, hadv.trans hstep, fun j hj => hstep.isExtension.stands
      (hrest j (mem_cons_of_mem _ hj)), fun j hj => ?_⟩
    rcases hall j hj with hj | hj
    · exact .inl (hstep.marked j hj)
    rcases mem_cons.1 hj with rfl | hj
    · exact .inl hmarked
    · exact .inr hj
  · rintro ⟨rfl, hagenda, hadv, -, hall⟩
    exact ⟨hadv, hagenda.source, by simp, fun _ => ⟨hagenda, fun i hi =>
      (hall i hi).resolve_right not_mem_nil⟩⟩
  · rintro ⟨rfl, i, rest, c₀, ⟨h, hadv, hrest, -⟩, hfailed, rfl⟩
    have hi := hrest i mem_cons_self
    rw [h.failure]
    obtain ⟨hstep, hsource⟩ := h.isAdvance_of_failed hi rfl
    refine ⟨hadv.trans hstep, hsource, fun _ => ⟨i, hi.1.trans_le hstep.isExtension.size_le, rfl, ?_⟩,
      by simp⟩
    rw [h.isSound.labelling, ← hi.2, Tableau.stateOf, Sequent.expand_eq_failed_iff] at hfailed
    exact hstep.isExtension.sequent i hi.1 ▸ hfailed

/-- Taking a state from the stack: the nodes that wait at it are due. -/
theorem erase {sequents : List Nat} (h : c.IsAgenda sp labels a (id :: S.stack) [])
    (hid : c.waiting.find? id = some sequents) :
    IsAgenda sp labels a S.stack sequents { c with waiting := c.waiting.erase id } := by
  obtain ⟨hnew, hnodup⟩ := nodup_cons.1 h.nodup
  refine ⟨h.isSound.of_awaits rfl fun id' i hi => h.isSound.awaits id' i (awaits_erase.1 hi).2,
    h.failure, h.closed, h.source, fun i hi hun => ?_, fun id' i hi => ?_, hnodup, fun id' => ?_⟩
  · rw [awaits_erase]
    obtain ⟨l, hl, hil⟩ := (h.pending i hi hun).resolve_right not_mem_nil
    by_cases hstate : c.tableau.stateOf i = id
    · rw [hstate, hid] at hl
      exact .inr (Option.some.inj hl ▸ hil)
    · exact .inl ⟨hstate, l, hl, hil⟩
  · obtain ⟨hne, hi⟩ := awaits_erase.1 hi
    refine ⟨(h.fresh id' i hi).1, fun hmem => hne ?_⟩
    rw [← (h.isSound.awaits id' i hi).2, (h.isSound.awaits id i ⟨sequents, hid, hmem⟩).2]
  · simp only [awaits_erase]
    constructor
    · intro hmem
      obtain ⟨i, hi⟩ := (h.mem_stack id').1 (mem_cons_of_mem id hmem)
      exact ⟨i, fun heq => hnew (heq ▸ hmem), hi⟩
    · rintro ⟨i, hne, hi⟩
      exact (mem_cons.1 ((h.mem_stack id').2 ⟨i, hi⟩)).resolve_left hne

theorem isMarked (h : c.IsAgenda sp labels a [] []) (hi : i < c.tableau.size) :
    c.tableau.isMarked i := by
  by_contra hun
  rcases h.pending i hi (Bool.eq_false_iff.2 hun) with hawaits | hmem
  · exact not_mem_nil ((h.mem_stack _).2 ⟨i, hawaits⟩)
  · exact not_mem_nil hmem

theorem isClosed (h : c.IsAgenda sp labels a [] []) : c.tableau.IsClosed sp labels :=
  fun i hi => h.closed i (h.isMarked hi)

end IsAgenda

end Checker

namespace Search

open Checker

variable {S : Search} {c : Checker} {id : StateId}

theorem exists_agenda_start (hS : S.checker? = some c) (hc : c.IsAgenda sp labels a S.stack [])
    (hid : id ∈ sp.initial) :
    ∃ c', (S.start id).checker? = some c' ∧ c'.IsAgenda sp labels a (S.start id).stack [] ∧
      c'.tableau.Extends c.tableau ∧ (∀ i, c'.tableau.isMarked i = c.tableau.isMarked i) ∧
      ∃ i, i < c'.tableau.size ∧ c'.tableau.sequent i = Sequent.root a id := by
  obtain ⟨c', hS', hsound⟩ := exists_checker_start hS hc.isSound hid
  obtain rfl := hc.isSound.formula
  rcases start_cases hS id with ⟨heq, hroot⟩ | ⟨T, hT, hassert, heq⟩
  · rw [heq]
    exact ⟨c, hS, hc, .refl _, fun _ => rfl, hroot⟩
  · have hext : T.Extends c.tableau := hassert ▸ Tableau.assert_extends
    have hmarked (j : Nat) : T.isMarked j = c.tableau.isMarked j := by
      rw [← hassert, Tableau.isMarked_assert]
    have hlast : T.sequent c.tableau.size = Sequent.root c.formula id := by
      rw [hT, Tableau.sequent_pushNode, if_pos rfl]
    have hsize : T.size = c.tableau.size + 1 := by rw [hT, Tableau.size_pushNode]
    have hedges : T.edges = c.tableau.edges := by rw [hT]; rfl
    have hfailure : T.failure = c.tableau.failure := by rw [hT]; rfl
    rw [heq] at hS' ⊢
    obtain rfl := Option.some.inj hS'
    refine ⟨_, rfl, ⟨hsound, hfailure.trans hc.failure, fun i hi => ?_, fun i j hij => ?_,
      fun i hi hun => ?_, fun id' i hi => ⟨?_, not_mem_nil⟩, nodup_stack_await hc.nodup,
      fun id' => ?_⟩, hext, hmarked, c.tableau.size, hsize ▸ Nat.lt_succ_self _, hlast⟩
    · have hi : c.tableau.isMarked i := hmarked i ▸ hi
      exact (hc.closed i hi).of_extends (Tableau.lt_size_of_isMarked hi) hc.isSound.isDerived hext
    · exact (hmarked i).trans (hc.source i j (hedges ▸ hij))
    · have hi : i < c.tableau.size + 1 := hsize ▸ hi
      rw [awaits_await]
      rcases Nat.lt_succ_iff_lt_or_eq.1 hi with hold | rfl
      · have hstate : T.stateOf i = c.tableau.stateOf i := hext.stateOf hold
        exact .inl (.inl (hstate ▸ (hc.pending i hold (hmarked i ▸ hun)).resolve_right
          not_mem_nil))
      · exact .inl (.inr ⟨congrArg Sequent.state hlast, rfl⟩)
    · refine (hmarked i).trans ?_
      rcases awaits_await.1 hi with hi | ⟨-, rfl⟩
      · exact (hc.fresh id' i hi).1
      · exact Tableau.isMarked_size
    · simp only [mem_stack_await_iff, awaits_await, hc.mem_stack]
      constructor
      · rintro (⟨i, hi⟩ | rfl)
        · exact ⟨i, .inl hi⟩
        · exact ⟨_, .inr ⟨rfl, rfl⟩⟩
      · rintro ⟨i, hi | ⟨rfl, -⟩⟩
        · exact .inl ⟨i, hi⟩
        · exact .inr rfl

/-- Expanding a state that was taken from the stack: the search stops with a failure, or it goes on
and has expanded a sequent that was not expanded before. -/
theorem agenda_expanded (hS : S.checker? = some c) (hc : c.IsAgenda sp labels a (id :: S.stack) [])
    (fresh : List StateId) :
    (∀ v, (S.expanded sp id fresh).2 = some v → ∃ c', c'.tableau.IsDerived sp labels a ∧
        c'.tableau.HasFailing sp labels ∧ v = c'.tableau.verdict ∧ IsAdvance id c c' ∧
        ∀ i j, (i, j) ∈ c'.tableau.edges → c'.tableau.isMarked i) ∧
      ((S.expanded sp id fresh).2 = none → ∃ c', (S.expanded sp id fresh).1.checker? = some c' ∧
        c'.IsAgenda sp labels a (S.expanded sp id fresh).1.stack [] ∧ IsAdvance id c c' ∧
        c.tableau.marks < c'.tableau.marks) := by
  obtain ⟨i, hi⟩ := (hc.mem_stack id).1 mem_cons_self
  rcases expanded_cases hS sp id fresh with
    ⟨hnone, -⟩ | ⟨sequents, S', c', failed, hfind, hr, heq⟩
  · obtain ⟨sequents, hfind, -⟩ := hi
    cases hnone.symm.trans hfind
  have hdue (j : Nat) (hj : j ∈ sequents) := hc.isSound.awaits id j ⟨sequents, hfind, hj⟩
  obtain ⟨hadv, hsource, hfail, hdone⟩ := (hc.erase hfind).discharge hdue hr
  have hadv' : IsAdvance id c c' := ⟨hadv.isExtension, hadv.marked, hadv.stateOf⟩
  rw [heq]
  cases failed with
  | true =>
    refine ⟨fun v hv => ⟨c', ?_, hfail rfl, (Option.some.inj hv).symm, hadv', hsource⟩, by simp⟩
    exact ((hc.erase hfind).isSound.discharge hdue hr).isDerived
  | false =>
    obtain ⟨hagenda, hall⟩ := hdone rfl
    refine ⟨by simp, fun _ => ⟨c', rfl, hagenda, hadv', ?_⟩⟩
    obtain ⟨l, hl, hil⟩ := hi
    obtain rfl := Option.some.inj (hfind.symm.trans hl)
    exact Tableau.marks_lt hadv.marked (hc.fresh id i ⟨_, hl, hil⟩).1 (hall i hil)

/-- The tableau of a search on the fly. -/
def tableau (S : Search) : Tableau :=
  (S.checker?.map (·.tableau)).getD {}

/-- Waiting states are taken from the stack and expanded until the verdict is known or no state
waits. -/
inductive Concludes (sp : StateSpace fp) : Search → Verdict → Prop
  | stop {S S' : Search} {id : StateId} {v : Verdict} (hpop : S.pop? = some (id, S'))
      (hv : (S'.expanded sp id []).2 = some v) : Concludes sp S v
  | next {S S' S'' : Search} {id : StateId} {v : Verdict} (hpop : S.pop? = some (id, S'))
      (hexp : S'.expanded sp id [] = (S'', none)) (h : Concludes sp S'' v) : Concludes sp S v
  | finish {S : Search} {v : Verdict} (hpop : S.pop? = none) (hv : S.finish = some v) :
      Concludes sp S v

theorem isRooted_of_extends {T T' : Tableau} (hT : T.IsRooted sp a) (hext : T'.Extends T) :
    T'.IsRooted sp a := by
  intro id hid
  obtain ⟨i, hi, heq⟩ := hT id hid
  exact ⟨i, hi.trans_le hext.size_le, (hext.sequent i hi).trans heq⟩

theorem isComplete_of_isAgenda (steps : Nat) (hS : S.checker? = some c)
    (hc : c.IsAgenda sp labels a S.stack []) (hroot : c.tableau.IsRooted sp a)
    (hsteps : Tableau.sequentBound sp a ≤ steps + c.tableau.marks) :
    ∃ T : Tableau, T.IsComplete sp labels a ∧ Concludes sp S T.verdict ∧
      (driveFrom sp steps S).2.1.getD (driveFrom sp steps S).1.tableau.verdict = T.verdict := by
  induction steps generalizing S c with
  | zero =>
    have hsize := hc.isSound.isDerived.size_le
    have hmarks := c.tableau.marks_le
    have hbound : Tableau.sequentBound sp a =
      (sp.initial.length + sp.edgeCount) * 2 ^ a.size + 1 := rfl
    omega
  | succ steps ih =>
    cases hstack : S.stack with
    | nil =>
      rw [hstack] at hc
      have hpop : S.pop? = none := by simp [pop?, hstack]
      refine ⟨c.tableau, ⟨hc.isSound.isDerived, .inr ⟨hc.failure, hroot, hc.isClosed⟩⟩,
        .finish hpop ?_, ?_⟩
      · simp [Search.finish, hS]
      · simp [driveFrom, hpop, tableau, hS]
    | cons id stack =>
      have hpop : S.pop? = some (id, { S with stack }) := by simp [pop?, hstack]
      rw [hstack] at hc
      obtain ⟨hstop, hgo⟩ := agenda_expanded (S := { S with stack }) hS hc []
      rcases hexp : ({ S with stack } : Search).expanded sp id [] with ⟨S', v?⟩
      rw [hexp] at hstop hgo
      cases v? with
      | some v =>
        obtain ⟨c', hT, hfailing, rfl, -⟩ := hstop v rfl
        exact ⟨c'.tableau, ⟨hT, .inl hfailing⟩, .stop hpop (by rw [hexp]), by simp [driveFrom, hpop, hexp]⟩
      | none =>
        obtain ⟨c', hS', hc', hadv, hmarks⟩ := hgo rfl
        obtain ⟨T, hT, hend, hv⟩ := ih hS' hc' (isRooted_of_extends hroot hadv.isExtension)
          (by omega)
        exact ⟨T, hT, .next hpop hexp hend, by simpa [driveFrom, hpop, hexp] using hv⟩

theorem exists_agenda_foldl_start (l : List StateId) (hl : ∀ id ∈ l, id ∈ sp.initial)
    (hS : S.checker? = some c) (hc : c.IsAgenda sp labels a S.stack []) :
    ∃ c', (l.foldl start S).checker? = some c' ∧
      c'.IsAgenda sp labels a (l.foldl start S).stack [] ∧ c'.tableau.Extends c.tableau ∧
      (∀ i, c'.tableau.isMarked i = c.tableau.isMarked i) ∧
      ∀ id ∈ l, ∃ i, i < c'.tableau.size ∧ c'.tableau.sequent i = Sequent.root a id := by
  induction l generalizing S c with
  | nil => exact ⟨c, hS, hc, .refl _, fun _ => rfl, by simp⟩
  | cons id l ih =>
    obtain ⟨c₁, hS₁, hc₁, hext₁, hm₁, i, hi, hseq⟩ := exists_agenda_start hS hc (hl id (by simp))
    obtain ⟨c₂, hS₂, hc₂, hext₂, hm₂, hall⟩ := ih (fun x hx => hl x (by simp [hx])) hS₁ hc₁
    refine ⟨c₂, hS₂, hc₂, hext₁.trans hext₂, fun i => (hm₂ i).trans (hm₁ i), fun x hx => ?_⟩
    rcases mem_cons.1 hx with rfl | hx
    · exact ⟨i, hi.trans_le hext₂.size_le, (hext₂.sequent i hi).trans hseq⟩
    · exact hall x hx

theorem isAgenda_onTheFly (sp : StateSpace fp) (labels : Labelling) (a : Formula) :
    IsAgenda sp labels a (onTheFly a labels).stack [] { formula := a, labels } := by
  refine ⟨⟨rfl, rfl, Tableau.isDerived_empty, by simp, by simp [Awaits]⟩, rfl,
    by simp [Tableau.isMarked], by simp, by simp [Tableau.size], by simp [Awaits],
    by simp [onTheFly], by simp [onTheFly, Awaits]⟩

/-- A search that is driven over a finished space comes to its end, and its verdict agrees with a
check of the space on whether the formula holds. -/
theorem drive_eq_satisfied_iff (sp : StateSpace fp) (labels : Labelling) (a : Formula) :
    Concludes sp (sp.initial.foldl start (onTheFly a labels)) (drive sp labels a).1 ∧
      ((drive sp labels a).1 = .satisfied ↔ sp.check labels a = .satisfied) := by
  obtain ⟨c, hS, hc, -, -, hroot⟩ := exists_agenda_foldl_start sp.initial (fun _ h => h) rfl
    (isAgenda_onTheFly sp labels a)
  obtain ⟨T, hT, hend, hv⟩ := isComplete_of_isAgenda (Tableau.sequentBound sp a) hS hc hroot
    (by omega)
  have hdrive : (drive sp labels a).1 = T.verdict := hv
  refine ⟨hdrive ▸ hend, ?_⟩
  rw [hdrive, hT.verdict_eq_satisfied_iff, StateSpace.check_eq,
    StateSpace.isComplete_tableau.verdict_eq_satisfied_iff]

end Search

end ShapeCheck
