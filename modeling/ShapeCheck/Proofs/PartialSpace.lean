import ShapeCheck.Proofs.Agenda
import ShapeCheck.Proofs.Generation

/-!
# Partial spaces

A search on the fly expands only the states at which a sequent is open, so it leaves a space of which
a part is not expanded. Where it is expanded it is a chart, and a chart tells what follows a state in
terms of states alone, so it agrees there with the chart of a depth-first search. The tableau of the
search never looks at a state that is not expanded: it simulates the obligations over the full space
and is simulated by them, up to the numbers of states. Hence its verdict is that of a check of the
full space.
-/

namespace ShapeCheck

open Relation

namespace Engine

variable {E : Engine} {m : Code.Method} {Ans : Answering} {heaps : List Heap} {sp sp' : E.Space}
  {t u : State} {out : List (EdgeKind × State)} {i j : StateId}

theorem Outgoing.unfolded (h : Outgoing E m Ans t out) (hu : (.unfolding, u) ∈ out) :
    u.unfolded := by
  cases h with
  | stay _ => cases List.mem_singleton.1 hu
  | unfold _ _ _ _ =>
    obtain ⟨g, -, heq⟩ := List.mem_map.1 hu
    obtain rfl := (Prod.mk.inj heq).2
    rfl
  | @run _ next _ _ _ =>
    rw [flowSteps] at hu
    split at hu
    · cases List.mem_singleton.1 hu
    · obtain ⟨p, -, heq⟩ := List.mem_map.1 hu
      cases (Prod.mk.inj heq).1

/-- One state follows another on a path: a step leads there, or an unfolding step and a further one. -/
inductive Succeeds (E : Engine) (m : Code.Method) (Ans : Answering) (t u : State) : Prop
  | direct {out : List (EdgeKind × State)} {kind : EdgeKind} :
    Outgoing E m Ans t out → kind ≠ .unfolding → (kind, u) ∈ out → Succeeds E m Ans t u
  | through {out out' : List (EdgeKind × State)} {v : State} {kind : EdgeKind} :
    Outgoing E m Ans t out → (.unfolding, v) ∈ out → Outgoing E m Ans v out' → kind ≠ .unfolding →
    (kind, u) ∈ out' → Succeeds E m Ans t u

namespace IsDrawn

theorem exists_outgoing (h : IsDrawn E m Ans heaps sp) (hi : sp.isExpanded i)
    (ht : sp.state? i = some t) : ∃ out, Outgoing E m Ans t out ∧ sp.StepsAre i out :=
  (h.isChart.done i t ht hi).resolve_left List.not_mem_nil

theorem exists_mem_checkSuccessors_iff (h : IsDrawn E m Ans heaps sp) (hAns : IsFunctional Ans)
    (hi : sp.isExpanded i) (ht : sp.state? i = some t) :
    (∃ j ∈ sp.checkSuccessors i, sp.state? j = some u) ↔ Succeeds E m Ans t u := by
  obtain ⟨out, hout, hsteps⟩ := h.exists_outgoing hi ht
  constructor
  · rintro ⟨j, hj, hu⟩
    rcases StateSpace.mem_checkSuccessors_iff.1 hj with ⟨kind, hkind, hj⟩ | ⟨k, hk, kind, hkind, hj⟩
    · exact .direct hout hkind ((hsteps kind u).1 ⟨j, hj, hu⟩)
    · obtain ⟨v, hv⟩ := StateSpace.exists_state?_of_lt (h.isChart.isTable.inRange i _ hk)
      have hmem := (hsteps .unfolding v).1 ⟨k, hk, hv⟩
      obtain ⟨out', hout', hsteps'⟩ := h.exists_outgoing (h.unfolded k v hv (hout.unfolded hmem)) hv
      exact .through hout hmem hout' hkind ((hsteps' kind u).1 ⟨j, hj, hu⟩)
  · rintro (⟨hout', hkind, hmem⟩ | ⟨hout', hv, hout'', hkind, hmem⟩)
    · obtain rfl := hout.unique hAns hout'
      obtain ⟨j, hj, hu⟩ := (hsteps _ u).2 hmem
      exact ⟨j, StateSpace.mem_checkSuccessors_iff.2 (.inl ⟨_, hkind, hj⟩), hu⟩
    · obtain rfl := hout.unique hAns hout'
      obtain ⟨k, hk, hv'⟩ := (hsteps _ _).2 hv
      obtain ⟨out₂, hout₂, hsteps₂⟩ := h.exists_outgoing
        (h.unfolded k _ hv' (hout.unfolded hv)) hv'
      obtain rfl := hout₂.unique hAns hout''
      obtain ⟨j, hj, hu⟩ := (hsteps₂ _ u).2 hmem
      exact ⟨j, StateSpace.mem_checkSuccessors_iff.2 (.inr ⟨k, hk, _, hkind, hj⟩), hu⟩

theorem exists_state?_of_mem_checkSuccessors (h : IsDrawn E m Ans heaps sp)
    (hj : j ∈ sp.checkSuccessors i) : ∃ u, sp.state? j = some u :=
  StateSpace.exists_state?_of_lt (h.isChart.isTable.lt_size_of_mem_checkSuccessors hj)

theorem mem_checkSuccessors_iff_of_grows (h : IsDrawn E m Ans heaps sp)
    (h' : IsDrawn E m Ans heaps sp') (hAns : IsFunctional Ans) (hgrows : sp.Grows sp')
    (hi : sp.isExpanded i) (hi' : sp'.isExpanded i) :
    j ∈ sp'.checkSuccessors i ↔ j ∈ sp.checkSuccessors i := by
  obtain ⟨t, ht⟩ := StateSpace.exists_state?_of_lt (StateSpace.lt_size_of_isExpanded hi)
  have ht' := hgrows.state? i t ht
  constructor
  · intro hj
    obtain ⟨u, hu⟩ := h'.exists_state?_of_mem_checkSuccessors hj
    obtain ⟨k, hk, hku⟩ := (h.exists_mem_checkSuccessors_iff hAns hi ht).2
      ((h'.exists_mem_checkSuccessors_iff hAns hi' ht').1 ⟨j, hj, hu⟩)
    exact h'.isChart.isTable.unique _ _ u (hgrows.state? k u hku) hu ▸ hk
  · intro hj
    obtain ⟨u, hu⟩ := h.exists_state?_of_mem_checkSuccessors hj
    obtain ⟨k, hk, hku⟩ := (h'.exists_mem_checkSuccessors_iff hAns hi' ht').2
      ((h.exists_mem_checkSuccessors_iff hAns hi ht).1 ⟨j, hj, hu⟩)
    exact h'.isChart.isTable.unique _ _ u hku (hgrows.state? j u hu) ▸ hk

end IsDrawn

end Engine

section Grow

variable {fp : State → Nat} {sp sp' : StateSpace fp} {labels : Labelling} {a : Formula}
  {q q' : Sequent} {c : Checker} {stack : List StateId}

/-- A state looks the same in two spaces: the same atoms hold, and the same states follow. -/
structure StateSpace.LooksLike (sp sp' : StateSpace fp) (labels : Labelling) (id : StateId) :
    Prop where
  valuation : Tableau.valuation sp' labels id = Tableau.valuation sp labels id
  mem_checkSuccessors_iff : ∀ j, j ∈ sp'.checkSuccessors id ↔ j ∈ sp.checkSuccessors id

theorem Sequent.eq_of_eq (hstate : q.state = q'.state) (hformulae : q.formulae = q'.formulae) :
    q = q' := by
  cases q
  cases q'
  exact Sequent.mk.injEq .. ▸ ⟨hstate, hformulae⟩

theorem Sequent.isFailing_congr (h : sp.LooksLike sp' labels q.state) :
    q.IsFailing sp' labels ↔ q.IsFailing sp labels := by
  rw [IsFailing, IsFailing, h.valuation]

theorem Sequent.leads_congr (h : sp.LooksLike sp' labels q.state) :
    q.Leads sp' labels q' ↔ q.Leads sp labels q' := by
  constructor
  · rintro ⟨hstate, hformulae⟩
    exact ⟨(h.mem_checkSuccessors_iff _).1 hstate, h.valuation ▸ hformulae⟩
  · rintro ⟨hstate, hformulae⟩
    exact ⟨(h.mem_checkSuccessors_iff _).2 hstate, h.valuation.symm ▸ hformulae⟩

/-- An agenda stays one in a later space, if the states of expanded sequents look the same. -/
theorem Checker.IsAgenda.grow (h : c.IsAgenda sp labels a stack [])
    (hinitial : sp'.initial = sp.initial)
    (hlooks : ∀ i, c.tableau.isMarked i → sp.LooksLike sp' labels (c.tableau.stateOf i)) :
    c.IsAgenda sp' labels a stack [] :=
  { h with
    isSound := { h.isSound with
      isDerived := { h.isSound.isDerived with
        root := fun i hi hp => by
          rw [hinitial]
          exact h.isSound.isDerived.root i hi hp
        edge := fun i j hij => by
          obtain ⟨hi, hj, hleads⟩ := h.isSound.isDerived.edge i j hij
          exact ⟨hi, hj, (Sequent.leads_congr (hlooks i (h.source i j hij))).2 hleads⟩ }
      failure := fun i hi => by
        rw [h.failure] at hi
        cases hi }
    closed := fun i hi => by
      obtain ⟨hnot, hedge⟩ := h.closed i hi
      exact ⟨fun hfails => hnot ((Sequent.isFailing_congr (hlooks i hi)).1 hfails),
        fun q hq => hedge q ((Sequent.leads_congr (hlooks i hi)).1 hq)⟩ }

end Grow

namespace Engine

variable {E : Engine} {m : Code.Method} {Ans : Answering} {heaps : List Heap} {sp sp' : E.Space}
  {labels : Labelling} {a : Formula}

/-- A tableau that looks at expanded states only: it has met a failure, or holds all that the roots
lead to. Every expanded state is unfolded or carries a sequent. -/
structure IsWatch (sp : E.Space) (labels : Labelling) (a : Formula) (T : Tableau) : Prop where
  isDerived : T.IsDerived sp labels a
  isExpanded : ∀ i j, (i, j) ∈ T.edges → sp.isExpanded (T.stateOf i)
  ended : T.HasFailing sp labels ∨ T.failure = none ∧ T.IsRooted sp a ∧ T.IsClosed sp labels ∧
    ∀ i, i < T.size → sp.isExpanded (T.stateOf i)
  carries : ∀ j t, sp.isExpanded j → sp.state? j = some t → t.unfolded = false →
    ∃ i, i < T.size ∧ T.stateOf i = j

/-- What a search on the fly keeps while its space grows. -/
structure Watches (labels : Labelling) (a : Formula) (sp : E.Space) (S : Search) (c : Checker) :
    Prop where
  checker? : S.checker? = some c
  isAgenda : c.IsAgenda sp labels a S.stack []
  isRooted : c.tableau.IsRooted sp a
  isExpanded : ∀ i, c.tableau.isMarked i → sp.isExpanded (c.tableau.stateOf i)
  carries : ∀ j t, sp.isExpanded j → sp.state? j = some t → t.unfolded = false →
    ∃ i, i < c.tableau.size ∧ c.tableau.stateOf i = j

theorem IsSeeded.exists_watches {S : Search}
    (h : IsSeeded E heaps (.onTheFly a labels) sp S) : ∃ c, Watches labels a sp S c := by
  obtain ⟨c, hS, hc, -, hmarked, hroot⟩ := Search.exists_agenda_foldl_start sp.initial
    (fun _ h => h) rfl (Search.isAgenda_onTheFly sp labels a)
  rw [← h.search] at hS hc
  refine ⟨c, hS, hc, hroot, fun i hi => ?_, fun j t hj => ?_⟩
  · rw [hmarked i] at hi
    simp [Tableau.isMarked] at hi
  · simp [h.isExpanded] at hj

theorem Watches.isWatch {S : Search} {c : Checker} (h : Watches labels a sp S c)
    (hstack : S.stack = []) : IsWatch sp labels a c.tableau where
  isDerived := h.isAgenda.isSound.isDerived
  isExpanded i j hij := h.isExpanded i (h.isAgenda.source i j hij)
  ended := by
    have hagenda := hstack ▸ h.isAgenda
    exact .inr ⟨h.isAgenda.failure, h.isRooted, hagenda.isClosed, fun i hi =>
      h.isExpanded i (hagenda.isMarked hi)⟩
  carries := h.carries

variable {Answers : Session → Answering} {I : E.Space → Session → Prop} {full : Prop}
  {call : CallHandler} {s t : Session} {id : StateId} {stack : List StateId} {S : Search} {c : Checker}

/-- The next state of a search on the fly is expanded: the search stops with a failure, or it goes
on. -/
theorem Watches.next {r : E.Space × List StateId} (hAns : IsFunctional (Answers t))
    (h : Watches labels a sp S c) (hcharted : IsCharted E m heaps Answers I full sp S s)
    (hstack : S.stack = id :: stack)
    (hr : IsCharted.Next E m heaps Answers I full sp id stack s r t) :
    (∀ v, (Search.expanded ⟨stack, S.checker?⟩ r.1 id r.2).2 = some v →
      ∃ T, IsWatch r.1 labels a T ∧ v = T.verdict) ∧
    ((Search.expanded ⟨stack, S.checker?⟩ r.1 id r.2).2 = none →
      ∃ c', Watches labels a r.1 (Search.expanded ⟨stack, S.checker?⟩ r.1 id r.2).1 c') := by
  have hdrawn := hcharted.isDrawn.mono hr.finds.answers
  have hinitial : r.1.initial = sp.initial := hr.finds.advances.initial
  have hagenda : c.IsAgenda r.1 labels a (id :: stack) [] := by
    refine (hstack ▸ h.isAgenda).grow hinitial fun i hi => ?_
    have hexp := h.isExpanded i hi
    obtain ⟨u, hu⟩ := StateSpace.exists_state?_of_lt (StateSpace.lt_size_of_isExpanded hexp)
    refine ⟨?_, fun j => ?_⟩
    · simp only [Tableau.valuation, hu, hr.grows.state? _ u hu]
    · exact hdrawn.mem_checkSuccessors_iff_of_grows hr.isDrawn hAns hr.grows hexp
        (hr.isExpanded (.inr hexp))
  have hroot : c.tableau.IsRooted r.1 a := fun id hid => h.isRooted id (hinitial ▸ hid)
  -- a sequent that waits at the next state
  obtain ⟨i, hi⟩ := (hagenda.mem_stack id).1 List.mem_cons_self
  have hexpanded {c' : Checker} (hadv : Checker.IsAdvance id c c') (i : Nat)
      (hi : c'.tableau.isMarked i) : r.1.isExpanded (c'.tableau.stateOf i) := by
    refine hr.isExpanded ((hadv.stateOf i hi).symm.imp_right fun hi => ?_)
    rw [hadv.isExtension.stateOf (Tableau.lt_size_of_isMarked hi)]
    exact h.isExpanded i hi
  have hcarries {c' : Checker} (hadv : Checker.IsAdvance id c c') (j : StateId) (u : State)
      (hj : r.1.isExpanded j) (hu : r.1.state? j = some u) (hunf : u.unfolded = false) :
      ∃ i, i < c'.tableau.size ∧ c'.tableau.stateOf i = j := by
    suffices hold : ∃ i, i < c.tableau.size ∧ c.tableau.stateOf i = j by
      exact hold.imp fun i hi => hadv.isExtension.stands hi
    rcases hr.isExpanded_cases hj with rfl | hj | ⟨v, hv, hunf'⟩
    · exact ⟨i, hagenda.isSound.awaits _ i hi⟩
    · obtain ⟨v, hv⟩ := StateSpace.exists_state?_of_lt (StateSpace.lt_size_of_isExpanded hj)
      obtain rfl := Option.some.inj (hu.symm.trans (hr.grows.state? j v hv))
      exact h.carries j u hj hv hunf
    · rw [Option.some.inj (hu.symm.trans hv), hunf'] at hunf
      cases hunf
  obtain ⟨hstop, hgo⟩ := Search.agenda_expanded (S := ⟨stack, S.checker?⟩) h.checker? hagenda r.2
  constructor
  · intro v hv
    obtain ⟨c', hderived, hfailing, rfl, hadv, hsource⟩ := hstop v hv
    exact ⟨c'.tableau, ⟨hderived, fun i j hij => hexpanded hadv i (hsource i j hij), .inl hfailing,
      hcarries hadv⟩, rfl⟩
  · intro hnone
    obtain ⟨c', hS', hagenda', hadv, -⟩ := hgo hnone
    exact ⟨c', hS', hagenda', Search.isRooted_of_extends hroot hadv.isExtension, hexpanded hadv,
      hcarries hadv⟩

/-- A search on the fly draws a chart and ends with the verdict of a tableau that looks at expanded
states only. -/
theorem onTheFly_ensures {Pr : Protocol} {method : String} (steps : Nat) (labels : Labelling)
    (a : Formula) (hm : E.program.method? method = some m) (hheaps : heaps ≠ [])
    (hready : IsReady Pr E call m heaps) (hs : Pr.Later s s)
    (hAns : ∀ s, IsFunctional (Pr.Answers s)) :
    (E.generateWith call steps method heaps (.onTheFly a labels)).Ensures s (fun r t =>
      IsDrawn E m (Pr.Answers t) heaps r.1 ∧
        ∃ T, IsWatch r.1 labels a T ∧ r.2 = some T.verdict) fun _ _ => True := by
  have hguides : Guides E m heaps Pr.Answers (fun _ t => Pr.Later s t) (FailsFrom Pr E m heaps s) False
      (fun _ sp S => ∃ c, Watches labels a sp S c)
      fun sp v? => ∃ T, IsWatch sp labels a T ∧ v? = some T.verdict := by
    refine ⟨fun h _ => ⟨h.atStage.holds, .inl (.inl rfl)⟩, ?_, ?_⟩
    · rintro - sp S s id stack r t hcharted hstack hr ⟨c, hc⟩
      obtain ⟨hstop, hgo⟩ := hc.next (hAns t) hcharted hstack hr
      exact ⟨fun v hv => (hstop v hv).imp fun T hT => ⟨hT.1, congrArg some hT.2⟩, hgo⟩
    · rintro - sp S s - hstack ⟨c, hc⟩
      exact ⟨c.tableau, hc.isWatch hstack, by rw [Search.finish, hc.checker?]; rfl⟩
  exact ((hready.upholds s).generateWith_ensures hguides hm hheaps hs
    (Search.isBelow_onTheFly a labels) False.elim fun _ _ => IsSeeded.exists_watches).imp
    (fun r t h => ⟨⟨h.1.stage.toIsChart, h.1.stage.unfolded, h.2.1⟩, h.2.2⟩)
    fun _ _ _ => trivial

/-- A node of a tableau over one space stands for a sequent over another: the states have different
numbers but are the same. -/
structure StandsFor (T : Tableau) (sp sp' : E.Space) (i : Nat) (q : Sequent) : Prop where
  lt_size : i < T.size
  state : ∃ t, sp.state? (T.stateOf i) = some t ∧ sp'.state? q.state = some t
  formulae : (T.sequent i).formulae = q.formulae

namespace StandsFor

variable {T : Tableau} {i : Nat} {q : Sequent}

theorem valuation (h : StandsFor T sp sp' i q) :
    Tableau.valuation sp' labels q.state = Tableau.valuation sp labels (T.stateOf i) := by
  obtain ⟨t, ht, ht'⟩ := h.state
  simp only [Tableau.valuation, ht, ht']

theorem isFailing_iff (h : StandsFor T sp sp' i q) :
    q.IsFailing sp' labels ↔ (T.sequent i).IsFailing sp labels := by
  rw [Sequent.IsFailing, Sequent.IsFailing, h.valuation, h.formulae]
  rfl

end StandsFor

theorem IsDrawn.exists_initial (h : IsDrawn E m Ans heaps sp) (h' : IsDrawn E m Ans heaps sp')
    {id : StateId} (hid : id ∈ sp.initial) :
    ∃ id' ∈ sp'.initial, ∃ t, sp.state? id = some t ∧ sp'.state? id' = some t := by
  obtain ⟨t, ht⟩ := StateSpace.exists_state?_of_lt (h.startsFrom.lt_size id hid)
  obtain ⟨id', hid', ht'⟩ := (h'.startsFrom.exists_iff t).2
    ((h.startsFrom.exists_iff t).1 ⟨id, hid, ht⟩)
  exact ⟨id', hid', t, ht, ht'⟩

section Full

variable {T : Tableau} (hAns : IsFunctional Ans) (h : IsDrawn E m Ans heaps sp)
  (h' : IsDrawn E m Ans heaps sp') (hfull : ∀ i, i < sp'.size → sp'.isExpanded i)

include hAns h h' hfull

/-- What follows a state in the full space is what follows it in a part, where that is expanded. -/
theorem exists_mem_checkSuccessors_congr {i i' : StateId} {t u : State} (hi : sp.isExpanded i)
    (ht : sp.state? i = some t) (ht' : sp'.state? i' = some t) :
    (∃ j ∈ sp.checkSuccessors i, sp.state? j = some u) ↔
      ∃ j ∈ sp'.checkSuccessors i', sp'.state? j = some u :=
  (h.exists_mem_checkSuccessors_iff hAns hi ht).trans (h'.exists_mem_checkSuccessors_iff hAns
    (hfull i' (StateSpace.lt_size_of_state? ht')) ht').symm

theorem IsWatch.isSimulation (hT : IsWatch sp labels a T) :
    (T.obligations fun i => (T.sequent i).IsFailing sp labels).IsSimulation
      (sp'.obligations labels a) (StandsFor T sp sp') where
  root i hi := by
    obtain ⟨id, hid, heq⟩ := hT.isDerived.root i hi.1 hi.2
    obtain ⟨id', hid', t, ht, ht'⟩ := h.exists_initial h' hid
    refine ⟨Sequent.root a id', ⟨hi.1, ⟨t, ?_, ht'⟩, by rw [heq]; rfl⟩, _, ⟨id', hid', rfl⟩, .refl⟩
    rw [Tableau.stateOf, heq]
    exact ht
  leads i q j hiq hij := by
    obtain ⟨-, hj, hstate, hformulae⟩ := hT.isDerived.edge i j hij
    obtain ⟨t, ht, ht'⟩ := hiq.state
    obtain ⟨u, hu⟩ := h.exists_state?_of_mem_checkSuccessors hstate
    obtain ⟨k, hk, hku⟩ := (exists_mem_checkSuccessors_congr hAns h h' hfull
      (hT.isExpanded i j hij) ht ht').1 ⟨_, hstate, hu⟩
    refine ⟨⟨k, (T.sequent j).formulae⟩, ⟨hj, ⟨u, hu, hku⟩, rfl⟩, hk, ?_⟩
    rw [hiq.valuation, ← hiq.formulae]
    exact hformulae
  fails i q hiq hi := hiq.isFailing_iff.2 hi
  formulae i q hiq := hiq.formulae
  unique i q q' hiq hiq' := by
    obtain ⟨t, ht, hq⟩ := hiq.state
    obtain ⟨t', ht', hq'⟩ := hiq'.state
    obtain rfl := Option.some.inj (ht.symm.trans ht')
    exact Sequent.eq_of_eq (h'.isChart.isTable.unique _ _ t hq hq')
      (hiq.formulae.symm.trans hiq'.formulae)

/-- If all that the roots lead to is in the tableau, then its nodes are counterparts of the sequents
over the full space. -/
theorem IsWatch.isSimulation_of_isClosed (hT : IsWatch sp labels a T) (hroot : T.IsRooted sp a)
    (hclosed : T.IsClosed sp labels) (hexp : ∀ i, i < T.size → sp.isExpanded (T.stateOf i)) :
    (sp'.obligations labels a).IsSimulation
      (T.obligations fun i => (T.sequent i).IsFailing sp labels) (flip (StandsFor T sp sp')) where
  root := by
    rintro _ ⟨id', hid', rfl⟩
    obtain ⟨id, hid, t, ht', ht⟩ := h'.exists_initial h hid'
    obtain ⟨i, hi, heq⟩ := hroot id hid
    refine ⟨i, ⟨hi, ⟨t, ?_, ht'⟩, by rw [heq]; rfl⟩, hT.isDerived.arises hi⟩
    rw [Tableau.stateOf, heq]
    exact ht
  leads := by
    rintro q i q' hiq ⟨hstate, hformulae⟩
    obtain ⟨t, ht, ht'⟩ := hiq.state
    obtain ⟨u, hu⟩ := h'.exists_state?_of_mem_checkSuccessors hstate
    obtain ⟨k, hk, hku⟩ := (exists_mem_checkSuccessors_congr hAns h h' hfull (hexp i hiq.lt_size) ht
      ht').2 ⟨_, hstate, hu⟩
    have hleads : (T.sequent i).Leads sp labels ⟨k, q'.formulae⟩ := by
      refine ⟨hk, ?_⟩
      rw [hiq.valuation, ← hiq.formulae] at hformulae
      exact hformulae
    obtain ⟨j, hij, heq⟩ := (hclosed i hiq.lt_size).edge _ hleads
    refine ⟨j, ⟨(hT.isDerived.edge i j hij).2.1, ⟨u, ?_, hu⟩, by rw [heq]⟩, hij⟩
    rw [Tableau.stateOf, heq]
    exact hku
  fails q i hiq hq := StandsFor.isFailing_iff hiq |>.1 hq
  formulae q i hiq := (StandsFor.formulae hiq).symm
  unique q i j hiq hjq := by
    obtain ⟨t, ht, hq⟩ := StandsFor.state hiq
    obtain ⟨t', ht', hq'⟩ := StandsFor.state hjq
    obtain rfl := Option.some.inj (hq.symm.trans hq')
    refine hT.isDerived.inj i j (StandsFor.lt_size hiq) (StandsFor.lt_size hjq) ?_
    exact Sequent.eq_of_eq (h.isChart.isTable.unique _ _ t ht ht')
      ((StandsFor.formulae hiq).trans (StandsFor.formulae hjq).symm)

theorem IsWatch.verdict_eq_satisfied_iff (hT : IsWatch sp labels a T) :
    T.verdict = .satisfied ↔ sp'.check labels a = .satisfied := by
  rw [StateSpace.check_eq, StateSpace.isComplete_tableau.verdict_eq_satisfied_iff]
  refine hT.isDerived.verdict_eq_satisfied_iff_isMet (hT.isSimulation hAns h h' hfull) ?_
  rcases hT.ended with hfailing | ⟨hnone, hroot, hclosed, hexp⟩
  · exact .inl hfailing
  · exact .inr ⟨hnone, fun i hi => (hclosed i hi).not_isFailing,
      hT.isSimulation_of_isClosed hAns h h' hfull hroot hclosed hexp⟩

end Full

end Engine

end ShapeCheck
