import ShapeCheck.Proofs.Steps

/-!
# Charts

The expansion of a state adds exactly the steps that lead out of it: to the unfolded variants of its
heap if a summary hides the selector of its statement, and otherwise to what its statement leaves,
or back to itself if there is nothing. A space in which this holds of every expanded state is a
*chart*. While a state is being expanded, the steps that it has so far are kept beside the chart.

Charts speak about states and not about their numbers, so two charts of one method agree wherever
both have expanded a state, whatever order their states were found in. A *stage* of an exploration is
a chart of states that are reached. If all its states are expanded, then they are done.
-/

namespace ShapeCheck

open List

namespace Engine

/-- The heaps that a statement needs its heap unfolded to; there are none if nothing is hidden. -/
def unfoldings (E : Engine) (stmt : Code.Statement) (h : Heap) : Except UnfoldError (List Heap) :=
  if stmt.needsUnfolding h then
    (E.abstraction.unfold stmt.accessPoints h).map fun heaps =>
      if heaps.any (· ≠ h) then heaps else []
  else .ok []

theorem variants_eq (E : Engine) (stmt : Code.Statement) (h : Heap) : E.variants stmt h =
    match E.unfoldings stmt h with
    | .ok vs => pure vs
    | .error e => throw (.unfolding e) := by
  rw [variants, unfoldings]
  by_cases hneeds : stmt.needsUnfolding h
  · simp only [hneeds, if_true]
    cases E.abstraction.unfold stmt.accessPoints h <;> rfl
  · simp only [hneeds]
    rfl

theorem sources_eq_map (E : Engine) (stmt : Code.Statement) (h : Heap) :
    E.sources stmt h = (E.unfoldings stmt h).map fun vs => if vs = [] then [h] else vs := by
  rw [sources, unfoldings]
  by_cases hneeds : stmt.needsUnfolding h
  · simp only [hneeds, if_true]
    cases E.abstraction.unfold stmt.accessPoints h with
    | error e => rfl
    | ok heaps =>
      simp only [Except.map]
      split
      · next hany => rw [if_neg fun hnil => by simp [hnil] at hany]
      · rfl
  · simp only [hneeds]
    rfl

/-- The steps of a state whose statement leaves the given places and heaps. A state from which
nothing follows stays where it is. -/
def flowSteps (E : Engine) (t : State) (next : List (Location × Heap)) : List (EdgeKind × State) :=
  if next.isEmpty then [(.loop, t)] else next.map fun p => (.flow, E.settled p.1 p.2)

/-- The steps that lead out of a state. -/
inductive Outgoing (E : Engine) (m : Code.Method) (Ans : Answering) (t : State) :
    List (EdgeKind × State) → Prop
  /-- A state without a statement stays where it is. -/
  | stay : statementAt? m t = none → Outgoing E m Ans t [(.loop, t)]
  /-- A state whose statement needs its heap unfolded leads to its variants. -/
  | unfold {stmt : Code.Statement} {vs : List Heap} : statementAt? m t = some stmt →
    t.unfolded = false → E.unfoldings stmt t.heap = .ok vs → vs ≠ [] →
    Outgoing E m Ans t (vs.map fun g => (.unfolding, ⟨g, t.location, true⟩))
  /-- Any other state leads to what its statement leaves. -/
  | run {stmt : Code.Statement} {next : List (Location × Heap)} : statementAt? m t = some stmt →
    (t.unfolded = false → E.unfoldings stmt t.heap = .ok []) → stmt.Yields Ans t.heap next →
    Outgoing E m Ans t (E.flowSteps t next)

variable {E : Engine} {m : Code.Method} {Ans Ans' : Answering} {sp : E.Space} {t : State}
  {out out' : List (EdgeKind × State)} {busy busy' : List (StateId × List (EdgeKind × State))}
  {i source : StateId} {kind : EdgeKind}

theorem Outgoing.mono (h : Outgoing E m Ans t out)
    (hAns : ∀ site g results, Ans site g results → Ans' site g results) :
    Outgoing E m Ans' t out := by
  cases h with
  | stay hstmt => exact .stay hstmt
  | unfold hstmt hunf hvs hne => exact .unfold hstmt hunf hvs hne
  | run hstmt hnone hnext => exact .run hstmt hnone (hnext.mono hAns)

theorem Outgoing.ne_nil (h : Outgoing E m Ans t out) : out ≠ [] := by
  cases h with
  | stay _ => simp
  | unfold _ _ _ hne => simpa using hne
  | @run _ next _ _ _ =>
    rw [flowSteps]
    split
    · simp
    · next hne => simpa using hne

/-- Calls have at most one answer. -/
def IsFunctional (Ans : Answering) : Prop :=
  ∀ site g results results', Ans site g results → Ans site g results' → results = results'

theorem eq_of_yields {stmt : Code.Statement} {g : Heap} {next next' : List (Location × Heap)}
    (hAns : IsFunctional Ans) (h : stmt.Yields Ans g next) (h' : stmt.Yields Ans g next') :
    next = next' := by
  unfold Code.Statement.Yields at h h'
  cases hstep : stmt.step g with
  | moves moves =>
    simp only [hstep] at h h'
    rw [h, h']
  | call site =>
    simp only [hstep] at h h'
    obtain ⟨results, hresults, rfl⟩ := h
    obtain ⟨results', hresults', rfl⟩ := h'
    rw [hAns site g results results' hresults hresults']
  | fault => simp only [hstep] at h

/-- If calls have at most one answer, then only one list of steps leads out of a state. -/
theorem Outgoing.unique (hAns : IsFunctional Ans) (h : Outgoing E m Ans t out)
    (h' : Outgoing E m Ans t out') : out = out' := by
  cases h with
  | stay hstmt =>
    cases h' with
    | stay _ => rfl
    | unfold hstmt' => cases hstmt.symm.trans hstmt'
    | run hstmt' => cases hstmt.symm.trans hstmt'
  | unfold hstmt hunf hvs hne =>
    cases h' with
    | stay hstmt' => cases hstmt.symm.trans hstmt'
    | unfold hstmt' _ hvs' _ =>
      obtain rfl := Option.some.inj (hstmt.symm.trans hstmt')
      obtain rfl := Except.ok.inj (hvs.symm.trans hvs')
      rfl
    | run hstmt' hnone' _ =>
      obtain rfl := Option.some.inj (hstmt.symm.trans hstmt')
      exact absurd (Except.ok.inj (hvs.symm.trans (hnone' hunf))) hne
  | run hstmt hnone hnext =>
    cases h' with
    | stay hstmt' => cases hstmt.symm.trans hstmt'
    | unfold hstmt' hunf' hvs' hne' =>
      obtain rfl := Option.some.inj (hstmt.symm.trans hstmt')
      exact absurd (Except.ok.inj (hvs'.symm.trans (hnone hunf'))) hne'
    | run hstmt' _ hnext' =>
      obtain rfl := Option.some.inj (hstmt.symm.trans hstmt')
      rw [eq_of_yields hAns hnext hnext']

/-- Expanded states have exactly the steps that lead out of them, and other states have none. The
states of `busy` are being expanded, and have the steps that are given with them. -/
structure IsChart (E : Engine) (m : Code.Method) (Ans : Answering) (sp : E.Space)
    (busy : List (StateId × List (EdgeKind × State))) : Prop where
  isTable : sp.IsTable
  isConnected : sp.IsConnected
  fresh : ∀ i, sp.isExpanded i = false → sp.edges i = []
  nodup : (busy.map Prod.fst).Nodup
  underway : ∀ p ∈ busy, sp.isExpanded p.1 ∧ sp.StepsAre p.1 p.2
  done : ∀ i t, sp.state? i = some t → sp.isExpanded i → i ∈ busy.map Prod.fst ∨
    ∃ out, Outgoing E m Ans t out ∧ sp.StepsAre i out

namespace IsChart

theorem mono (h : IsChart E m Ans sp busy)
    (hAns : ∀ site g results, Ans site g results → Ans' site g results) :
    IsChart E m Ans' sp busy :=
  { h with
    done := fun i t ht hi => (h.done i t ht hi).imp_right fun ⟨out, hout, hsteps⟩ =>
      ⟨out, hout.mono hAns, hsteps⟩ }

theorem perm (h : IsChart E m Ans sp busy) (hperm : busy.Perm busy') :
    IsChart E m Ans sp busy' :=
  { h with
    nodup := (hperm.map Prod.fst).nodup_iff.1 h.nodup
    underway := fun p hp => h.underway p (hperm.mem_iff.2 hp)
    done := fun i t ht hi => (h.done i t ht hi).imp_left ((hperm.map Prod.fst).mem_iff.1 ·) }

theorem finish (h : IsChart E m Ans sp ((i, out) :: busy)) (ht : sp.state? i = some t)
    (hout : Outgoing E m Ans t out) : IsChart E m Ans sp busy :=
  { h with
    nodup := (nodup_cons.1 h.nodup).2
    underway := fun p hp => h.underway p (mem_cons_of_mem _ hp)
    done := fun j u hu hj => by
      rcases h.done j u hu hj with hmem | hdone
      · rcases mem_cons.1 hmem with rfl | hmem
        · obtain rfl := Option.some.inj (ht.symm.trans hu)
          exact .inr ⟨out, hout, (h.underway _ mem_cons_self).2⟩
        · exact .inl hmem
      · exact .inr hdone }

theorem markExpanded (h : IsChart E m Ans sp busy) (hi : i < sp.size)
    (hnew : sp.isExpanded i = false) : IsChart E m Ans (sp.markExpanded i) ((i, []) :: busy) where
  isTable := h.isTable.markExpanded i
  isConnected := h.isConnected.of_edges StateSpace.size_markExpanded rfl fun j e he => by simpa using he
  fresh j hj := by
    rw [StateSpace.isExpanded_markExpanded, Bool.or_eq_false_iff] at hj
    rw [StateSpace.edges_markExpanded]
    exact h.fresh j hj.2
  nodup := by
    refine nodup_cons.2 ⟨fun hmem => ?_, h.nodup⟩
    obtain ⟨p, hp, rfl⟩ := mem_map.1 hmem
    simp [(h.underway p hp).1] at hnew
  underway := by
    refine forall_mem_cons.2 ⟨⟨?_, fun k u => ?_⟩, fun p hp => ⟨?_, ?_⟩⟩
    · simp [StateSpace.isExpanded_markExpanded, hi]
    · simp [StateSpace.HasStep, h.fresh i hnew]
    · simp [StateSpace.isExpanded_markExpanded, (h.underway p hp).1]
    · exact StateSpace.stepsAre_markExpanded.2 (h.underway p hp).2
  done j u hu hj := by
    rw [StateSpace.isExpanded_markExpanded, Bool.or_eq_true, decide_eq_true_eq] at hj
    rcases hj with ⟨rfl, -⟩ | hj
    · exact .inl mem_cons_self
    · refine (h.done j u (by simpa using hu) hj).imp (mem_cons_of_mem _) ?_
      rintro ⟨out, hout, hsteps⟩
      exact ⟨out, hout, StateSpace.stepsAre_markExpanded.2 hsteps⟩

theorem touch {sp' : E.Space} (h : IsChart E m Ans sp ((source, out) :: busy)) (htable : sp'.IsTable)
    (hconnected : sp'.IsConnected) (hgrows : sp.Grows sp')
    (hmarks : ∀ j, sp'.isExpanded j = sp.isExpanded j)
    (hedges : ∀ j, j ≠ source → sp'.edges j = sp.edges j) (hsteps : sp'.StepsAre source out') :
    IsChart E m Ans sp' ((source, out') :: busy) := by
  obtain ⟨hnew, -⟩ := nodup_cons.1 h.nodup
  have hexpanded := (h.underway _ mem_cons_self).1
  refine ⟨htable, hconnected, fun j hj => ?_, h.nodup, forall_mem_cons.2 ⟨⟨?_, hsteps⟩,
    fun p hp => ⟨?_, ?_⟩⟩, fun j u hu hj => ?_⟩
  · rw [hmarks] at hj
    rw [hedges j fun heq => by simp [heq, hexpanded] at hj]
    exact h.fresh j hj
  · rw [hmarks]
    exact hexpanded
  · rw [hmarks]
    exact (h.underway p (mem_cons_of_mem _ hp)).1
  · have hne : p.1 ≠ source := fun heq => hnew (mem_map.2 ⟨p, hp, heq⟩)
    exact (h.isTable.stepsAre_congr hgrows (hedges _ hne)).2
      (h.underway p (mem_cons_of_mem _ hp)).2
  · rw [hmarks] at hj
    obtain ⟨v, hv⟩ := StateSpace.exists_state?_of_lt (StateSpace.lt_size_of_isExpanded hj)
    obtain rfl := Option.some.inj (hu.symm.trans (hgrows.state? j v hv))
    by_cases heq : j = source
    · exact .inl (by simp [heq])
    · exact (h.done j u hv hj).imp_right fun ⟨out, hout, hsteps⟩ =>
        ⟨out, hout, (h.isTable.stepsAre_congr hgrows (hedges j heq)).2 hsteps⟩

/-- A state that is being expanded gets a step to a state, which is added if it is not there. -/
theorem connect (h : IsChart E m Ans sp ((source, out) :: busy)) (t : State)
    (hkind : kind ≠ .loop) :
    IsChart E m Ans ((sp.insert t).1.addEdge source kind (sp.insert t).2.1)
      ((source, out ++ [(kind, t)]) :: busy) := by
  obtain ⟨hexpanded, hsteps⟩ := h.underway _ mem_cons_self
  have hlt : source < sp.size := StateSpace.lt_size_of_isExpanded hexpanded
  have hself := sp.state?_insert_self (t := t)
  have hgrows := sp.grows_insert t
  refine h.touch ((h.isTable.insert t).addEdge StateSpace.lt_size_insert hkind)
    (h.isConnected.connect hlt) (hgrows.trans (StateSpace.grows_addEdge _ _ _ _)) (fun j => ?_)
    (fun j hj => ?_) ?_
  · rw [StateSpace.isExpanded_addEdge, StateSpace.isExpanded_insert]
  · rw [StateSpace.edges_addEdge_of_ne hj, StateSpace.edges_insert]
  · refine StateSpace.stepsAre_addEdge (Nat.lt_of_lt_of_le hlt hgrows.size_le) hself ?_
    exact (h.isTable.stepsAre_congr hgrows StateSpace.edges_insert).2 hsteps

theorem setFinal (h : IsChart E m Ans sp ((source, out) :: busy)) (hsp : sp.FinalsAreListed)
    (ht : sp.state? source = some t) :
    IsChart E m Ans (sp.setFinal source) ((source, out ++ [(.loop, t)]) :: busy) := by
  have hlt := StateSpace.lt_size_of_state? ht
  refine h.touch (h.isTable.setFinal hlt) ?_ (StateSpace.grows_setFinal hsp source)
    (fun j => StateSpace.isExpanded_setFinal) (fun j hj => StateSpace.edges_setFinal_of_ne hj)
    (h.isTable.stepsAre_setFinal ht (h.underway _ mem_cons_self).2)
  exact h.isConnected.of_edges StateSpace.size_setFinal StateSpace.initial_setFinal fun j e he =>
    (StateSpace.mem_edges_setFinal_iff h.isTable hlt).2 (.inl he)

end IsChart

/-- The state in which a method starts. -/
def startState (E : Engine) (h : Heap) : State :=
  ⟨E.abstraction.canonical h, .line 0, false⟩

variable {heaps : List Heap}

/-- The initial states of a space are those in which a method starts from the given heaps. -/
structure StartsFrom (E : Engine) (heaps : List Heap) (sp : E.Space) : Prop where
  lt_size : ∀ i ∈ sp.initial, i < sp.size
  exists_iff : ∀ t, (∃ i ∈ sp.initial, sp.state? i = some t) ↔ ∃ h ∈ heaps, t = E.startState h

theorem StartsFrom.holds (h : StartsFrom E heaps sp) : ∀ g ∈ heaps, sp.Holds (E.startState g) := by
  intro g hg
  obtain ⟨i, -, hi⟩ := (h.exists_iff _).2 ⟨g, hg, rfl⟩
  exact ⟨i, hi⟩

theorem StartsFrom.grow {sp' : E.Space} (h : StartsFrom E heaps sp) (hgrows : sp.Grows sp')
    (hinitial : sp'.initial = sp.initial) : StartsFrom E heaps sp' where
  lt_size i hi := Nat.lt_of_lt_of_le (h.lt_size i (hinitial ▸ hi)) hgrows.size_le
  exists_iff t := by
    rw [← h.exists_iff t, hinitial]
    refine exists_congr fun i => and_congr_right fun hi => ?_
    obtain ⟨u, hu⟩ := StateSpace.exists_state?_of_lt (h.lt_size i hi)
    rw [hu, hgrows.state? i u hu]

/-- A space that holds its initial states only, with the search that starts from them. -/
structure IsSeeded (E : Engine) (heaps : List Heap) (S₀ : Search) (sp : E.Space) (S : Search) :
    Prop where
  isTable : sp.IsTable
  initial : sp.initial = List.range sp.size
  isExpanded : ∀ i, sp.isExpanded i = false
  edges : ∀ i, sp.edges i = []
  startsFrom : StartsFrom E heaps sp
  search : S = sp.initial.foldl Search.start S₀

namespace IsSeeded

variable {S₀ S : Search}

theorem empty : IsSeeded E [] S₀ {} S₀ where
  isTable := ⟨nofun, nofun, nofun, nofun, fun i => by simp [StateSpace.isFinal, StateSpace.edges]⟩
  initial := rfl
  isExpanded i := by simp [StateSpace.isExpanded]
  edges i := by simp [StateSpace.edges]
  startsFrom := ⟨by simp, fun t => by simp⟩
  search := rfl

theorem mem_initial (h : IsSeeded E heaps S₀ sp S) : i ∈ sp.initial ↔ i < sp.size := by
  rw [h.initial, mem_range]

theorem isChart (h : IsSeeded E heaps S₀ sp S) : IsChart E m Ans sp [] where
  isTable := h.isTable
  isConnected i hi := ⟨i, h.mem_initial.2 hi, .refl⟩
  fresh i _ := h.edges i
  nodup := nodup_nil
  underway := forall_mem_nil _
  done i t _ hi := by simp [h.isExpanded] at hi

theorem addInitial (h : IsSeeded E heaps S₀ sp S) (g : Heap) :
    IsSeeded E (heaps ++ [g]) S₀ (sp.addInitial (E.startState g)).1
      (if (sp.addInitial (E.startState g)).2.2 then S.start (sp.addInitial (E.startState g)).2.1
        else S) := by
  have hstarts (t : State) : (∃ h ∈ heaps ++ [g], t = E.startState h) ↔
      (∃ i ∈ sp.initial, sp.state? i = some t) ∨ t = E.startState g := by
    rw [h.startsFrom.exists_iff t]
    simp only [mem_append, mem_singleton, or_and_right, exists_or, exists_eq_left]
  rcases sp.insert_cases (E.startState g) with ⟨id, hid, heq⟩ | ⟨heq, -⟩
  · have hmem : id ∈ sp.initial := h.mem_initial.2 (StateSpace.lt_size_of_state? hid)
    have hsp : sp.addInitial (E.startState g) =
        ({ sp with merges := sp.merges + 1 }, id, false) := by
      rw [StateSpace.addInitial, heq]
      simp only [hmem, if_true]
    rw [hsp]
    refine ⟨⟨h.isTable.indexed, h.isTable.unique, h.isTable.inRange, h.isTable.loop,
      h.isTable.final⟩, h.initial, h.isExpanded, h.edges,
      ⟨h.startsFrom.lt_size, fun t => ?_⟩, h.search⟩
    rw [hstarts]
    exact ⟨.inl, fun ht => ht.elim (fun ht => ht) fun ht => ⟨id, hmem, ht ▸ hid⟩⟩
  · have hinitial : (sp.insert (E.startState g)).1.initial = sp.initial :=
      StateSpace.initial_insert
    have hnew : sp.size ∉ sp.initial := fun hmem => Nat.lt_irrefl _ (h.mem_initial.1 hmem)
    have hsp : sp.addInitial (E.startState g) = ({ (sp.insert (E.startState g)).1 with
        initial := sp.initial ++ [sp.size] }, sp.size, true) := by
      rw [StateSpace.addInitial]
      simp only [hinitial, heq, hnew, if_false]
    have hrange : sp.initial ++ [sp.size] = List.range (sp.insert (E.startState g)).1.size := by
      rw [StateSpace.size_insert, heq, h.initial]
      exact range_succ.symm
    have htable := h.isTable.insert (E.startState g)
    have hself := sp.state?_insert_self (t := E.startState g)
    rw [heq] at hself
    rw [hsp]
    refine ⟨⟨htable.indexed, htable.unique, htable.inRange, htable.loop, htable.final⟩, hrange,
      fun i => StateSpace.isExpanded_insert.trans (h.isExpanded i),
      fun i => StateSpace.edges_insert.trans (h.edges i), ⟨fun i hi => ?_, fun t => ?_⟩, ?_⟩
    · exact mem_range.1 (hrange ▸ hi)
    · rw [hstarts]
      constructor
      · rintro ⟨i, hi, ht⟩
        rcases mem_append.1 hi with hi | hi
        · obtain ⟨u, hu⟩ := StateSpace.exists_state?_of_lt (h.mem_initial.1 hi)
          exact .inl ⟨i, hi, hu.trans ((StateSpace.state?_insert_of_state? hu).symm.trans ht)⟩
        · rw [mem_singleton.1 hi] at ht
          exact .inr (Option.some.inj (ht.symm.trans hself))
      · rintro (⟨i, hi, ht⟩ | rfl)
        · exact ⟨i, mem_append_left _ hi, StateSpace.state?_insert_of_state? ht⟩
        · exact ⟨sp.size, by simp, hself⟩
    · simp only [if_true, foldl_append, foldl_cons, foldl_nil, ← h.search]

end IsSeeded

/-- A chart from the given heaps, in which the unfolded states are expanded. -/
structure IsDrawn (E : Engine) (m : Code.Method) (Ans : Answering) (heaps : List Heap)
    (sp : E.Space) : Prop where
  isChart : IsChart E m Ans sp []
  unfolded : ∀ i t, sp.state? i = some t → t.unfolded → sp.isExpanded i
  startsFrom : StartsFrom E heaps sp

theorem IsDrawn.mono (h : IsDrawn E m Ans heaps sp)
    (hAns : ∀ site g results, Ans site g results → Ans' site g results) :
    IsDrawn E m Ans' heaps sp :=
  ⟨h.isChart.mono hAns, h.unfolded, h.startsFrom⟩

/-- A stage of an exploration. The states at `waiting` wait. A search that drops states is not `full`:
its states are reached, but what follows them may be missing. -/
structure IsStage (E : Engine) (m : Code.Method) (Ans : Answering) (heaps : List Heap) (full : Prop)
    (sp : E.Space) (busy : List (StateId × List (EdgeKind × State))) (waiting : List StateId) : Prop
    extends IsChart E m Ans sp busy where
  reached : ∀ id t, sp.state? id = some t → Reached E m Ans heaps t
  unfolded : ∀ id t, sp.state? id = some t → t.unfolded → sp.isExpanded id
  finals : sp.FinalsAreListed
  bound : ∀ id ∈ waiting, id < sp.size
  waits : full → ∀ id t, sp.state? id = some t → sp.isExpanded id ∨ id ∈ waiting

namespace IsStage

variable {full : Prop} {waiting waiting' : List StateId} {id : StateId}

theorem mono (h : IsStage E m Ans heaps full sp busy waiting)
    (hAns : ∀ site g results, Ans site g results → Ans' site g results) :
    IsStage E m Ans' heaps full sp busy waiting :=
  { h with
    toIsChart := h.toIsChart.mono hAns
    reached := fun id t ht => (h.reached id t ht).mono hAns }

/-- States that wait no more are expanded, unless the search drops states, and others may wait. -/
theorem rearrange {full' : Prop} (h : IsStage E m Ans heaps full sp busy waiting)
    (hwaits : full' → full ∧ ∀ id ∈ waiting, sp.isExpanded id ∨ id ∈ waiting')
    (hbound : ∀ id ∈ waiting', id < sp.size) : IsStage E m Ans heaps full' sp busy waiting' :=
  { h with
    bound := hbound
    waits := fun hfull id t ht =>
      (h.waits (hwaits hfull).1 id t ht).elim .inl ((hwaits hfull).2 id) }

theorem finish (h : IsStage E m Ans heaps full sp ((i, out) :: busy) waiting)
    (ht : sp.state? i = some t) (hout : Outgoing E m Ans t out) :
    IsStage E m Ans heaps full sp busy waiting :=
  { h with toIsChart := h.toIsChart.finish ht hout }

theorem markExpanded (h : IsStage E m Ans heaps full sp [] (id :: waiting))
    (hid : sp.isExpanded id = false) :
    IsStage E m Ans heaps full (sp.markExpanded id) [(id, [])] waiting where
  toIsChart := h.toIsChart.markExpanded (h.bound id mem_cons_self) hid
  reached j t ht := h.reached j t (by simpa using ht)
  unfolded j t ht hunf := by
    rw [StateSpace.isExpanded_markExpanded, h.unfolded j t (by simpa using ht) hunf, Bool.or_true]
  finals j hj := h.finals j (by simpa using hj)
  bound j hj := by simpa using h.bound j (mem_cons_of_mem _ hj)
  waits hfull j t ht := by
    rw [StateSpace.isExpanded_markExpanded, Bool.or_eq_true, decide_eq_true_eq]
    rcases h.waits hfull j t (by simpa using ht) with hj | hj
    · exact .inl (.inr hj)
    · rcases mem_cons.1 hj with rfl | hj
      · exact .inl (.inl ⟨rfl, h.bound j mem_cons_self⟩)
      · exact .inr hj

theorem setFinal (h : IsStage E m Ans heaps full sp ((i, out) :: busy) waiting)
    (ht : sp.state? i = some t) :
    IsStage E m Ans heaps full (sp.setFinal i) ((i, out ++ [(.loop, t)]) :: busy) waiting where
  toIsChart := h.toIsChart.setFinal h.finals ht
  reached j u hu := h.reached j u (by simpa using hu)
  unfolded j u hu hunf := by simpa using h.unfolded j u (by simpa using hu) hunf
  finals := h.finals.setFinal
  bound j hj := by simpa using h.bound j hj
  waits hfull j u hu := by simpa using h.waits hfull j u (by simpa using hu)

section Connect

variable (h : IsStage E m Ans heaps full sp ((i, out) :: busy) waiting)
  (ht : Reached E m Ans heaps t)

include h ht

theorem reached_insert {u : State} (hu : (sp.insert t).1.state? id = some u) :
    Reached E m Ans heaps u := by
  rcases StateSpace.state?_insert_cases hu with hu | ⟨-, -, rfl⟩
  · exact h.reached id u hu
  · exact ht

omit ht in
theorem finals_insert : (sp.insert t).1.FinalsAreListed := by
  intro id hid
  rw [(sp.insert_eq t id).2.1] at hid
  rw [(sp.insert_eq t id).2.2.2]
  exact h.finals id hid

/-- A state that is being expanded gets a step to a state. If the state is new, then it waits. -/
theorem connect (hunf : t.unfolded = false) :
    IsStage E m Ans heaps full ((sp.insert t).1.addEdge i .flow (sp.insert t).2.1)
      ((i, out ++ [(.flow, t)]) :: busy)
      (waiting ++ if (sp.insert t).2.2 then [(sp.insert t).2.1] else []) where
  toIsChart := h.toIsChart.connect t (by decide)
  reached id u hu := h.reached_insert ht (by simpa using hu)
  unfolded id u hu hunf' := by
    rw [StateSpace.isExpanded_addEdge, StateSpace.isExpanded_insert]
    rw [StateSpace.state?_addEdge] at hu
    rcases StateSpace.state?_insert_cases hu with hu | ⟨-, -, rfl⟩
    · exact h.unfolded id u hu hunf'
    · rw [hunf] at hunf'
      cases hunf'
  finals id hid := h.finals_insert id (by simpa using hid)
  bound id hid := by
    rw [StateSpace.size_addEdge]
    rcases mem_append.1 hid with hid | hid
    · exact Nat.lt_of_lt_of_le (h.bound id hid) StateSpace.size_le_size_insert
    · split at hid
      · rw [mem_singleton.1 hid]
        exact StateSpace.lt_size_insert
      · cases hid
  waits hfull id u hu := by
    rw [StateSpace.isExpanded_addEdge, StateSpace.isExpanded_insert]
    rw [StateSpace.state?_addEdge] at hu
    rcases StateSpace.state?_insert_cases hu with hu | ⟨hnew, rfl, -⟩
    · exact (h.waits hfull id u hu).imp_right (mem_append_left _)
    · rw [if_pos hnew]
      exact .inr (mem_append_right _ mem_cons_self)

/-- A state that is being expanded gets a step to an unfolded variant. If the variant is new, then it
is to be expanded at once. -/
theorem unfold :
    IsStage E m Ans heaps full (if (sp.insert t).2.2 then
        ((sp.insert t).1.addEdge i .unfolding (sp.insert t).2.1).markExpanded (sp.insert t).2.1
      else (sp.insert t).1.addEdge i .unfolding (sp.insert t).2.1)
      ((i, out ++ [(.unfolding, t)]) ::
        (busy ++ if (sp.insert t).2.2 then [((sp.insert t).2.1, [])] else [])) waiting := by
  have hchart := h.toIsChart.connect t (show EdgeKind.unfolding ≠ .loop by decide)
  have hbound : ∀ id ∈ waiting, id < (sp.insert t).1.size := fun id hid =>
    Nat.lt_of_lt_of_le (h.bound id hid) StateSpace.size_le_size_insert
  split
  · next hfresh =>
    have hnew : sp.isExpanded (sp.insert t).2.1 = false := by
      rw [Bool.eq_false_iff]
      intro hexp
      obtain ⟨v, hv⟩ := StateSpace.exists_state?_of_lt (StateSpace.lt_size_of_isExpanded hexp)
      have hself := sp.state?_insert_self (t := t)
      rw [StateSpace.state?_insert_of_state? hv] at hself
      exact h.isTable.state?_ne_of_fresh hfresh (hself ▸ hv)
    have hmarked (id : StateId) : (((sp.insert t).1.addEdge i .unfolding
        (sp.insert t).2.1).markExpanded (sp.insert t).2.1).isExpanded id ↔
        id = (sp.insert t).2.1 ∨ sp.isExpanded id := by
      rw [StateSpace.isExpanded_markExpanded, Bool.or_eq_true, decide_eq_true_eq,
        StateSpace.isExpanded_addEdge, StateSpace.isExpanded_insert, StateSpace.size_addEdge]
      exact or_congr_left ⟨And.left, fun heq => ⟨heq, heq ▸ StateSpace.lt_size_insert⟩⟩
    refine ⟨(hchart.markExpanded ?_ ?_).perm ?_, fun id u hu => h.reached_insert ht (by simpa using hu),
      fun id u hu hunf => ?_, fun id hid => h.finals_insert id (by simpa using hid),
      fun id hid => by simpa using hbound id hid, fun hfull id u hu => ?_⟩
    · rw [StateSpace.size_addEdge]
      exact StateSpace.lt_size_insert
    · rw [StateSpace.isExpanded_addEdge, StateSpace.isExpanded_insert, hnew]
    · exact (List.Perm.swap _ _ _).trans ((perm_append_singleton _ _).symm.cons _)
    · rw [hmarked]
      rcases StateSpace.state?_insert_cases (t := t) (by simpa using hu) with hu | ⟨-, heq, -⟩
      · exact .inr (h.unfolded id u hu hunf)
      · exact .inl heq
    · rw [hmarked]
      rcases StateSpace.state?_insert_cases (t := t) (by simpa using hu) with hu | ⟨-, heq, -⟩
      · exact (h.waits hfull id u hu).imp_left .inr
      · exact .inl (.inl heq)
  · next hold =>
    have hstate {id : StateId} {u : State} (hu : ((sp.insert t).1.addEdge i .unfolding
        (sp.insert t).2.1).state? id = some u) : sp.state? id = some u :=
      (StateSpace.state?_insert_cases (by simpa using hu)).resolve_right fun hnew => hold hnew.1
    rw [append_nil]
    exact ⟨hchart, fun id u hu => h.reached id u (hstate hu),
      fun id u hu hunf => by simpa using h.unfolded id u (hstate hu) hunf,
      fun id hid => h.finals_insert id (by simpa using hid), fun id hid => by simpa using hbound id hid,
      fun hfull id u hu => by simpa using h.waits hfull id u (hstate hu)⟩

end Connect

end IsStage

/-- A space that holds the initial states and all that follows its states. -/
structure IsExplored (E : Engine) (m : Code.Method) (Ans : Answering) (heaps : List Heap)
    (sp : E.Space) : Prop where
  start : ∀ h ∈ heaps, sp.Holds (E.startState h)
  stage : IsStage E m Ans heaps True sp [] []

namespace IsExplored

theorem mono (hsp : IsExplored E m Ans heaps sp)
    (hAns : ∀ site g results, Ans site g results → Ans' site g results) :
    IsExplored E m Ans' heaps sp :=
  ⟨hsp.start, hsp.stage.mono hAns⟩

theorem reached (hsp : IsExplored E m Ans heaps sp) (ht : sp.Holds t) :
    Reached E m Ans heaps t :=
  ht.elim fun id hid => hsp.stage.reached id t hid

theorem exists_outgoing (hsp : IsExplored E m Ans heaps sp) (ht : sp.state? i = some t) :
    ∃ out, Outgoing E m Ans t out ∧ sp.StepsAre i out := by
  have hexpanded := (hsp.stage.waits trivial i t ht).resolve_right not_mem_nil
  exact (hsp.stage.done i t ht hexpanded).resolve_left not_mem_nil

theorem isRun {stmt : Code.Statement} {g : Heap} {next : List (Location × Heap)}
    (hnext : stmt.Yields Ans g next) (hsteps : sp.StepsAre i (E.flowSteps t next)) :
    IsRun E Ans sp stmt g := by
  refine ⟨next, hnext, fun p hp => ?_⟩
  rw [flowSteps, if_neg fun hnil => by simp [List.isEmpty_iff.1 hnil] at hp] at hsteps
  obtain ⟨j, -, hj⟩ := (hsteps .flow _).2 (mem_map_of_mem hp)
  exact ⟨j, hj⟩

theorem isRun_of_unfolded (hsp : IsExplored E m Ans heaps sp) {stmt : Code.Statement}
    (ht : sp.Holds t) (hunf : t.unfolded) (hstmt : statementAt? m t = some stmt) :
    IsRun E Ans sp stmt t.heap := by
  obtain ⟨i, hi⟩ := ht
  obtain ⟨out, hout, hsteps⟩ := hsp.exists_outgoing hi
  cases hout with
  | stay hnone => cases hnone.symm.trans hstmt
  | unfold _ hfalse => rw [hunf] at hfalse; cases hfalse
  | run hstmt' _ hnext =>
    obtain rfl := Option.some.inj (hstmt.symm.trans hstmt')
    exact isRun hnext hsteps

theorem isDone (hsp : IsExplored E m Ans heaps sp) (ht : sp.Holds t) : IsDone E m Ans sp t := by
  obtain ⟨i, hi⟩ := ht
  obtain ⟨out, hout, hsteps⟩ := hsp.exists_outgoing hi
  cases hout with
  | stay hnone =>
    obtain ⟨j, hj, -⟩ := (hsteps .loop t).2 mem_cons_self
    obtain rfl := hsp.stage.isTable.loop i j hj
    exact (isDone_iff_of_none hnone).2 ⟨j, hsp.stage.finals j ((hsp.stage.isTable.final j).2 hj), hi⟩
  | @unfold stmt vs hstmt hunf hvs hne =>
    simp only [IsDone, hstmt, hunf]
    refine ⟨vs, by rw [sources_eq_map, hvs, Except.map, if_neg hne], fun g hg => ?_⟩
    obtain ⟨j, -, hj⟩ := (hsteps .unfolding ⟨g, t.location, true⟩).2 (mem_map_of_mem hg)
    exact hsp.isRun_of_unfolded ⟨j, hj⟩ rfl hstmt
  | @run stmt next hstmt hnone hnext =>
    simp only [IsDone, hstmt]
    split
    · exact isRun hnext hsteps
    · next hunf =>
      refine ⟨[t.heap], by rw [sources_eq_map, hnone (by simpa using hunf)]; rfl, fun g hg => ?_⟩
      rw [mem_singleton.1 hg]
      exact isRun hnext hsteps

theorem mem_harvest_iff (hsp : IsExplored E m Ans heaps sp) {q : Heap} :
    q ∈ E.harvest sp ↔ ∃ h, sp.Holds ⟨h, .exit, false⟩ ∧ E.harvestHeap h = q := by
  rw [harvest, SortedSet.mem_ofList, mem_map]
  constructor
  · rintro ⟨⟨h, l, unfolded⟩, ht, rfl⟩
    obtain ⟨ht, hexit⟩ := mem_filter.1 ht
    obtain ⟨id, -, hid⟩ := mem_filterMap.1 ht
    obtain rfl : l = .exit := by simpa [State.isExit] using hexit
    cases unfolded with
    | false => exact ⟨h, ⟨id, hid⟩, rfl⟩
    | true => exact absurd rfl ((hsp.stage.reached id _ hid).location_ne_exit rfl)
  · rintro ⟨h, hh, rfl⟩
    obtain ⟨id, hid, hstate⟩ := (isDone_iff_of_none rfl).1 (hsp.isDone hh)
    exact ⟨_, mem_filter.2 ⟨mem_filterMap.2 ⟨id, hid, hstate⟩, rfl⟩, rfl⟩

end IsExplored

end Engine

end ShapeCheck
