import ShapeCheck.Proofs.Chart
import ShapeCheck.Proofs.Ensures
import ShapeCheck.Proofs.Waiting

/-!
# What a generation finds

A condition on the space and the session is *upheld* if it survives each thing that a generation does:
putting a state that is reached into the space, linking and marking states, counting, and making a
call. A generation then keeps the condition up to its end, and it draws a chart of states that are
reached. A depth-first generation that ends with a space has found all that follows its states.

A handler of calls *obeys a protocol* if, in every session that the protocol admits, it gives
admissible answers or an admissible refusal, and leaves a later session of the protocol. With such a
handler a generation upholds that sessions are later ones. If it fails, then a bound is reached, or
some state that is reached cannot be run.

## Main results

* `Upholds.generateWith_ensures`: a generation keeps what is upheld.
* `generateWith_ensures`: what it finds, and why it fails.
-/

namespace ShapeCheck

open List

/-- A session that differs in counters only; bounds may have been looked at. -/
structure Session.Counted (s t : Session) : Prop where
  contracts : t.contracts = s.contracts
  stack : t.stack = s.stack
  required : t.required = s.required
  turns : t.turns = s.turns
  waits : t.waits = s.waits
  limits : s.limits = [] → t.limits = []

/-- A run that is stopped from outside: its steps are used up, or a bound is reached. -/
def GenerationError.IsStop (e : GenerationError) (s : Session) : Prop :=
  e = .outOfSteps ∨ s.limits ≠ [] ∧ ∃ reason, e = .aborted reason

/-- What is expected of a handler of calls. -/
structure Protocol where
  /-- The sessions that may come after a session. A session that may come after itself is one that
  the protocol admits. -/
  Later : Session → Session → Prop
  /-- The calls that the handler is prepared for. -/
  Asks : Code.CallSite → Heap → Prop
  /-- The answers that it may give. -/
  Answers : Session → Answering
  /-- The errors with which it may refuse a call. -/
  Refuses : Code.CallSite → Heap → GenerationError → Prop
  trans {s t u : Session} : Later s t → Later t u → Later s u
  self {s t : Session} : Later s t → Later t t
  limits {s t : Session} : Later s t → s.limits = [] → t.limits = []
  count {s t u : Session} : Later s t → t.Counted u → Later s u
  answers {s t : Session} {site : Code.CallSite} {g : Heap} {results : List Heap} :
    Later s t → Answers s site g results → Answers t site g results

theorem GenerationError.IsStop.earlier {Pr : Protocol} {e : GenerationError} {s t : Session}
    (h : e.IsStop t) (ht : Pr.Later s t) : e.IsStop s :=
  h.imp_right (And.imp_left fun hne heq => hne (Pr.limits ht heq))

/-- The handler keeps to the protocol. -/
def Protocol.IsObeyed (Pr : Protocol) (call : CallHandler) : Prop :=
  ∀ s site g, Pr.Later s s → Pr.Asks site g →
    (call site g).Ensures s (fun results t => Pr.Later s t ∧ Pr.Answers t site g results)
      fun e t => Pr.Later s t ∧ (e.IsStop s ∨ Pr.Refuses site g e)

/-- The session after a state has been put into a space. -/
def Session.insertion (s : Session) (fresh : Bool) : Session :=
  (s.note (.inserted fresh)).countIf fresh

theorem Session.counted_insertion (s : Session) (fresh : Bool) : s.Counted (s.insertion fresh) := by
  cases fresh <;> exact ⟨rfl, rfl, rfl, rfl, rfl, fun h => h⟩

theorem Session.counted_countIf (s : Session) (fresh : Bool) : s.Counted (s.countIf fresh) := by
  cases fresh <;> exact ⟨rfl, rfl, rfl, rfl, rfl, fun h => h⟩

theorem Session.counted_note (s : Session) (event : Event) : s.Counted (s.note event) :=
  ⟨rfl, rfl, rfl, rfl, rfl, fun h => h⟩

theorem Run.checkLimits_ensures (clock : Session → Reading) {s : Session} :
    (Run.checkLimits clock).Ensures s (fun _ t => s.Counted t ∧ t.effort = s.effort)
      fun e t => (s.Counted t ∧ t.effort = s.effort) ∧ s.limits ≠ [] ∧
        ∃ reason, e = .aborted reason := by
  have hcounted : s.Counted
      (Session.note { s with limits := (s.limits.check (clock s) s.effort).1 } .taken) :=
    ⟨rfl, rfl, rfl, rfl, rfl, fun h => by simp [Session.note, h, Limits.check]⟩
  rw [checkLimits, ensures_bind, ensures_get]
  dsimp only
  rw [ensures_bind, ensures_set]
  cases hreason : (s.limits.check (clock s) s.effort).2 with
  | none => exact ⟨hcounted, rfl⟩
  | some reason =>
    refine ⟨⟨hcounted, rfl⟩, fun h => ?_, reason, rfl⟩
    simp [h, Limits.check] at hreason

namespace Engine

/-! ### Conditions that are upheld -/

/-- A stage of an exploration at which the condition holds, with the states that wait. -/
structure IsKept (E : Engine) (m : Code.Method) (Ans : Answering) (heaps : List Heap)
    (I : E.Space → Session → Prop) (sp : E.Space) (waiting : List StateId) (s : Session) : Prop where
  stage : ∃ busy, IsStage E m Ans heaps False sp busy waiting
  holds : I sp s

/-- A condition on the space and the session survives what a generation does to spaces and counters.
Calls are answered as `Ans` says. -/
structure Endures (E : Engine) (m : Code.Method) (heaps : List Heap) (Ans : Session → Answering)
    (I : E.Space → Session → Prop) : Prop where
  insert {sp : E.Space} {s : Session} {t : State} : Reached E m (Ans s) heaps t → I sp s →
    I (sp.insert t).1 (s.insertion (sp.insert t).2.2)
  addEdge {sp : E.Space} {s : Session} {i target : StateId} {kind : EdgeKind} : target < sp.size →
    kind ≠ .loop → I sp s → I (sp.addEdge i kind target) s
  setFinal {sp : E.Space} {s : Session} {i : StateId} : i < sp.size → I sp s → I (sp.setFinal i) s
  markExpanded {sp : E.Space} {s : Session} {i : StateId} : I sp s → I (sp.markExpanded i) s
  initial {sp : E.Space} {s : Session} {initial : List StateId} : I sp s → I { sp with initial } s
  count {sp : E.Space} {s t : Session} : s.Counted t → t.effort = s.effort → I sp s → I sp t

/-- A condition that a generation upholds, with the ways `F` in which it may fail. -/
structure Upholds (E : Engine) (m : Code.Method) (call : CallHandler) (heaps : List Heap)
    (Ans : Session → Answering) (I : E.Space → Session → Prop) (F : GenerationError → Session → Prop) :
    Prop extends Endures E m heaps Ans I where
  answers {sp : E.Space} {s t : Session} : s.Counted t → I sp s →
    ∀ site g results, Ans s site g results → Ans t site g results
  aborted {sp : E.Space} {waiting : List StateId} {s t : Session} {reason : LimitReached} :
    IsKept E m (Ans s) heaps I sp waiting s → s.limits ≠ [] → s.Counted t → t.effort = s.effort →
    F (.aborted reason) t
  unfolding {sp : E.Space} {waiting : List StateId} {s : Session} {h : Heap} {i : Nat}
    {stmt : Code.Statement} {e : UnfoldError} : IsKept E m (Ans s) heaps I sp waiting s →
    Reached E m (Ans s) heaps ⟨h, .line i, false⟩ → m.statement? i = some stmt →
    E.sources stmt h = .error e → F (.unfolding e) s
  fault {sp : E.Space} {waiting : List StateId} {s : Session} {g : Heap} {i : Nat}
    {stmt : Code.Statement} : IsKept E m (Ans s) heaps I sp waiting s →
    Reached E m (Ans s) heaps ⟨g, .line i, true⟩ → m.statement? i = some stmt →
    stmt.step g = .fault → F (.nullDereference stmt.nullDereference) s
  call {sp : E.Space} {waiting : List StateId} {s : Session} {g : Heap} {i : Nat}
    {stmt : Code.Statement} {site : Code.CallSite} : IsKept E m (Ans s) heaps I sp waiting s →
    Reached E m (Ans s) heaps ⟨g, .line i, true⟩ → m.statement? i = some stmt →
    stmt.step g = .call site → (call site g).Ensures s (fun results t => I sp t ∧
      Ans t site g results ∧ ∀ site g results, Ans s site g results → Ans t site g results) F

/-! ### Stages of an expansion -/

/-- A stage of a generation. -/
structure AtStage (E : Engine) (m : Code.Method) (heaps : List Heap) (Ans : Session → Answering)
    (I : E.Space → Session → Prop) (full : Prop) (sp : E.Space)
    (busy : List (StateId × List (EdgeKind × State))) (waiting : List StateId) (s : Session) :
    Prop where
  stage : IsStage E m (Ans s) heaps full sp busy waiting
  holds : I sp s

/-- A later point in an expansion: the space has advanced, all states that were found are new, and
calls may be answered as before. -/
structure Finds {E : Engine} (Ans : Session → Answering) (r : E.Space × List StateId) (s : Session)
    (r' : E.Space × List StateId) (t : Session) : Prop where
  advances : r.1.Advances r'.1
  length_le : r.1.size + r'.2.length ≤ r'.1.size + r.2.length
  answers : ∀ site g results, Ans s site g results → Ans t site g results

variable {E : Engine} {call : CallHandler} {m : Code.Method} {heaps : List Heap}
  {Ans : Session → Answering} {I : E.Space → Session → Prop} {F : GenerationError → Session → Prop}
  {full : Prop} {s t : Session} {sp : E.Space} {busy : List (StateId × List (EdgeKind × State))}
  {waiting stack found : List StateId} {g h : Heap} {i : Nat} {stmt : Code.Statement} {id : StateId}
  {out : List (EdgeKind × State)} {u : State}

theorem Finds.refl (r : E.Space × List StateId) (s : Session) : Finds Ans r s r s :=
  ⟨.refl r.1, Nat.le_refl _, fun _ _ _ h => h⟩

theorem Finds.trans {r r' r'' : E.Space × List StateId} {u : Session} (h : Finds Ans r s r' t)
    (h' : Finds Ans r' t r'' u) : Finds Ans r s r'' u where
  advances := h.advances.trans h'.advances
  length_le := by
    have := h.length_le
    have := h'.length_le
    omega
  answers site g results hanswer := h'.answers site g results (h.answers site g results hanswer)

theorem AtStage.isKept (hst : AtStage E m heaps Ans I full sp busy waiting s) :
    IsKept E m (Ans s) heaps I sp waiting s :=
  ⟨⟨busy, hst.stage.rearrange False.elim hst.stage.bound⟩, hst.holds⟩

theorem AtStage.finish (hst : AtStage E m heaps Ans I full sp ((id, out) :: busy) waiting s)
    (hu : sp.state? id = some u) (hout : Outgoing E m (Ans s) u out) :
    AtStage E m heaps Ans I full sp busy waiting s :=
  ⟨hst.stage.finish hu hout, hst.holds⟩

theorem ensures_addSuccessor {source : StateId} {r : E.Space × List StateId} {p : Location × Heap}
    {Q : E.Space × List StateId → Session → Prop} : (E.addSuccessor source r p).Ensures s Q F ↔
      Q ((r.1.insert (E.settled p.1 p.2)).1.addEdge source .flow (r.1.insert (E.settled p.1 p.2)).2.1,
        r.2 ++ if (r.1.insert (E.settled p.1 p.2)).2.2 then [(r.1.insert (E.settled p.1 p.2)).2.1]
          else []) (s.insertion (r.1.insert (E.settled p.1 p.2)).2.2) :=
  Iff.rfl

theorem ensures_addVariant {l : Location} {r : E.Space × List (StateId × Heap)}
    {Q : E.Space × List (StateId × Heap) → Session → Prop} : (E.addVariant id l r g).Ensures s Q F ↔
      Q (if (r.1.insert ⟨g, l, true⟩).2.2 then ((r.1.insert ⟨g, l, true⟩).1.addEdge id .unfolding
          (r.1.insert ⟨g, l, true⟩).2.1).markExpanded (r.1.insert ⟨g, l, true⟩).2.1
        else (r.1.insert ⟨g, l, true⟩).1.addEdge id .unfolding (r.1.insert ⟨g, l, true⟩).2.1,
        r.2 ++ if (r.1.insert ⟨g, l, true⟩).2.2 then [((r.1.insert ⟨g, l, true⟩).2.1, g)] else [])
        (s.insertion (r.1.insert ⟨g, l, true⟩).2.2) :=
  Iff.rfl

theorem ensures_addStart {r : E.Space × Search} {Q : E.Space × Search → Session → Prop} :
    (E.addStart r h).Ensures s Q F ↔ Q ((r.1.addInitial (E.startState h)).1,
      if (r.1.addInitial (E.startState h)).2.2 then r.2.start (r.1.addInitial (E.startState h)).2.1
        else r.2) (s.insertion (r.1.addInitial (E.startState h)).2.2) :=
  Iff.rfl

/-- A state with the heap from which a statement is run: an unfolded state, or a state that needs no
unfolding. -/
def IsSource (E : Engine) (stmt : Code.Statement) (i : Nat) (sp : E.Space) (p : StateId × Heap) : Prop :=
  ∃ unfolded, sp.state? p.1 = some ⟨p.2, .line i, unfolded⟩ ∧
    (unfolded = false → E.unfoldings stmt p.2 = .ok [])

theorem IsSource.grow {p : StateId × Heap} {sp' : E.Space} (hp : IsSource E stmt i sp p)
    (hgrows : sp.Grows sp') : IsSource E stmt i sp' p :=
  hp.imp fun _ => And.imp_left (hgrows.state? _ _)

theorem IsSource.reached {p : StateId × Heap} {Ans : Answering} (hp : IsSource E stmt i sp p)
    (hst : IsStage E m Ans heaps full sp busy waiting) (hstmt : m.statement? i = some stmt) :
    Reached E m Ans heaps ⟨p.2, .line i, true⟩ := by
  obtain ⟨unfolded, hstate, hnone⟩ := hp
  have hreached := hst.reached _ _ hstate
  cases unfolded with
  | true => exact hreached
  | false =>
    have hsources : E.sources stmt p.2 = .ok [p.2] := by
      rw [sources_eq_map, hnone rfl]
      rfl
    exact .source hreached hstmt hsources mem_cons_self

/-! ### Expanding a state -/

namespace Upholds

variable (hU : Upholds E m call heaps Ans I F)

include hU

theorem counted (hst : AtStage E m heaps Ans I full sp busy waiting s) (ht : s.Counted t)
    (heffort : t.effort = s.effort) : AtStage E m heaps Ans I full sp busy waiting t :=
  ⟨hst.stage.mono (hU.answers ht hst.holds), hU.count ht heffort hst.holds⟩

theorem connect (hst : AtStage E m heaps Ans I full sp ((id, out) :: busy) (waiting ++ found) s)
    (hu : Reached E m (Ans s) heaps u) (hunf : u.unfolded = false) :
    AtStage E m heaps Ans I full ((sp.insert u).1.addEdge id .flow (sp.insert u).2.1)
      ((id, out ++ [(.flow, u)]) :: busy)
      (waiting ++ (found ++ if (sp.insert u).2.2 then [(sp.insert u).2.1] else []))
      (s.insertion (sp.insert u).2.2) ∧
    Finds Ans (sp, found) s ((sp.insert u).1.addEdge id .flow (sp.insert u).2.1,
      found ++ if (sp.insert u).2.2 then [(sp.insert u).2.1] else [])
      (s.insertion (sp.insert u).2.2) := by
  have hAns := hU.answers (s.counted_insertion (sp.insert u).2.2) hst.holds
  refine ⟨⟨?_, hU.addEdge StateSpace.lt_size_insert nofun (hU.insert hu hst.holds)⟩,
    StateSpace.advances_connect, ?_, hAns⟩
  · rw [← append_assoc]
    exact (hst.stage.connect hu hunf).mono hAns
  · simp only [StateSpace.size_addEdge, StateSpace.size_insert, length_append]
    split
    · simp only [length_singleton]
      omega
    · exact Nat.le_refl _

theorem successors_ensures (hst : AtStage E m heaps Ans I full sp busy waiting s)
    (hstmt : m.statement? i = some stmt) (hg : Reached E m (Ans s) heaps ⟨g, .line i, true⟩) :
    (successors call stmt g).Ensures s (fun next t =>
      AtStage E m heaps Ans I full sp busy waiting t ∧ stmt.Yields (Ans t) g next ∧
        ∀ site g results, Ans s site g results → Ans t site g results) F := by
  rw [successors]
  cases hstep : stmt.step g with
  | moves next => exact ⟨hst, by simp only [Code.Statement.Yields, hstep], fun _ _ _ h => h⟩
  | fault => exact hU.fault hst.isKept hg hstmt hstep
  | call site =>
    dsimp only
    rw [Run.ensures_bind]
    refine (hU.call hst.isKept hg hstmt hstep).imp (fun results t ⟨ht, hanswer, hAns⟩ =>
      ⟨⟨hst.stage.mono hAns, ht⟩, ?_, hAns⟩) fun _ _ h => h
    simp only [Code.Statement.Yields, hstep]
    exact ⟨results, hanswer, rfl⟩

theorem addSuccessors_ensures {next : List (Location × Heap)}
    (hst : AtStage E m heaps Ans I full sp ((id, out) :: busy) (waiting ++ found) s)
    (hnext : ∀ p ∈ next, Reached E m (Ans s) heaps (E.settled p.1 p.2)) :
    (next.foldlM (E.addSuccessor id) (sp, found)).Ensures s (fun r t =>
      AtStage E m heaps Ans I full r.1 ((id, out ++ next.map fun p => (.flow, E.settled p.1 p.2)) ::
        busy) (waiting ++ r.2) t ∧ Finds Ans (sp, found) s r t) F := by
  induction next generalizing sp found out s with
  | nil => exact ⟨by simpa using hst, .refl _ s⟩
  | cons p next ih =>
    obtain ⟨hp, hnext⟩ := forall_mem_cons.1 hnext
    obtain ⟨hst', hfinds⟩ := hU.connect hst hp rfl
    rw [foldlM_cons, Run.ensures_bind, ensures_addSuccessor]
    refine (ih hst' fun q hq => (hnext q hq).mono hfinds.answers).imp
      (fun r t ⟨hr, hfinds'⟩ => ⟨?_, hfinds.trans hfinds'⟩) fun _ _ h => h
    rwa [append_assoc] at hr

/-- Running a statement from a state that has no steps yet gives it the steps that lead out of it. -/
theorem runFrom_ensures (hst : AtStage E m heaps Ans I full sp ((id, []) :: busy) (waiting ++ found) s)
    (hstmt : m.statement? i = some stmt) (hsource : IsSource E stmt i sp (id, g)) :
    (E.runFrom call stmt (sp, found) (id, g)).Ensures s (fun r t =>
      AtStage E m heaps Ans I full r.1 busy (waiting ++ r.2) t ∧ Finds Ans (sp, found) s r t) F := by
  have hg := hsource.reached hst.stage hstmt
  obtain ⟨unfolded, hid, hnone⟩ := hsource
  have heq : E.runFrom call stmt (sp, found) (id, g) = successors call stmt g >>= fun next =>
      next.foldlM (E.addSuccessor id) (if next.isEmpty then sp.setFinal id else sp, found) := rfl
  rw [heq, Run.ensures_bind]
  refine (hU.successors_ensures hst hstmt hg).imp (fun next t ⟨hst', hnext, hAns⟩ => ?_) fun _ _ h => h
  have hout : Outgoing E m (Ans t) ⟨g, .line i, unfolded⟩ (E.flowSteps _ next) :=
    .run hstmt hnone hnext
  cases next with
  | nil =>
    have hfinal := hU.setFinal (StateSpace.lt_size_of_state? hid) hst'.holds
    exact ⟨AtStage.finish ⟨hst'.stage.setFinal hid, hfinal⟩ (StateSpace.state?_setFinal.trans hid) hout,
      StateSpace.advances_setFinal hst'.stage.finals, by simp, hAns⟩
  | cons p next =>
    refine (hU.addSuccessors_ensures hst' fun q hq =>
      .step (hg.mono hAns) hstmt hnext hq).imp (fun r u ⟨hr, hfinds⟩ => ⟨?_, ?_⟩) fun _ _ h => h
    · exact hr.finish (hfinds.advances.grows.state? _ _ hid) (hout.mono hfinds.answers)
    · exact ⟨hfinds.advances, hfinds.length_le, fun _ _ _ h => hfinds.answers _ _ _ (hAns _ _ _ h)⟩

theorem runSources_ensures (srcs : List (StateId × Heap))
    (hst : AtStage E m heaps Ans I full sp (srcs.map fun p => (p.1, [])) (waiting ++ found) s)
    (hstmt : m.statement? i = some stmt) (hsrcs : ∀ p ∈ srcs, IsSource E stmt i sp p) :
    (srcs.foldlM (E.runFrom call stmt) (sp, found)).Ensures s (fun r t =>
      AtStage E m heaps Ans I full r.1 [] (waiting ++ r.2) t ∧ Finds Ans (sp, found) s r t) F := by
  induction srcs generalizing sp found s with
  | nil => exact ⟨hst, .refl _ s⟩
  | cons p srcs ih =>
    obtain ⟨hp, hsrcs⟩ := forall_mem_cons.1 hsrcs
    rw [foldlM_cons, Run.ensures_bind]
    refine (hU.runFrom_ensures hst hstmt hp).imp (fun r t ⟨hr, hfinds⟩ => ?_) fun _ _ h => h
    exact (ih hr fun q hq => (hsrcs q hq).grow hfinds.advances.grows).imp
      (fun r' u ⟨hr', hfinds'⟩ => ⟨hr', hfinds.trans hfinds'⟩) fun _ _ h => h

/-- Adding a variant of a state gives it a step to the variant, which is to be run if it is new. -/
theorem addVariant_ensures {r : E.Space × List (StateId × Heap)}
    (hst : AtStage E m heaps Ans I full r.1 ((id, out) :: r.2.map fun p => (p.1, [])) waiting s)
    (hsrcs : ∀ p ∈ r.2, r.1.state? p.1 = some ⟨p.2, .line i, true⟩)
    (hg : Reached E m (Ans s) heaps ⟨g, .line i, true⟩) :
    (E.addVariant id (.line i) r g).Ensures s (fun r' t =>
      AtStage E m heaps Ans I full r'.1 ((id, out ++ [(.unfolding, ⟨g, .line i, true⟩)]) ::
        r'.2.map fun p => (p.1, [])) waiting t ∧
      (∀ p ∈ r'.2, r'.1.state? p.1 = some ⟨p.2, .line i, true⟩) ∧
      Finds Ans (r.1, []) s (r'.1, []) t) F := by
  have hAns := hU.answers (s.counted_insertion (r.1.insert ⟨g, .line i, true⟩).2.2) hst.holds
  have hstage := (hst.stage.unfold hg).mono hAns
  have hholds : I ((r.1.insert ⟨g, .line i, true⟩).1.addEdge id .unfolding
      (r.1.insert ⟨g, .line i, true⟩).2.1) _ :=
    hU.addEdge StateSpace.lt_size_insert nofun (hU.insert hg hst.holds)
  have hadv : r.1.Advances ((r.1.insert ⟨g, .line i, true⟩).1.addEdge id .unfolding
      (r.1.insert ⟨g, .line i, true⟩).2.1) := StateSpace.advances_connect
  have hself : ((r.1.insert ⟨g, .line i, true⟩).1.addEdge id .unfolding
      (r.1.insert ⟨g, .line i, true⟩).2.1).state? (r.1.insert ⟨g, .line i, true⟩).2.1 =
        some ⟨g, .line i, true⟩ :=
    StateSpace.state?_addEdge.trans StateSpace.state?_insert_self
  rw [ensures_addVariant]
  cases hfresh : (r.1.insert ⟨g, .line i, true⟩).2.2 with
  | true =>
    rw [hfresh] at hstage hholds hAns
    have hadv' := hadv.trans (StateSpace.advances_markExpanded hself rfl)
    refine ⟨⟨by simpa using hstage, hU.markExpanded hholds⟩, fun p hp => ?_, hadv',
      hadv'.grows.size_le, hAns⟩
    rcases mem_append.1 hp with hp | hp
    · exact hadv'.grows.state? _ _ (hsrcs p hp)
    · rw [mem_singleton.1 hp]
      exact StateSpace.state?_markExpanded.trans hself
  | false =>
    rw [hfresh] at hstage hholds hAns
    refine ⟨⟨by simpa using hstage, hholds⟩, fun p hp => ?_, hadv, hadv.grows.size_le, hAns⟩
    exact hadv.grows.state? _ _ (hsrcs p (by simpa using hp))

theorem addVariants_ensures {vs : List Heap} {r : E.Space × List (StateId × Heap)}
    (hst : AtStage E m heaps Ans I full r.1 ((id, out) :: r.2.map fun p => (p.1, [])) waiting s)
    (hsrcs : ∀ p ∈ r.2, r.1.state? p.1 = some ⟨p.2, .line i, true⟩)
    (hvs : ∀ g ∈ vs, Reached E m (Ans s) heaps ⟨g, .line i, true⟩) :
    (vs.foldlM (E.addVariant id (.line i)) r).Ensures s (fun r' t =>
      AtStage E m heaps Ans I full r'.1 ((id, out ++ vs.map fun g =>
        (.unfolding, ⟨g, .line i, true⟩)) :: r'.2.map fun p => (p.1, [])) waiting t ∧
      (∀ p ∈ r'.2, r'.1.state? p.1 = some ⟨p.2, .line i, true⟩) ∧
      Finds Ans (r.1, []) s (r'.1, []) t) F := by
  induction vs generalizing r out s with
  | nil => exact ⟨by simpa using hst, hsrcs, .refl _ s⟩
  | cons g vs ih =>
    obtain ⟨hg, hvs⟩ := forall_mem_cons.1 hvs
    rw [foldlM_cons, Run.ensures_bind]
    refine (hU.addVariant_ensures hst hsrcs hg).imp (fun r' t ⟨hr, hsrcs', hfinds⟩ => ?_) fun _ _ h => h
    refine (ih hr hsrcs' fun g hg => (hvs g hg).mono hfinds.answers).imp
      (fun r'' u ⟨hr', hsrcs'', hfinds'⟩ => ⟨?_, hsrcs'', hfinds.trans hfinds'⟩) fun _ _ h => h
    rwa [append_assoc] at hr'

/-- The expansion of a state keeps a stage. -/
theorem expand_ensures (hst : AtStage E m heaps Ans I full sp [] (id :: waiting) s)
    (hid : sp.isExpanded id = false) :
    (E.expand call m sp id).Ensures s (fun r t =>
      AtStage E m heaps Ans I full r.1 [] (waiting ++ r.2) t ∧
        Finds Ans (sp.markExpanded id, []) s r t) F := by
  have hlt := hst.stage.bound id mem_cons_self
  obtain ⟨⟨h, l, unfolded⟩, ht⟩ := StateSpace.exists_state?_of_lt hlt
  obtain rfl : unfolded = false := by
    by_contra hunf
    simp [hst.stage.unfolded id _ ht (by simpa using hunf)] at hid
  have ht' : (sp.markExpanded id).state? id = some ⟨h, l, false⟩ := by simpa using ht
  have hst' : AtStage E m heaps Ans I full (sp.markExpanded id) [(id, [])] waiting s :=
    ⟨hst.stage.markExpanded hid, hU.markExpanded hst.holds⟩
  rw [expand]
  simp only [ht, Option.getD_some]
  cases hstmt : statementAt? m ⟨h, l, false⟩ with
  | none =>
    have hfinal := hU.setFinal (StateSpace.lt_size_of_state? ht') hst'.holds
    refine ⟨?_, StateSpace.advances_setFinal hst'.stage.finals, by simp, fun _ _ _ h => h⟩
    rw [append_nil]
    exact AtStage.finish ⟨hst'.stage.setFinal ht', hfinal⟩ (StateSpace.state?_setFinal.trans ht')
      (.stay hstmt)
  | some stmt =>
    obtain ⟨i, rfl, hi⟩ : ∃ i, l = .line i ∧ m.statement? i = some stmt := by
      cases l with
      | line i => exact ⟨i, rfl, hstmt⟩
      | exit => cases hstmt
    have hreached := hst.stage.reached id _ ht
    have hsources := E.sources_eq_map stmt h
    dsimp only
    rw [Run.ensures_bind, variants_eq]
    cases hunfoldings : E.unfoldings stmt h with
    | error e => exact hU.unfolding hst.isKept hreached hi (by rw [hsources, hunfoldings]; rfl)
    | ok vs =>
      cases vs with
      | nil =>
        -- Nothing is hidden: the statement is run from the state itself.
        exact hU.runSources_ensures [(id, h)] (by simpa using hst') hi
          (forall_mem_singleton.2 ⟨false, ht', fun _ => hunfoldings⟩)
      | cons g vs =>
        -- The variants of the state are added first, and the statement is run from the new ones.
        rw [Run.ensures_pure, if_neg (by simp), Run.ensures_bind]
        refine (hU.addVariants_ensures (r := (sp.markExpanded id, [])) hst' (forall_mem_nil _)
          fun g hg => .source hreached hi (by rw [hsources, hunfoldings]; rfl) hg).imp
          (fun r t ⟨hr, hsrcs, hfinds⟩ => ?_) fun _ _ h => h
        have hr' := hr.finish (hfinds.advances.grows.state? _ _ ht')
          (.unfold hstmt rfl hunfoldings (cons_ne_nil _ _))
        exact (hU.runSources_ensures _ (by simpa using hr') hi fun p hp =>
          ⟨true, hsrcs p hp, nofun⟩).imp (fun r' u ⟨hr', hfinds'⟩ => ⟨hr', hfinds.trans hfinds'⟩)
            fun _ _ h => h

theorem visit_ensures (hst : AtStage E m heaps Ans I full sp [] (id :: waiting) s) :
    (E.visit call m sp id).Ensures s (fun r t =>
      AtStage E m heaps Ans I full r.1 [] (waiting ++ r.2) t ∧
        Finds Ans (sp.markExpanded id, []) s r t) F := by
  rw [visit]
  split
  · next hexpanded =>
    have hmarks (j : StateId) : (sp.markExpanded id).isExpanded j = sp.isExpanded j := by
      rw [StateSpace.isExpanded_markExpanded, Bool.or_eq_right_iff_imp, decide_eq_true_eq]
      exact fun heq => heq.1 ▸ hexpanded
    refine ⟨⟨hst.stage.rearrange (fun hfull => ⟨hfull, fun j hj => ?_⟩) fun j hj => ?_, hst.holds⟩,
      ⟨⟨fun _ _ h => StateSpace.state?_markExpanded.symm.trans h, fun _ h => h⟩, rfl,
        fun j hj => hmarks j ▸ hj, fun j hj => .inl ((hmarks j).trans hj)⟩, by simp, fun _ _ _ h => h⟩
    · rcases mem_cons.1 hj with rfl | hj
      · exact .inl hexpanded
      · exact .inr (mem_append_left _ hj)
    · exact hst.stage.bound j (mem_cons_of_mem _ (by simpa using hj))
  · next hexpanded =>
    have hcount := s.counted_note .expanding
    refine (hU.expand_ensures (hU.counted hst hcount rfl) (by simpa using hexpanded)).imp
      (fun r t ⟨hr, hfinds⟩ => ⟨hr, { hfinds with answers := fun _ _ _ hanswer => ?_ }⟩) fun _ _ h => h
    exact hfinds.answers _ _ _ (hU.answers hcount hst.holds _ _ _ hanswer)

end Upholds

/-! ### Exploring -/

/-- Go on after a state has been expanded. -/
def proceed (E : Engine) (call : CallHandler) (m : Code.Method) (steps : Nat) (S : Search)
    (id : StateId) (r : E.Space × List StateId) : Run (E.Space × Option Verdict) := do
  modify (·.countExpanded S.pending)
  match S.expanded r.1 id r.2 with
  | (_, some v) => return (r.1, some v)
  | (S, none) => E.explore call m steps r.1 S

variable {steps : Nat} {S : Search} {method : String}

theorem explore_nil (hstack : S.stack = []) :
    E.explore call m (steps + 1) sp S = pure (sp, S.finish) := by
  simp only [explore, Search.pop?, hstack]

theorem explore_cons (hstack : S.stack = id :: stack) :
    E.explore call m (steps + 1) sp S = Run.checkLimits E.clock >>= fun _ =>
      E.visit call m sp id >>= E.proceed call m steps ⟨stack, S.checker?⟩ id := by
  simp only [explore, Search.pop?, hstack]
  rfl

/-- A chart of a method from the given heaps, with the search that draws it. -/
structure IsCharted (E : Engine) (m : Code.Method) (heaps : List Heap) (Ans : Session → Answering)
    (I : E.Space → Session → Prop) (full : Prop) (sp : E.Space) (S : Search) (s : Session) : Prop where
  atStage : AtStage E m heaps Ans I full sp [] S.stack s
  isBelow : S.IsBelow sp.size
  checker? : full → S.checker? = none
  startsFrom : StartsFrom E heaps sp

/-- The next state of a search has been expanded. -/
structure IsCharted.Next (E : Engine) (m : Code.Method) (heaps : List Heap)
    (Ans : Session → Answering) (I : E.Space → Session → Prop) (full : Prop) (sp : E.Space) (id : StateId)
    (stack : List StateId) (s : Session) (r : E.Space × List StateId) (t : Session) : Prop where
  atStage : AtStage E m heaps Ans I full r.1 [] (stack ++ r.2) t
  finds : Finds Ans (sp.markExpanded id, []) s r t
  startsFrom : StartsFrom E heaps r.1
  lt_size : id < sp.size

/-- A condition on the steps that are left, the space and the search which every expansion keeps, and
the verdicts that it leads to. -/
structure Guides (E : Engine) (m : Code.Method) (heaps : List Heap) (Ans : Session → Answering)
    (I : E.Space → Session → Prop) (F : GenerationError → Session → Prop) (full : Prop)
    (J : Nat → E.Space → Search → Prop) (R : E.Space → Option Verdict → Prop) : Prop where
  stop {sp : E.Space} {S : Search} {s : Session} : IsCharted E m heaps Ans I full sp S s → J 0 sp S →
    F .outOfSteps s
  step {steps : Nat} {sp : E.Space} {S : Search} {s : Session} {id : StateId} {stack : List StateId}
    {r : E.Space × List StateId} {t : Session} : IsCharted E m heaps Ans I full sp S s →
    S.stack = id :: stack → IsCharted.Next E m heaps Ans I full sp id stack s r t →
    J (steps + 1) sp S →
    (∀ v, (Search.expanded ⟨stack, S.checker?⟩ r.1 id r.2).2 = some v → R r.1 (some v)) ∧
    ((Search.expanded ⟨stack, S.checker?⟩ r.1 id r.2).2 = none →
      J steps r.1 (Search.expanded ⟨stack, S.checker?⟩ r.1 id r.2).1)
  finish {steps : Nat} {sp : E.Space} {S : Search} {s : Session} :
    IsCharted E m heaps Ans I full sp S s → S.stack = [] → J (steps + 1) sp S → R sp S.finish

namespace IsCharted

variable {S : Search} {r : E.Space × List StateId} {j : StateId}

theorem isDrawn (h : IsCharted E m heaps Ans I full sp S s) : IsDrawn E m (Ans s) heaps sp :=
  ⟨h.atStage.stage.toIsChart, h.atStage.stage.unfolded, h.startsFrom⟩

namespace Next

variable (hr : Next E m heaps Ans I full sp id stack s r t)

include hr

theorem isDrawn : IsDrawn E m (Ans t) heaps r.1 :=
  ⟨hr.atStage.stage.toIsChart, hr.atStage.stage.unfolded, hr.startsFrom⟩

theorem grows : sp.Grows r.1 :=
  (sp.grows_markExpanded id).trans hr.finds.advances.grows

theorem isExpanded (hj : j = id ∨ sp.isExpanded j) : r.1.isExpanded j := by
  refine hr.finds.advances.isExpanded j ?_
  rw [StateSpace.isExpanded_markExpanded, Bool.or_eq_true, decide_eq_true_eq]
  exact hj.imp_left fun heq => ⟨heq, heq ▸ hr.lt_size⟩

/-- Only the next state and unfolded states have been expanded. -/
theorem isExpanded_cases (hj : r.1.isExpanded j) :
    j = id ∨ sp.isExpanded j ∨ ∃ u, r.1.state? j = some u ∧ u.unfolded := by
  rcases hr.finds.advances.unfolded j hj with hj | hj
  · rw [StateSpace.isExpanded_markExpanded, Bool.or_eq_true, decide_eq_true_eq] at hj
    exact hj.imp And.left .inl
  · exact .inr (.inr hj)

end Next

/-- What the search does with a state that has been expanded. -/
theorem expanded (h : IsCharted E m heaps Ans I full sp S s) (hstack : S.stack = id :: stack)
    (hr : Next E m heaps Ans I full sp id stack s r t) :
    (full → (Search.expanded ⟨stack, S.checker?⟩ r.1 id r.2).2 = none) ∧
      IsCharted E m heaps Ans I full r.1 (Search.expanded ⟨stack, S.checker?⟩ r.1 id r.2).1 t := by
  have hstage := hr.atStage.stage
  have hsucc (j : StateId) (hj : j ∈ r.1.checkSuccessors id) : j < r.1.size :=
    hstage.isTable.lt_size_of_mem_checkSuccessors hj
  have hbelow := ((h.isBelow.mono hr.grows.size_le).tail hstack).expanded
    (fun j hj => hstage.bound j (mem_append_right _ hj)) hsucc
  have heq (hfull : full) : Search.expanded ⟨stack, S.checker?⟩ r.1 id r.2 =
      (r.2.foldl Search.push ⟨stack, S.checker?⟩, none) := by
    rw [Search.expanded, h.checker? hfull]
  refine ⟨fun hfull => by rw [heq hfull], ⟨⟨hstage.rearrange (fun hfull => ⟨hfull, fun j hj => ?_⟩)
    hbelow.stack, hr.atStage.holds⟩, hbelow, fun hfull => ?_, hr.startsFrom⟩⟩
  · rw [heq hfull]
    exact .inr (Search.mem_stack_foldl_push.2 (mem_append.1 hj))
  · rw [heq hfull, Search.checker?_foldl_push]
    exact h.checker? hfull

end IsCharted

namespace Upholds

variable (hU : Upholds E m call heaps Ans I F) {J : Nat → E.Space → Search → Prop}
  {R : E.Space → Option Verdict → Prop} {S : Search}

include hU

theorem explore_ensures (hJ : Guides E m heaps Ans I F full J R) {steps : Nat}
    (h : IsCharted E m heaps Ans I full sp S s) (hS : J steps sp S) :
    (E.explore call m steps sp S).Ensures s (fun r t => AtStage E m heaps Ans I full r.1 [] [] t ∧
      StartsFrom E heaps r.1 ∧ R r.1 r.2) F := by
  induction steps generalizing sp S s with
  | zero => exact hJ.stop h hS
  | succ steps ih =>
    cases hstack : S.stack with
    | nil =>
      rw [explore_nil hstack]
      exact ⟨hstack ▸ h.atStage, h.startsFrom, hJ.finish h hstack hS⟩
    | cons id stack =>
      rw [explore_cons hstack, Run.ensures_bind]
      refine (Run.checkLimits_ensures E.clock).imp (fun _ t ht => ?_) ?_
      · have h := { h with atStage := hU.counted h.atStage ht.1 ht.2 }
        rw [Run.ensures_bind]
        refine (hU.visit_ensures (hstack ▸ h.atStage)).imp (fun r u ⟨hr, hfinds⟩ => ?_) fun _ _ h => h
        rw [proceed, Run.ensures_bind, Run.ensures_modify]
        have hcount : u.Counted (u.countExpanded (Search.pending ⟨stack, S.checker?⟩)) :=
          ⟨rfl, rfl, rfl, rfl, rfl, fun h => h⟩
        have hnext : IsCharted.Next E m heaps Ans I full sp id stack t r _ :=
          ⟨hU.counted hr hcount rfl, ⟨hfinds.advances, hfinds.length_le, fun _ _ _ hanswer =>
              hU.answers hcount hr.holds _ _ _ (hfinds.answers _ _ _ hanswer)⟩,
            h.startsFrom.grow ((sp.grows_markExpanded id).trans hfinds.advances.grows)
              hfinds.advances.initial, h.atStage.stage.bound id (hstack ▸ mem_cons_self)⟩
        obtain ⟨hnone, hcharted⟩ := h.expanded hstack hnext
        obtain ⟨hstop, hgo⟩ := hJ.step h hstack hnext hS
        split
        · next heq =>
          rw [heq] at hnone hstop
          refine ⟨⟨hnext.atStage.stage.rearrange (fun hfull => ?_) (forall_mem_nil _),
            hnext.atStage.holds⟩, hnext.startsFrom, hstop _ rfl⟩
          cases hnone hfull
        · next heq =>
          rw [heq] at hcharted hgo
          exact ih hcharted (hgo rfl)
      · rintro e t ⟨⟨hcount, heffort⟩, hne, reason, rfl⟩
        exact hU.aborted h.atStage.isKept hne hcount heffort

/-- The initial states are there before any state is expanded. -/
theorem addStarts_ensures (S₀ : Search) (hs : I {} s) :
    (heaps.foldlM E.addStart ({}, S₀)).Ensures s (fun r t => I r.1 t ∧
      IsSeeded E heaps S₀ r.1 r.2) F := by
  refine (Run.Ensures.foldlM (I := fun rest r t => I r.1 t ∧
      ∃ added, heaps = added ++ rest ∧ IsSeeded E added S₀ r.1 r.2)
    ⟨hs, [], rfl, .empty⟩ ?_).imp ?_ fun _ _ h => h
  · rintro g rest r t hg ⟨ht, added, hadded, hr⟩
    exact ensures_addStart.2 ⟨hU.initial (hU.insert (.start hg) ht), added ++ [g], by simp [hadded],
      hr.addInitial g⟩
  · rintro r t ⟨ht, added, hadded, hr⟩
    rw [append_nil] at hadded
    exact ⟨ht, hadded ▸ hr⟩

end Upholds

/-- A seeded space is a first stage. -/
theorem IsSeeded.isCharted {S₀ : Search} (h : IsSeeded E heaps S₀ sp S) (hS₀ : S₀.IsBelow 0)
    (hfull : full → S₀.checker? = none) (hs : I sp s) : IsCharted E m heaps Ans I full sp S s := by
  have hbelow : S.IsBelow sp.size := by
    rw [h.search]
    refine List.foldlRecOn _ _ (motive := Search.IsBelow sp.size) (hS₀.mono (Nat.zero_le _))
      fun S hS i hi => hS.start (h.mem_initial.1 hi)
  have heq (hf : full) : S = sp.initial.foldl Search.push S₀ :=
    h.search.trans (Search.foldl_start_eq (hfull hf))
  have hstate {i : StateId} {u : State} (hu : sp.state? i = some u) : ∃ h ∈ heaps, u = E.startState h :=
    (h.startsFrom.exists_iff u).1 ⟨i, h.mem_initial.2 (StateSpace.lt_size_of_state? hu), hu⟩
  refine ⟨⟨⟨h.isChart, fun i u hu => ?_, fun i u hu hunf => ?_, fun i hi => ?_, hbelow.stack,
    fun hf i u hu => .inr ?_⟩, hs⟩, hbelow, fun hf => ?_, h.startsFrom⟩
  · obtain ⟨h, hh, rfl⟩ := hstate hu
    exact .start hh
  · obtain ⟨h, -, rfl⟩ := hstate hu
    cases hunf
  · have hloop := (h.isTable.final i).1 hi
    rw [h.edges i] at hloop
    cases hloop
  · rw [heq hf]
    exact Search.mem_stack_foldl_push.2 (.inr (h.mem_initial.2 (StateSpace.lt_size_of_state? hu)))
  · rw [heq hf, Search.checker?_foldl_push]
    exact hfull hf

/-! ### Generations -/

theorem generateWith_eq (hm : E.program.method? method = some m) (hheaps : heaps ≠ []) :
    E.generateWith call steps method heaps S =
      heaps.foldlM E.addStart ({}, S) >>= fun r => E.explore call m steps r.1 r.2 := by
  rw [generateWith, hm]
  exact if_neg (by simpa using hheaps)

/-- Without a method or a heap, there is nothing to generate. -/
theorem outcome_generateWith_of_empty (hempty : E.program.method? method = none ∨ heaps = []) :
    ∃ e, e ≠ .outOfSteps ∧
      (E.generateWith call steps method heaps S).outcome s = (.error e, s) := by
  rw [generateWith]
  cases hm : E.program.method? method with
  | none => exact ⟨.unknownMethod method, nofun, rfl⟩
  | some m =>
    obtain rfl := hempty.resolve_left (by simp [hm])
    exact ⟨.noInitialHeaps, nofun, rfl⟩

theorem exists_method_of_generateWith {r : E.Space × Option Verdict} {t : Session}
    (hr : (E.generateWith call steps method heaps S).outcome s = (.ok r, t)) :
    ∃ m, E.program.method? method = some m ∧ heaps ≠ [] := by
  cases hm : E.program.method? method with
  | none =>
    obtain ⟨e, -, he⟩ := @outcome_generateWith_of_empty E call heaps s steps S method (.inl hm)
    exact nomatch hr.symm.trans he
  | some m =>
    refine ⟨m, rfl, fun hnil => ?_⟩
    obtain ⟨e, -, he⟩ := @outcome_generateWith_of_empty E call heaps s steps S method (.inr hnil)
    exact nomatch hr.symm.trans he

/-- A generation draws a chart of reached states from the initial states and keeps what is upheld. -/
theorem Upholds.generateWith_ensures (hU : Upholds E m call heaps Ans I F)
    {J : Nat → E.Space → Search → Prop} {R : E.Space → Option Verdict → Prop}
    (hJ : Guides E m heaps Ans I F full J R) {S₀ : Search} (hm : E.program.method? method = some m)
    (hheaps : heaps ≠ []) (hs : I {} s) (hS₀ : S₀.IsBelow 0) (hfull : full → S₀.checker? = none)
    (hstart : ∀ sp S, IsSeeded E heaps S₀ sp S → J steps sp S) :
    (E.generateWith call steps method heaps S₀).Ensures s (fun r t =>
      AtStage E m heaps Ans I full r.1 [] [] t ∧ StartsFrom E heaps r.1 ∧ R r.1 r.2) F := by
  rw [generateWith_eq hm hheaps, Run.ensures_bind]
  refine (hU.addStarts_ensures S₀ hs).imp (fun r t ⟨ht, hseeded⟩ => ?_) fun _ _ h => h
  exact hU.explore_ensures hJ (hseeded.isCharted hS₀ hfull ht) (hstart r.1 r.2 hseeded)

/-! ### Obeying a protocol -/

/-- Some state that is reached cannot be run, with the error `e`: a summary cannot be unfolded, the
statement goes through null, or its call is refused. -/
def IsStuck (E : Engine) (m : Code.Method) (Ans : Answering)
    (Refuses : Code.CallSite → Heap → GenerationError → Prop) (heaps : List Heap)
    (e : GenerationError) : Prop :=
  (∃ h i stmt u, Reached E m Ans heaps ⟨h, .line i, false⟩ ∧ m.statement? i = some stmt ∧
    E.sources stmt h = .error u ∧ e = .unfolding u) ∨
  ∃ g i stmt, Reached E m Ans heaps ⟨g, .line i, true⟩ ∧ m.statement? i = some stmt ∧
    (stmt.step g = .fault ∧ e = .nullDereference stmt.nullDereference ∨
      ∃ site, stmt.step g = .call site ∧ Refuses site g e)

theorem IsStuck.mono {E : Engine} {m : Code.Method} {Ans Ans' : Answering}
    {Refuses : Code.CallSite → Heap → GenerationError → Prop} {heaps : List Heap}
    {e : GenerationError} (h : IsStuck E m Ans Refuses heaps e)
    (hAns : ∀ site g results, Ans site g results → Ans' site g results) :
    IsStuck E m Ans' Refuses heaps e :=
  h.imp (fun ⟨h, i, stmt, u, hreached, hrest⟩ => ⟨h, i, stmt, u, hreached.mono hAns, hrest⟩)
    fun ⟨g, i, stmt, hreached, hrest⟩ => ⟨g, i, stmt, hreached.mono hAns, hrest⟩

/-- A method can be run from the heaps: the handler keeps to the protocol and is prepared for all
calls of states that are reached. -/
structure IsReady (Pr : Protocol) (E : Engine) (call : CallHandler) (m : Code.Method)
    (heaps : List Heap) : Prop where
  obeyed : Pr.IsObeyed call
  asks : ∀ s, Pr.Later s s → ∀ g i stmt site,
    Reached E m (Pr.Answers s) heaps ⟨g, .line i, true⟩ → m.statement? i = some stmt →
    stmt.step g = .call site → Pr.Asks site g

variable {Pr : Protocol} {s₀ : Session}

/-- How a generation may fail. -/
def FailsFrom (Pr : Protocol) (E : Engine) (m : Code.Method) (heaps : List Heap) (s₀ : Session)
    (e : GenerationError) (s : Session) : Prop :=
  Pr.Later s₀ s ∧ (e.IsStop s₀ ∨ IsStuck E m (Pr.Answers s) Pr.Refuses heaps e)

/-- With a handler that obeys a protocol, sessions are later ones. -/
theorem IsReady.upholds (hready : IsReady Pr E call m heaps) (s₀ : Session) :
    Upholds E m call heaps Pr.Answers (fun _ s => Pr.Later s₀ s) (FailsFrom Pr E m heaps s₀) where
  insert _ hs := Pr.count hs (Session.counted_insertion _ _)
  addEdge _ _ hs := hs
  setFinal _ hs := hs
  markExpanded hs := hs
  initial hs := hs
  count ht _ hs := Pr.count hs ht
  answers ht hs _ _ _ := Pr.answers (Pr.count (Pr.self hs) ht)
  aborted hk hne ht _ := ⟨Pr.count hk.holds ht, .inl (.inr ⟨fun h => hne (Pr.limits hk.holds h), _, rfl⟩)⟩
  unfolding hk hreached hstmt he := ⟨hk.holds, .inr (.inl ⟨_, _, _, _, hreached, hstmt, he, rfl⟩)⟩
  fault hk hreached hstmt hstep :=
    ⟨hk.holds, .inr (.inr ⟨_, _, _, hreached, hstmt, .inl ⟨hstep, rfl⟩⟩)⟩
  call {_ _ s g i stmt site} hk hreached hstmt hstep := by
    have hself := Pr.self hk.holds
    refine (hready.obeyed s site g hself (hready.asks s hself g i stmt site hreached hstmt hstep)).imp
      (fun results t ⟨ht, hanswer⟩ => ⟨Pr.trans hk.holds ht, hanswer, fun _ _ _ => Pr.answers ht⟩)
      fun e t ⟨ht, he⟩ => ⟨Pr.trans hk.holds ht, he.imp (fun hstop => hstop.earlier hk.holds) ?_⟩
    exact fun hr => .inr ⟨g, i, stmt, hreached.mono fun _ _ _ => Pr.answers ht, hstmt,
      .inr ⟨site, hstep, hr⟩⟩

/-- A generation finds reached states only, and a depth-first one finds all that follows. If it fails,
then it is stopped, or some reached state cannot be run. -/
theorem generateWith_ensures (full : Prop) (hm : E.program.method? method = some m)
    (hheaps : heaps ≠ []) (hready : IsReady Pr E call m heaps) (hs : Pr.Later s s)
    (hfull : full → S.checker? = none) (hS : S.IsBelow 0) :
    (E.generateWith call steps method heaps S).Ensures s
      (fun r t => (Pr.Later s t ∧ IsStage E m (Pr.Answers t) heaps full r.1 [] []) ∧
        StartsFrom E heaps r.1)
      (FailsFrom Pr E m heaps s) := by
  have hJ : Guides E m heaps Pr.Answers (fun _ t => Pr.Later s t) (FailsFrom Pr E m heaps s) full
      (fun _ _ _ => True) fun _ _ => True :=
    ⟨fun h _ => ⟨h.atStage.holds, .inl (.inl rfl)⟩, fun _ _ _ _ => ⟨fun _ _ => trivial, fun _ => trivial⟩,
      fun _ _ _ => trivial⟩
  exact ((hready.upholds s).generateWith_ensures hJ hm hheaps hs hS hfull fun _ _ _ => trivial).imp
    (fun r t ⟨hr, hstarts, _⟩ => ⟨⟨hr.holds, hr.stage⟩, hstarts⟩) fun _ _ h => h

theorem depthFirst_ensures (hm : E.program.method? method = some m) (hheaps : heaps ≠ [])
    (hready : IsReady Pr E call m heaps) (hs : Pr.Later s s) :
    (E.generateWith call steps method heaps .depthFirst).Ensures s (fun r t =>
      IsDrawn E m (Pr.Answers t) heaps r.1 ∧ (∀ i, i < r.1.size → r.1.isExpanded i) ∧
        ∀ i t', r.1.state? i = some t' → Reached E m (Pr.Answers t) heaps t') fun _ _ => True := by
  refine (generateWith_ensures True hm hheaps hready hs (fun _ => rfl) Search.isBelow_depthFirst).imp
    ?_ fun _ _ _ => trivial
  rintro r t ⟨⟨-, hstage⟩, hstarts⟩
  refine ⟨⟨hstage.toIsChart, hstage.unfolded, hstarts⟩, fun i hi => ?_, hstage.reached⟩
  obtain ⟨u, hu⟩ := StateSpace.exists_state?_of_lt hi
  exact (hstage.waits trivial i u hu).resolve_right not_mem_nil

end Engine

end ShapeCheck
