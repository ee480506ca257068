import ShapeCheck.Proofs.Exactness

/-!
# The closure that a generation computes

A compiled method is *sealed*: labels stand for lines of the method, and the last line returns, so
every statement leads to a line of the method or to its exit. Without calls, a statement that is run
leads somewhere, and only states at the exit have no successors.

The state space of a method without calls is then the reachability closure of an abstract step: its
states are those that a chain of unfoldings and statements leads to, and its steps are all the steps
between them.
-/

namespace ShapeCheck

open Relation List

namespace Code

/-- The places that a statement may lead to. -/
def Statement.targets (s : Statement) : List Location :=
  match s.instruction with
  | .branch _ target => [.line target, s.next]
  | .goto target => [.line target]
  | .return _ => [.exit]
  | _ => [s.next]

/-- A place of a method: one of its lines, or the exit. -/
def Method.Has (m : Method) : Location → Prop
  | .line i => i < m.statements.length
  | .exit => True

/-- Every statement of the method leads to places of the method. -/
structure Method.IsSealed (m : Method) : Prop where
  start : 0 < m.statements.length
  targets : ∀ stmt ∈ m.statements, ∀ l ∈ stmt.targets, m.Has l

variable {stmt : Statement} {g : Heap} {next : List (Location × Heap)}

/-- A statement that moves on leads to one of its targets at least, and to no other place. -/
theorem Statement.targets_of_step (hstep : stmt.step g = .moves next) :
    next ≠ [] ∧ ∀ p ∈ next, p.1 ∈ stmt.targets := by
  have hthrough {base : String} {f : Node → Heap} (h : stmt.through g base f = .moves next)
      (htargets : stmt.targets = [stmt.next]) : next ≠ [] ∧ ∀ p ∈ next, p.1 ∈ stmt.targets := by
    rw [through] at h
    split at h
    · cases h
    · obtain rfl := Step.moves.inj h
      simp [htargets]
  rw [step] at hstep
  split at hstep
  case h_4 hi => exact hthrough hstep (by rw [targets, hi])
  case h_5 hi => exact hthrough hstep (by rw [targets, hi])
  case h_6 => cases hstep
  case h_7 guard target hi =>
    obtain rfl := Step.moves.inj hstep
    rw [targets, hi]
    cases guard with
    | any => simp
    | compare lhs rhs equal =>
      by_cases holds : (g.valueOf (some lhs) == g.valueOf rhs) == equal <;>
        simp [holds]
  all_goals
    next hi =>
      obtain rfl := Step.moves.inj hstep
      simp [targets, hi]

variable {m : Method} {d : Source.MethodDecl}

theorem Method.yields_iff {i : Nat} {Ans : Answering} (hcalls : m.callees = [])
    (hstmt : m.statement? i = some stmt) : stmt.Yields Ans g next ↔ stmt.step g = .moves next := by
  unfold Statement.Yields
  cases hstep : stmt.step g with
  | moves moves => exact ⟨fun h => congrArg Step.moves h.symm, fun h => (Step.moves.inj h).symm⟩
  | call site => simpa [hcalls] using Method.mem_callees hstmt hstep
  | fault => simp

theorem le_of_carries {label : String} {line : Nat} (h : d.Carries label line) :
    line ≤ d.body.length := by
  rcases h with ⟨s, hs, -⟩ | ⟨rfl, -⟩
  · exact (List.getElem?_eq_some_iff.1 hs).1.le
  · exact Nat.le_refl _

theorem Performs.le_of_mem_targets {kind : Source.StmtKind} {stmt : Statement}
    (h : Performs d kind stmt.instruction) (hline : stmt.line < d.body.length) {j : Nat}
    (hj : .line j ∈ stmt.targets) : j ≤ d.body.length := by
  obtain ⟨line, i, span, source⟩ := stmt
  have hnext {j : Nat} (hj : Location.line j ∈ [Location.line (line + 1)]) : j ≤ d.body.length := by
    obtain ⟨⟩ := mem_singleton.1 hj
    exact hline
  have hjump {x : Source.Ident} {target j : Nat} (hx : ∀ j, d.Carries x.name j ↔ j = target)
      (hj : Location.line j = .line target) : j ≤ d.body.length := by
    cases hj
    exact le_of_carries ((hx _).2 rfl)
  cases h with
  | branch hx =>
    rcases mem_cons.1 hj with hj | hj
    · exact hjump hx hj
    · exact hnext hj
  | goto hx => exact hjump hx (mem_singleton.1 hj)
  | «return» => cases mem_singleton.1 hj
  | _ => exact hnext hj

theorem Translates.isSealed (h : Translates d m) : m.IsSealed := by
  refine ⟨h.length ▸ Nat.zero_lt_succ _, h.forall_mem (fun stmt s _ hline hperforms l hl => ?_) ?_⟩
  · cases l with
    | exit => trivial
    | line j =>
      rw [Method.Has, h.length]
      exact Nat.lt_succ_of_le (hperforms.le_of_mem_targets hline hl)
  · exact forall_mem_singleton.2 trivial

theorem isSealed_of_compile {src name : String} {P : Program} (hP : compile src = .ok P)
    (hm : P.method? name = some m) : m.IsSealed := by
  obtain ⟨p, -, hresolve⟩ := exists_resolve_of_compile hP
  obtain ⟨d, -, -, htranslates⟩ := translates_of_resolve hresolve hm
  exact htranslates.isSealed

end Code

namespace Engine

/-- One step of a method without calls. -/
inductive Moves (E : Engine) (m : Code.Method) : EdgeKind → State → State → Prop
  /-- A state whose statement needs its heap unfolded leads to its variants. -/
  | unfold {t : State} {stmt : Code.Statement} {vs : List Heap} {g : Heap} :
    statementAt? m t = some stmt → t.unfolded = false → E.unfoldings stmt t.heap = .ok vs → g ∈ vs →
    Moves E m .unfolding t ⟨g, t.location, true⟩
  /-- Any other state, and every variant, leads to what its statement leaves. -/
  | run {t : State} {stmt : Code.Statement} {next : List (Location × Heap)} {p : Location × Heap} :
    statementAt? m t = some stmt → (t.unfolded = false → E.unfoldings stmt t.heap = .ok []) →
    stmt.step t.heap = .moves next → p ∈ next → Moves E m .flow t (E.settled p.1 p.2)
  /-- A state without a statement stays where it is. -/
  | stay {t : State} : statementAt? m t = none → Moves E m .loop t t

/-- A space is the reachability closure of the abstract step from the given heaps. -/
structure IsClosure (E : Engine) (m : Code.Method) (heaps : List Heap) (sp : E.Space) : Prop where
  /-- No state occurs twice. -/
  unique : ∀ i j t, sp.state? i = some t → sp.state? j = some t → i = j
  /-- Every state is expanded. -/
  isExpanded : ∀ i, i < sp.size → sp.isExpanded i
  /-- Every state is reached from an initial state by steps of the space. -/
  isConnected : sp.IsConnected
  /-- The initial states are the canonical shapes of the heaps at the first line. -/
  startsFrom : StartsFrom E heaps sp
  /-- The steps are those of the abstract step. -/
  hasStep_iff : ∀ i t, sp.state? i = some t → ∀ kind u, sp.HasStep i kind u ↔ E.Moves m kind t u
  /-- The states are those that the abstract step leads to. -/
  holds_iff : ∀ t, sp.Holds t ↔
    ∃ h ∈ heaps, ReflTransGen (fun t u => ∃ kind, E.Moves m kind t u) (E.startState h) t
  /-- No state has both unfolding steps and steps of its own. -/
  unfoldingIsExclusive : sp.unfoldingIsExclusive
  /-- The final states are those at the exit. -/
  isFinal_iff : ∀ i t, sp.state? i = some t → (sp.isFinal i ↔ t.location = .exit)
  /-- On a path every ordinary state has a successor. -/
  checkSuccessors_ne_nil : ∀ i t, sp.state? i = some t → t.unfolded = false →
    sp.checkSuccessors i ≠ []
  /-- On a path only ordinary states follow ordinary states. -/
  unfolded_eq_false : ∀ i t, sp.state? i = some t → t.unfolded = false →
    ∀ j ∈ sp.checkSuccessors i, ∀ u, sp.state? j = some u → u.unfolded = false

variable {E : Engine} {m : Code.Method} {Ans : Answering} {heaps : List Heap} {sp : E.Space}
  {t u : State} {out : List (EdgeKind × State)} {kind : EdgeKind}

theorem exists_statement?_of_statementAt? {stmt : Code.Statement} (h : statementAt? m t = some stmt) :
    ∃ i, t.location = .line i ∧ m.statement? i = some stmt := by
  obtain ⟨g, l, unfolded⟩ := t
  cases l with
  | line i => exact ⟨i, rfl, h⟩
  | exit => cases h

theorem statementAt?_eq_none_iff (ht : m.Has t.location) :
    statementAt? m t = none ↔ t.location = .exit := by
  obtain ⟨g, l, unfolded⟩ := t
  cases l with
  | line i =>
    simp only [statementAt?, Code.Method.statement?, List.getElem?_eq_none_iff, reduceCtorEq,
      iff_false, Nat.not_le]
    exact ht
  | exit => exact ⟨fun _ => rfl, fun _ => rfl⟩

theorem Reached.has (hsealed : m.IsSealed) (hcalls : m.callees = [])
    (ht : Reached E m Ans heaps t) : m.Has t.location := by
  induction ht with
  | start _ => exact hsealed.start
  | source _ _ _ _ ih => exact ih
  | @step g i stmt next p _ hstmt hnext hp _ =>
    have hstep := (Code.Method.yields_iff hcalls hstmt).1 hnext
    exact hsealed.targets stmt (mem_of_getElem? hstmt) _
      ((Code.Statement.targets_of_step hstep).2 p hp)

theorem Outgoing.mem_iff_moves (hcalls : m.callees = []) (h : Outgoing E m Ans t out) :
    (kind, u) ∈ out ↔ E.Moves m kind t u := by
  cases h with
  | stay hnone =>
    rw [mem_singleton, Prod.mk.injEq]
    constructor
    · rintro ⟨rfl, rfl⟩
      exact .stay hnone
    · intro hmove
      cases hmove with
      | unfold hstmt => cases hnone.symm.trans hstmt
      | run hstmt => cases hnone.symm.trans hstmt
      | stay _ => exact ⟨rfl, rfl⟩
  | @unfold stmt vs hstmt hunf hvs hne =>
    rw [mem_map]
    constructor
    · rintro ⟨g, hg, heq⟩
      obtain ⟨rfl, rfl⟩ := Prod.mk.inj heq
      exact .unfold hstmt hunf hvs hg
    · intro hmove
      cases hmove with
      | @unfold _ _ vs' g hstmt' _ hvs' hg =>
        obtain rfl := Option.some.inj (hstmt.symm.trans hstmt')
        obtain rfl := Except.ok.inj (hvs.symm.trans hvs')
        exact ⟨g, hg, rfl⟩
      | run hstmt' hnone =>
        obtain rfl := Option.some.inj (hstmt.symm.trans hstmt')
        exact absurd (Except.ok.inj (hvs.symm.trans (hnone hunf))) hne
      | stay hnone => cases hnone.symm.trans hstmt
  | @run stmt next hstmt hnone hnext =>
    obtain ⟨i, -, hi⟩ := exists_statement?_of_statementAt? hstmt
    have hstep := (Code.Method.yields_iff hcalls hi).1 hnext
    have hne : ¬next.isEmpty := by simpa using (Code.Statement.targets_of_step hstep).1
    rw [flowSteps, if_neg hne, mem_map]
    constructor
    · rintro ⟨p, hp, heq⟩
      obtain ⟨rfl, rfl⟩ := Prod.mk.inj heq
      exact .run hstmt hnone hstep hp
    · intro hmove
      cases hmove with
      | unfold hstmt' hunf hvs hg =>
        obtain rfl := Option.some.inj (hstmt.symm.trans hstmt')
        obtain rfl := Except.ok.inj (hvs.symm.trans (hnone hunf))
        cases hg
      | @run _ _ next' p hstmt' _ hstep' hp =>
        obtain rfl := Option.some.inj (hstmt.symm.trans hstmt')
        obtain rfl := Code.Step.moves.inj (hstep.symm.trans hstep')
        exact ⟨p, hp, rfl⟩
      | stay hnone => cases hnone.symm.trans hstmt

namespace Moves

theorem unfolded_of_unfolding (h : E.Moves m .unfolding t u) : u.unfolded = true := by
  cases h
  rfl

theorem unfolded_of_flow (h : E.Moves m .flow t u) : u.unfolded = false := by
  cases h
  rfl

theorem not_unfolding (h : E.Moves m .unfolding t u) (ht : t.unfolded = true) : False := by
  cases h with
  | unfold _ hunf => cases ht.symm.trans hunf

theorem not_flow (h : E.Moves m .unfolding t u) {v : State} (hv : E.Moves m .flow t v) : False := by
  cases h with
  | unfold hstmt hunf hvs hg =>
    cases hv with
    | run hstmt' hnone _ _ =>
      obtain rfl := Option.some.inj (hstmt.symm.trans hstmt')
      obtain rfl := Except.ok.inj (hvs.symm.trans (hnone hunf))
      cases hg

theorem loop_iff : E.Moves m .loop t u ↔ statementAt? m t = none ∧ u = t := by
  constructor
  · intro h
    cases h with
    | stay hnone => exact ⟨hnone, rfl⟩
  · rintro ⟨hnone, rfl⟩
    exact .stay hnone

theorem not_loop (h : E.Moves m .unfolding t u) {v : State} (hv : E.Moves m .loop u v) : False := by
  cases h with
  | unfold hstmt _ _ _ => cases hstmt.symm.trans (loop_iff.1 hv).1

end Moves

/-- A chart of a method without calls in which every state is expanded. -/
structure IsFullChart (E : Engine) (m : Code.Method) (Ans : Answering) (heaps : List Heap)
    (sp : E.Space) : Prop where
  isChart : IsChart E m Ans sp []
  isExpanded : ∀ i, i < sp.size → sp.isExpanded i
  startsFrom : StartsFrom E heaps sp
  has : ∀ i t, sp.state? i = some t → m.Has t.location
  callees : m.callees = []

namespace IsFullChart

variable {i j k : StateId}

variable (h : IsFullChart E m Ans heaps sp)
include h

theorem exists_outgoing (ht : sp.state? i = some t) :
    ∃ out, Outgoing E m Ans t out ∧ sp.StepsAre i out :=
  (h.isChart.done i t ht (h.isExpanded i (StateSpace.lt_size_of_state? ht))).resolve_left
    not_mem_nil

theorem hasStep_iff (ht : sp.state? i = some t) : sp.HasStep i kind u ↔ E.Moves m kind t u := by
  obtain ⟨out, hout, hsteps⟩ := h.exists_outgoing ht
  exact (hsteps kind u).trans (hout.mem_iff_moves h.callees)

theorem exists_hasStep (ht : sp.state? i = some t) : ∃ kind u, sp.HasStep i kind u := by
  obtain ⟨out, hout, hsteps⟩ := h.exists_outgoing ht
  obtain ⟨⟨kind, u⟩, hmem⟩ := exists_mem_of_ne_nil out hout.ne_nil
  exact ⟨kind, u, (hsteps kind u).2 hmem⟩

theorem exists_moves (ht : sp.state? i = some t) (hj : (kind, j) ∈ sp.edges i) :
    ∃ u, sp.state? j = some u ∧ E.Moves m kind t u := by
  obtain ⟨u, hu⟩ := StateSpace.exists_state?_of_lt (h.isChart.isTable.inRange i _ hj)
  exact ⟨u, hu, (h.hasStep_iff ht).1 ⟨j, hj, hu⟩⟩

theorem holds_iff : sp.Holds t ↔
    ∃ g ∈ heaps, ReflTransGen (fun t u => ∃ kind, E.Moves m kind t u) (E.startState g) t := by
  constructor
  · rintro ⟨i, ht⟩
    obtain ⟨r, hr, hri⟩ := h.isChart.isConnected i (StateSpace.lt_size_of_state? ht)
    induction hri generalizing t with
    | refl =>
      obtain ⟨g, hg, rfl⟩ := (h.startsFrom.exists_iff t).1 ⟨r, hr, ht⟩
      exact ⟨g, hg, .refl⟩
    | @tail j i _ hlink ih =>
      obtain ⟨kind, hkind⟩ := hlink
      obtain ⟨u, hu⟩ : ∃ u, sp.state? j = some u := by
        refine StateSpace.exists_state?_of_lt (Nat.lt_of_not_le fun hle => ?_)
        rw [StateSpace.edges_eq, Array.getElem?_eq_none hle] at hkind
        cases hkind
      obtain ⟨g, hg, hgu⟩ := ih hu
      exact ⟨g, hg, hgu.tail ⟨kind, (h.hasStep_iff hu).1 ⟨i, hkind, ht⟩⟩⟩
  · rintro ⟨g, hg, hgt⟩
    induction hgt with
    | refl =>
      obtain ⟨i, -, hi⟩ := (h.startsFrom.exists_iff _).2 ⟨g, hg, rfl⟩
      exact ⟨i, hi⟩
    | tail _ hmove ih =>
      obtain ⟨i, hi⟩ := ih
      obtain ⟨kind, hkind⟩ := hmove
      obtain ⟨j, -, hj⟩ := (h.hasStep_iff hi).2 hkind
      exact ⟨j, hj⟩

theorem unfoldingIsExclusive : sp.unfoldingIsExclusive := by
  rw [StateSpace.unfoldingIsExclusive, Array.all_eq_true]
  intro i hi
  rw [Bool.not_eq_true', Bool.and_eq_false_imp, any_eq_true, Bool.eq_false_iff, Ne,
    any_eq_true]
  rintro ⟨⟨kind, j⟩, hj, hkind⟩ ⟨⟨kind', k⟩, hk, hkind'⟩
  obtain rfl : kind = .unfolding := by simpa using hkind
  obtain rfl : kind' = .flow := by simpa using hkind'
  obtain ⟨t, ht⟩ := StateSpace.exists_state?_of_lt hi
  have hedges : sp.edges i = sp.entries[i].edges := by
    rw [StateSpace.edges_eq, Array.getElem?_eq_getElem hi]
    rfl
  rw [← hedges] at hj hk
  obtain ⟨u, -, hu⟩ := h.exists_moves ht hj
  obtain ⟨v, -, hv⟩ := h.exists_moves ht hk
  exact hu.not_flow hv

theorem isFinal_iff (ht : sp.state? i = some t) : sp.isFinal i ↔ t.location = .exit := by
  rw [← statementAt?_eq_none_iff (h.has i t ht), h.isChart.isTable.final]
  constructor
  · intro hloop
    obtain ⟨u, -, hu⟩ := h.exists_moves ht hloop
    exact (Moves.loop_iff.1 hu).1
  · intro hnone
    obtain ⟨j, hj, -⟩ := (h.hasStep_iff ht).2 (Moves.loop_iff.2 ⟨hnone, rfl⟩)
    exact h.isChart.isTable.loop i j hj ▸ hj

theorem checkSuccessors_ne_nil (ht : sp.state? i = some t) : sp.checkSuccessors i ≠ [] := by
  obtain ⟨kind, u, j, hj, hu⟩ := h.exists_hasStep ht
  suffices hmem : ∃ k, k ∈ sp.checkSuccessors i from hmem.elim fun k hk => ne_nil_of_mem hk
  by_cases hkind : kind = .unfolding
  · -- the statement of a variant is run, so a step of another kind leaves it
    subst hkind
    obtain ⟨kind, v, k, hk, hv⟩ := h.exists_hasStep hu
    refine ⟨k, StateSpace.mem_checkSuccessors_iff.2 (.inr ⟨j, hj, kind, ?_, hk⟩)⟩
    rintro rfl
    exact ((h.hasStep_iff hu).1 ⟨k, hk, hv⟩).not_unfolding
      ((h.hasStep_iff ht).1 ⟨j, hj, hu⟩).unfolded_of_unfolding
  · exact ⟨j, StateSpace.mem_checkSuccessors_iff.2 (.inl ⟨kind, hkind, hj⟩)⟩

theorem unfolded_of_mem_checkSuccessors (ht : sp.state? i = some t) (hunf : t.unfolded = false)
    (hj : j ∈ sp.checkSuccessors i) (hu : sp.state? j = some u) : u.unfolded = false := by
  rcases StateSpace.mem_checkSuccessors_iff.1 hj with ⟨kind, hkind, hj⟩ | ⟨k, hk, kind, hkind, hj⟩
  · have hmove := (h.hasStep_iff ht).1 ⟨j, hj, hu⟩
    cases kind with
    | unfolding => exact absurd rfl hkind
    | flow => exact hmove.unfolded_of_flow
    | loop => exact (Moves.loop_iff.1 hmove).2 ▸ hunf
  · obtain ⟨v, hv, hvariant⟩ := h.exists_moves ht hk
    have hmove := (h.hasStep_iff hv).1 ⟨j, hj, hu⟩
    cases kind with
    | unfolding => exact absurd rfl hkind
    | flow => exact hmove.unfolded_of_flow
    | loop => exact (hvariant.not_loop hmove).elim

theorem isClosure : IsClosure E m heaps sp where
  unique := h.isChart.isTable.unique
  isExpanded := h.isExpanded
  isConnected := h.isChart.isConnected
  startsFrom := h.startsFrom
  hasStep_iff _ _ ht _ _ := h.hasStep_iff ht
  holds_iff _ := h.holds_iff
  unfoldingIsExclusive := h.unfoldingIsExclusive
  isFinal_iff _ _ ht := h.isFinal_iff ht
  checkSuccessors_ne_nil _ _ ht _ := h.checkSuccessors_ne_nil ht
  unfolded_eq_false _ _ ht hunf _ hj _ hu := h.unfolded_of_mem_checkSuccessors ht hunf hj hu

end IsFullChart

/-- Nothing is expected of the handler of calls of a method that makes none. -/
def callFree : Protocol where
  Later s t := s.limits = [] → t.limits = []
  Asks _ _ := False
  Answers _ _ _ _ := False
  Refuses _ _ _ := False
  trans h h' hs := h' (h hs)
  self _ ht := ht
  limits h := h
  count h h' hs := h'.limits (h hs)
  answers _ h := h

theorem isReady_callFree {call : CallHandler} (hcalls : m.callees = []) :
    IsReady callFree E call m heaps where
  obeyed _ _ _ _ hasks := hasks.elim
  asks _ _ _ _ _ _ _ hstmt hstep := by
    have hmem := Code.Method.mem_callees hstmt hstep
    rw [hcalls] at hmem
    cases hmem

/-- From any session, if a generation finds a space of a compiled method without calls, then the space
is the reachability closure of the abstract step from the given heaps. -/
theorem generate_isClosure {src method : String} {steps : Nat} {s u : Session}
    (hsource : Code.compile src = .ok E.program)
    (hcalls : ∀ m, E.program.method? method = some m → m.callees = [])
    (hsp : (E.generate steps method heaps).outcome s = (.ok sp, u)) :
    ∃ m, E.program.method? method = some m ∧ E.IsClosure m heaps sp := by
  obtain ⟨_, t, -, hrun⟩ := Run.exists_of_outcome_bind hsp
  obtain ⟨r, t', hsearch, hr⟩ := Run.exists_of_outcome_bind hrun
  obtain rfl : r.1 = sp := Except.ok.inj (congrArg Prod.fst hr)
  obtain ⟨m, hm, hheaps⟩ := exists_method_of_generateWith hsearch
  have hready : IsReady callFree E (E.invoke steps) m heaps := isReady_callFree (hcalls m hm)
  obtain ⟨hdrawn, hfull, hreached⟩ := (depthFirst_ensures hm hheaps hready fun h => h).of_ok hsearch
  have hsealed := Code.isSealed_of_compile hsource hm
  exact ⟨m, hm, IsFullChart.isClosure ⟨hdrawn.isChart, hfull, hdrawn.startsFrom, fun i t ht =>
    (hreached i t ht).has hsealed (hcalls m hm), hcalls m hm⟩⟩

/-- A method that walks along a list. -/
def walkingSource : String :=
  "init walk \x7b x = list 4; \x7d " ++
  "method walk(x) \x7b again: if x == null goto done; x = x.next; goto again; done: return; \x7d"

/-- An engine for the method that walks along a list. -/
def walkingEngine : Engine where
  program := (Code.compile walkingSource).toOption.getD {}

theorem compile_walkingSource : Code.compile walkingSource = .ok walkingEngine.program := by
  decide +kernel

/-- The list is summarised at first, and it is unfolded before every step along it. -/
theorem generate_isClosure_walking : ∃ sp u,
    (walkingEngine.generate 20 "walk" (walkingEngine.program.initialHeaps "walk")).outcome
      walkingEngine.session = (.ok sp, u) ∧
    ∃ m, walkingEngine.program.method? "walk" = some m ∧
      walkingEngine.IsClosure m (walkingEngine.program.initialHeaps "walk") sp := by
  have hok : ((walkingEngine.generate 20 "walk" (walkingEngine.program.initialHeaps "walk")).outcome
      walkingEngine.session).1.toOption.isSome := by decide +kernel
  have hcalls : (walkingEngine.program.method? "walk").all (·.callees = []) := by decide +kernel
  obtain ⟨sp, u, hsp⟩ := Run.exists_outcome_eq_ok hok
  refine ⟨sp, u, hsp, generate_isClosure compile_walkingSource ?_ hsp⟩
  intro m hm
  rw [hm] at hcalls
  simpa using hcalls

end Engine

end ShapeCheck
