import ShapeCheck.Code.Proposition
import ShapeCheck.Proofs.InitialHeaps
import ShapeCheck.Proofs.Nesting

/-!
# The errors of a run

A compiled program calls declared methods only, and from regular heaps an analysis meets regular heaps
only, on which every hidden selector can be unfolded. A contract is looked up again right after it has
been recorded, for a heap that it was made to describe. So of all errors that a generation can have, a
run has but two: a bound is reached, or a statement goes through null. The error that no more steps are
granted says nothing about the run.
-/

namespace ShapeCheck

open Code List Option

namespace Code

/-- Methods stand under their names, and every method that is called exists. -/
structure Program.IsLinked (P : Program) : Prop where
  name : ∀ name m, P.method? name = some m → m.name = name
  callees : ∀ name m, P.method? name = some m → ∀ callee ∈ m.callees, (P.method? callee).isSome

theorem Performs.exists_call {d : Source.MethodDecl} {kind : Source.StmtKind} {i : Instruction}
    {x : String} (h : Performs d kind i) (hx : x ∈ i.callee?) : ∃ c ∈ kind.call?, c.method.name = x := by
  cases h with
  | assignCall | call => exact ⟨_, rfl, Option.some.inj hx⟩
  | _ => cases hx

theorem isLinked_of_resolve {p : Source.Program} {P : Program} (hP : resolve p = .ok P) :
    P.IsLinked := by
  refine ⟨fun name m hm => ?_, fun name m hm x hx => ?_⟩
  · obtain ⟨d, -, hname, htranslates⟩ := translates_of_resolve hP hm
    exact htranslates.name.trans hname
  · obtain ⟨d, hd, -, htranslates⟩ := translates_of_resolve hP hm
    obtain ⟨sigs, hall, -⟩ := method?_of_resolve hP
    obtain ⟨stmt, hstmt, hx⟩ := mem_filterMap.1 hx
    refine htranslates.forall_mem (I := fun stmt => stmt.instruction.callee? = some x →
      (P.method? x).isSome) (fun stmt s hs _ hperforms hx => ?_) (fun hx => by cases hx) stmt hstmt hx
    -- The call fits a method that is declared.
    obtain ⟨c, hc, rfl⟩ := hperforms.exists_call hx
    obtain ⟨callee, hcallee, hname, -⟩ := (exists_resolve_iff.1 ⟨P, hP⟩).calls d hd s hs c hc
    exact hname ▸ hall callee hcallee

theorem isLinked_of_compile {src : String} {P : Program} (hP : compile src = .ok P) :
    P.IsLinked := by
  obtain ⟨p, -, hresolve⟩ := exists_resolve_of_compile hP
  exact isLinked_of_resolve hresolve

end Code

namespace Heap.IsRegular

variable {A : Abstraction} {h : Heap} {v : Node} {sel : String}

theorem exists_unfoldPoint (hh : h.IsRegular) (p : AccessPoint) :
    ∃ heaps, A.unfoldPoint p h = .ok heaps := by
  rw [Abstraction.unfoldPoint]
  cases h.var? p.base with
  | none => exact ⟨_, rfl⟩
  | some v =>
    dsimp only
    split
    · next hhides =>
      obtain ⟨hnull, hnone, -⟩ := Abstraction.hides_iff.1 hhides
      obtain ⟨⟨chain, i, target⟩, hhiding⟩ := ne_none_iff_exists'.1
        (Abstraction.hiding?_ne_none (fun _ _ e he _ => hh.paired e he) hhides)
      rw [Abstraction.unfoldAt, hnone, if_neg (by simp), if_neg hnull, hhiding]
      exact ⟨_, rfl⟩
    · exact ⟨_, rfl⟩

theorem exists_sources (hh : h.IsRegular) (E : Engine) (stmt : Statement) :
    ∃ gs, E.sources stmt h = .ok gs := by
  cases hpoint : stmt.accessPoint? with
  | none => exact ⟨[h], Engine.sources_eq_self hpoint⟩
  | some p =>
    rw [Engine.sources_eq hpoint]
    split
    · obtain ⟨heaps, hheaps⟩ := hh.exists_unfoldPoint (A := E.abstraction) p
      rw [hheaps]
      exact ⟨_, rfl⟩
    · exact ⟨_, rfl⟩

end Heap.IsRegular

theorem Heap.IsPlain.isRegular {h : Heap} (hh : h.IsPlain) : h.IsRegular :=
  ⟨hh.inRange, by rw [hh.summaries]; exact forall_mem_nil _⟩

/-- The error that a statement of the program goes through null. -/
def Code.Program.Dereferences (P : Program) (e : GenerationError) : Prop :=
  ∃ name m i stmt, P.method? name = some m ∧ m.statement? i = some stmt ∧
    stmt.accessPoint?.isSome ∧ e = .nullDereference stmt.nullDereference

theorem Code.Statement.isSome_accessPoint?_of_fault {stmt : Statement} {g : Heap}
    (hstep : stmt.step g = .fault) : stmt.accessPoint?.isSome := by
  rw [Statement.step] at hstep
  rw [Statement.accessPoint?]
  split at hstep <;> first | (next heq => rw [heq]; rfl) | cases hstep

/-- From a session with the property `I`, the computation succeeds and keeps the property, or it fails
with one of the given errors. -/
def Run.FailsOnly {α : Type} (x : Run α) (I : Session → Prop) (Err : GenerationError → Prop) : Prop :=
  ∀ s, I s → x.Ensures s (fun _ t => I t) fun e _ => Err e

theorem Run.isComposed_failsOnly (I : Session → Prop) (Err : GenerationError → Prop) :
    IsComposed fun _ x => x.FailsOnly I Err where
  pure _ _ hs := hs
  get _ hs := hs
  bind hx hf s hs := ensures_bind.2 ((hx s hs).imp (fun a t ht => hf a t ht) fun _ _ he => he)

theorem Run.Keeps.failsOnly {α : Type} {x : Run α} {I : Session → Prop} {Err : GenerationError → Prop}
    (hkeeps : x.Keeps I) (hx : ∀ s, I s → x.Ensures s (fun _ _ => True) fun e _ => Err e) :
    x.FailsOnly I Err := by
  intro s hs
  have hkept := hkeeps s hs
  refine .of_outcome (fun a t heq => ?_) fun e t heq => (hx s hs).of_error heq
  rwa [heq] at hkept

namespace Engine

/-- The errors that are expected of a run: it is stopped, or a statement goes through null. -/
def Expects (E : Engine) (s : Session) (e : GenerationError) : Prop :=
  e.IsStop s ∨ E.program.Dereferences e

variable {E : Engine} {s t u : Session} {e : GenerationError} {method : String} {m : Method}
  {pre : Heap} {heaps : List Heap} {call : CallHandler} {steps : Nat}

theorem Expects.earlier (he : E.Expects t e) (ht : s.limits = [] → t.limits = []) : E.Expects s e :=
  he.imp_left fun hstop => hstop.imp_right (And.imp_left fun hne heq => hne (ht heq))

/-- Postconditions that are regular. -/
abbrev RegularAnswer (E : Engine) : Answering :=
  E.CallAnswer fun _ _ posts => ∀ q ∈ posts, q.IsRegular

section Orderly

variable (hP : E.program.IsUnreserved) (hlinked : E.program.IsLinked)

include hP in
theorem Reached.isRegular_of_answers (hm : E.program.method? method = some m)
    (hheaps : ∀ h ∈ heaps, h.IsRegular) {state : State}
    (hstate : Reached E m E.RegularAnswer heaps state) : state.heap.IsRegular :=
  hstate.isRegular (hP _ _ hm) hheaps (CallAnswer.isRegular fun _ _ _ h => h)

include hP hlinked in
theorem dereferences_of_isStuck (hm : E.program.method? method = some m)
    (hheaps : ∀ h ∈ heaps, h.IsRegular) (hstuck : IsStuck E m E.RegularAnswer
      (E.CallRefusal fun _ _ => E.program.Dereferences) heaps e) : E.program.Dereferences e := by
  obtain ⟨h, i, stmt, u, hreached, hstmt, herror, rfl⟩ |
    ⟨g, i, stmt, hreached, hstmt, ⟨hstep, rfl⟩ | ⟨site, hstep, hrefused⟩⟩ := hstuck
  · obtain ⟨gs, hgs⟩ := (hreached.isRegular_of_answers hP hm hheaps).exists_sources E stmt
    cases hgs.symm.trans herror
  · exact ⟨method, m, i, stmt, hm, hstmt, Statement.isSome_accessPoint?_of_fault hstep, rfl⟩
  · obtain ⟨callee, hcallee⟩ := isSome_iff_exists.1
      (hlinked.callees _ _ hm _ (Method.mem_callees hstmt hstep))
    exact hrefused.2 callee hcallee

/-- The judgement that all heaps are regular, that methods exist that are called, and that runs fail
only where a statement goes through null. -/
def orderly : Judgement E where
  Fit site g := g.IsRegular ∧ (E.program.method? site.method).isSome
  Key method pre := pre.IsRegular ∧ (E.program.method? method).isSome
  Known _ pre := pre.IsRegular
  Free _ := False
  Covers _ _ _ _ := True
  Allows _ _ q := q.IsRegular
  Fails _ _ := E.program.Dereferences
  known h := h.1
  covers_zero := trivial
  covers_pred _ := trivial
  covers_mono _ _ := trivial
  view hpre hview := by
    refine ⟨⟨?_, hpre.2⟩, fun _ _ _ => trivial, fun _ h => h, fun _ h => h⟩
    simp only [Abstraction.views, mem_cons, not_mem_nil, or_false] at hview
    rcases hview with rfl | rfl | rfl | rfl
    · exact hpre.1
    · exact hpre.1.normalize
    · exact hpre.1.shapeAt E.abstraction _
    · exact hpre.1.shapeAt E.abstraction _
  key hfit _ := ⟨isRegular_calleeStart hfit.1 _ _, hfit.2⟩
  fit hpre hm hreached hstmt hstep :=
    ⟨hreached.isRegular_of_answers hP hm (forall_mem_singleton.2 hpre.1),
      hlinked.callees _ _ hm _ (Method.mem_callees hstmt hstep)⟩
  covers_succ _ _ _ := trivial
  allows hpre hm hreached :=
    (hreached.isRegular_of_answers hP hm (forall_mem_singleton.2 hpre.1)).harvestHeap E
  fails hpre hm := dereferences_of_isStuck hP hlinked hm (forall_mem_singleton.2 hpre.1)

theorem suited_orderly {task : String × List Heap} (hheaps : ∀ h ∈ task.2, h.IsRegular) :
    (orderly hP hlinked).Suited task := fun _ hm _ _ _ _ hreached hstmt hstep =>
  ⟨hreached.isRegular_of_answers hP hm hheaps,
    hlinked.callees _ _ hm _ (Method.mem_callees hstmt hstep)⟩

theorem search_expected {S : Search} (hm : E.program.method? method = some m)
    (hheaps : ∀ h ∈ heaps, h.IsRegular) (hne : heaps ≠ []) (hs : (orderly hP hlinked).Admits s)
    (hS : S.IsBelow 0) :
    (E.search steps method heaps S).Ensures s (fun _ _ => True) fun e _ => E.Expects s e := by
  have hsuited : (orderly hP hlinked).Suited (method, heaps) := suited_orderly hP hlinked hheaps
  have hready := (hsuited m hm).isReady ((orderly hP hlinked).isObeyed_invoke steps)
  refine (generateWith_ensures False hm hne hready hs.follows False.elim hS).imp
    (fun _ _ _ => trivial) fun e t ⟨_, he⟩ => he.imp_right fun hstuck => ?_
  exact dereferences_of_isStuck hP hlinked hm hheaps (hstuck.mono Judgement.answers_allows)

theorem search_failsOnly {S : Search} (hm : E.program.method? method = some m)
    (hheaps : ∀ h ∈ heaps, h.IsRegular) (hne : heaps ≠ []) (hS : S.IsBelow 0) :
    (E.search steps method heaps S).FailsOnly ((orderly hP hlinked).Passes s) (E.Expects s) := by
  have hsuited : (orderly hP hlinked).Suited (method, heaps) := suited_orderly hP hlinked hheaps
  refine (Judgement.keeps_search hsuited steps hS).failsOnly fun t ht => ?_
  exact (search_expected hP hlinked hm hheaps hne ht.rests.admits hS).imp (fun _ _ h => h)
    fun _ _ he => he.earlier ht.limits

theorem restart_failsOnly :
    restart.FailsOnly ((orderly hP hlinked).Passes s) (E.Expects s) :=
  fun _ ht => ht.restart

theorem generate_failsOnly (hm : E.program.method? method = some m)
    (hheaps : ∀ h ∈ heaps, h.IsRegular) (hne : heaps ≠ []) :
    (E.generate steps method heaps).FailsOnly ((orderly hP hlinked).Passes s) (E.Expects s) :=
  generate_composed (Run.isComposed_failsOnly _ _) (restart_failsOnly hP hlinked) fun _ =>
    search_failsOnly hP hlinked hm hheaps hne

theorem verify_failsOnly {labels : Labelling} {properties : List Property}
    (hm : E.program.method? method = some m) (hheaps : ∀ h ∈ heaps, h.IsRegular) (hne : heaps ≠ []) :
    (E.verify steps labels method heaps properties).FailsOnly ((orderly hP hlinked).Passes s)
      (E.Expects s) :=
  verify_composed (Run.isComposed_failsOnly _ _) (restart_failsOnly hP hlinked)
    (fun _ => search_failsOnly hP hlinked hm hheaps hne) labels properties

theorem expected_of_generates {op : Operation} {G : Generation} (hs : (orderly hP hlinked).Rests s)
    (hop : ∀ task ∈ op.tasks, (E.program.method? task.1).isSome ∧ task.2 ≠ [] ∧
      ∀ h ∈ task.2, h.IsRegular) (hG : E.Generates s [op] G) :
    (G.run E).Ensures G.session (fun _ _ => True) fun e _ => E.Expects G.session e := by
  have hsuited : ∀ op' ∈ [op], ∀ task ∈ op'.tasks, (orderly hP hlinked).Suited task := by
    rw [forall_mem_singleton]
    exact fun task htask => suited_orderly hP hlinked (hop task htask).2.2
  have hover := Judgement.oversees_of_generates hs hsuited (fun _ _ _ h => h) hG
  obtain ⟨hdeclared, hne, hheaps⟩ : (E.program.method? G.method).isSome ∧ G.heaps ≠ [] ∧
      ∀ h ∈ G.heaps, h.IsRegular := by
    rcases Judgement.task_or_key_of_generates hs hsuited (fun _ _ _ h => h) hG with
      ⟨op', hop', htask⟩ | ⟨pre, hkey, heq⟩
    · obtain rfl := mem_singleton.1 hop'
      exact hop (G.method, G.heaps) htask
    · rw [heq]
      exact ⟨hkey.2, cons_ne_nil _ _, forall_mem_singleton.2 hkey.1⟩
  obtain ⟨m, hm⟩ := isSome_iff_exists.1 hdeclared
  exact search_expected hP hlinked hm hheaps hne hover.admits hover.below

end Orderly

end Engine

/-- A store of contracts between regular heaps. -/
structure ContractStore.IsRegular (c : ContractStore) : Prop where
  records : ∀ method pre posts, c.Records method pre posts → pre.IsRegular ∧ ∀ q ∈ posts, q.IsRegular
  refines : ∀ method r, c.Refines method r → r.pre.IsRegular ∧ ∀ q ∈ r.posts, q.IsRegular

/-- The contracts that runs of a program leave, by engines with any settings and in sessions with any
bounds and requirements, whether the runs succeed or not. -/
inductive Code.Program.Fills (P : Program) : ContractStore → Prop
  | empty : P.Fills {}
  | run {E : Engine} {s : Session} {op : Operation} : E.program = P → P.Fills s.contracts →
    (∀ c ∈ s.turns, P.Fills c) → s.stack = [] → op.IsRegular → P.Fills (E.perform s op).contracts

namespace Engine

variable {E : Engine} {s : Session}

section Store

variable (hP : E.program.IsUnreserved) (hlinked : E.program.IsLinked)

theorem isRight_orderly {c : ContractStore} (hc : c.IsRegular) : (orderly hP hlinked).IsRight c where
  records method pre posts hrec :=
    (hc.records method pre posts hrec).imp_right fun hposts => ⟨fun _ => trivial, hposts⟩
  refines := hc.refines

theorem rests_orderly (hcontracts : s.contracts.IsRegular) (hturns : ∀ c ∈ s.turns, c.IsRegular)
    (hstack : s.stack = []) : (orderly hP hlinked).Rests s where
  admits :=
    { contracts := isRight_orderly hP hlinked hcontracts
      turns := fun c hc => isRight_orderly hP hlinked (hturns c hc)
      stack := by rw [hstack]; exact forall_mem_nil _
      required := fun _ h => h.elim }
  stack := hstack

theorem isRegular_of_admits (hs : (orderly hP hlinked).Admits s) : s.contracts.IsRegular where
  records method pre posts hrec := (hs.contracts.records method pre posts hrec).imp_right And.right
  refines := hs.contracts.refines

theorem leaves_perform_orderly (hs : (orderly hP hlinked).Rests s) {op : Operation}
    (hop : op.IsRegular) : (orderly hP hlinked).Leaves s (E.perform s op) :=
  Judgement.leaves_perform hs (fun task htask => suited_orderly hP hlinked (hop task htask))
    fun _ _ _ h => h

end Store

/-- Runs of a compiled program from regular heaps leave contracts between regular heaps. -/
theorem isRegular_of_fills {P : Program} {c : ContractStore} (hP : P.IsUnreserved)
    (hlinked : P.IsLinked) (hc : P.Fills c) : c.IsRegular := by
  induction hc with
  | empty =>
    refine ⟨?_, ?_⟩
    · rintro method pre posts ⟨t, ht, -⟩
      cases ht
    · rintro method r ⟨t, ht, -⟩
      cases ht
  | run hE _ _ hstack hop ih ihturns =>
    subst hE
    have hrests := rests_orderly hP hlinked ih ihturns hstack
    exact isRegular_of_admits hP hlinked (leaves_perform_orderly hP hlinked hrests hop).rests.admits

/-- Any sequence of operations from regular heaps leaves such contracts as runs do, and none of them
under construction. -/
theorem fills_after (hP : E.program.IsUnreserved) (hlinked : E.program.IsLinked)
    (hs : E.program.Fills s.contracts) (hturns : s.turns = []) (hstack : s.stack = [])
    {ops : List Operation} (hops : ∀ op ∈ ops, op.IsRegular) :
    E.program.Fills (E.after s ops).contracts ∧ (E.after s ops).turns = [] ∧
      (E.after s ops).stack = [] := by
  induction ops generalizing s with
  | nil => exact ⟨hs, hturns, hstack⟩
  | cons op ops ih =>
    obtain ⟨hop, hops⟩ := forall_mem_cons.1 hops
    have hrests := rests_orderly hP hlinked (isRegular_of_fills hP hlinked hs) (by simp [hturns]) hstack
    have hleaves := leaves_perform_orderly hP hlinked hrests hop
    exact ih (.run rfl hs (by simp [hturns]) hstack hop) (suffix_nil.1 (hturns ▸ hleaves.turns))
      hleaves.rests.stack hops

theorem isRegular_of_init {source : String} {P : Program} {name : String} {m : Method} {h : Heap}
    (hsource : compile source = .ok P) (hm : P.method? name = some m)
    (hh : h ∈ m.inits ∨ ∃ mask, h = Method.sampleHeap m.params mask) : h.IsRegular := by
  rcases hh with hh | ⟨mask, rfl⟩
  · exact (isInitial_of_mem_inits hsource hm hh).toIsPlain.isRegular
  · have hparams := (isUnreserved_of_compile hsource name m hm).params
    exact (Method.isInitial_sampleHeap hparams mask).toIsPlain.isRegular

/-- A run of a declared method of a compiled program, from heaps of the source or default heaps and
with contracts of earlier runs, fails only if it is stopped or if a statement goes through null. The
same is true of every generation within the run, however deep in calls. -/
theorem expected_of_run {source method : String} {m : Method}
    {heaps : List Heap} (hsource : compile source = .ok E.program)
    (hm : E.program.method? method = some m) (hne : heaps ≠ [])
    (hheaps : ∀ h ∈ heaps, h ∈ m.inits ∨ ∃ mask, h = Method.sampleHeap m.params mask)
    (hstack : s.stack = []) (hcontracts : E.program.Fills s.contracts)
    (hturns : ∀ c ∈ s.turns, E.program.Fills c) (steps : Nat) (labels : Labelling)
    (properties : List Property) :
    (E.generate steps method heaps).Ensures s (fun _ _ => True) (fun e _ => E.Expects s e) ∧
    (E.verify steps labels method heaps properties).Ensures s (fun _ _ => True)
      (fun e _ => E.Expects s e) ∧
    ∀ op ∈ [.generate steps method heaps, .verify steps labels method heaps properties],
      ∀ G, E.Generates s [op] G →
        (G.run E).Ensures G.session (fun _ _ => True) fun e _ => E.Expects G.session e := by
  have hP := isUnreserved_of_compile hsource
  have hlinked := isLinked_of_compile hsource
  have hregular : ∀ h ∈ heaps, h.IsRegular := fun h hh => isRegular_of_init hsource hm (hheaps h hh)
  have hrests := rests_orderly hP hlinked (isRegular_of_fills hP hlinked hcontracts)
    (fun c hc => isRegular_of_fills hP hlinked (hturns c hc)) hstack
  refine ⟨?_, ?_, fun op hop G hG => expected_of_generates hP hlinked hrests (fun task htask => ?_) hG⟩
  · exact (generate_failsOnly hP hlinked hm hregular hne s (.refl hrests)).imp (fun _ _ _ => trivial)
      fun _ _ he => he
  · exact (verify_failsOnly hP hlinked hm hregular hne s (.refl hrests)).imp (fun _ _ _ => trivial)
      fun _ _ he => he
  · have htask : task = (method, heaps) := by
      rcases mem_pair.1 hop with rfl | rfl <;> exact mem_singleton.1 htask
    rw [htask]
    exact ⟨isSome_iff_exists.2 ⟨m, hm⟩, hne, hregular⟩

/-- The contracts of the first run, which is stopped, and of the second are there. -/
theorem expected_of_run_building : ∃ m, buildingEngine.program.method? "build" = some m ∧
    let s := buildingEngine.after buildingEngine.session buildingRuns
    (buildingEngine.generate 20 "build" [Method.sampleHeap m.params 0]).Ensures s (fun _ _ => True)
      (fun e _ => buildingEngine.Expects s e) ∧
    (buildingEngine.verify 20 variableLabels "build" [Method.sampleHeap m.params 0] []).Ensures s
      (fun _ _ => True) (fun e _ => buildingEngine.Expects s e) ∧
    ∀ op ∈ [.generate 20 "build" [Method.sampleHeap m.params 0],
        .verify 20 variableLabels "build" [Method.sampleHeap m.params 0] []],
      ∀ G, buildingEngine.Generates s [op] G →
        (G.run buildingEngine).Ensures G.session (fun _ _ => True)
          fun e _ => buildingEngine.Expects G.session e := by
  have hdeclared : (buildingEngine.program.method? "build").isSome := by decide +kernel
  obtain ⟨m, hm⟩ := isSome_iff_exists.1 hdeclared
  obtain ⟨hfills, hturns, hstack⟩ := fills_after (isUnreserved_of_compile compile_buildingSource)
    (isLinked_of_compile compile_buildingSource) (s := buildingEngine.session) .empty rfl rfl
    fun op hop => (isRegular_of_mem_buildingRuns op hop).2
  exact ⟨m, hm, expected_of_run compile_buildingSource hm (cons_ne_nil _ _)
    (forall_mem_singleton.2 (.inr ⟨0, rfl⟩)) hstack hfills (by simp [hturns]) 20 variableLabels []⟩

end Engine

end ShapeCheck
