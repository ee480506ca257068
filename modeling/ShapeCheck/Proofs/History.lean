import ShapeCheck.Engine.Parallel
import ShapeCheck.Proofs.Exactness

/-!
# After any sequence of runs

Whatever runs an engine has made, also at the same time, and however they ended, its session is at
rest: no contract is under construction, and all recorded contracts are right. With the judgement of
exact postconditions this says that a recorded contract is what its method returns.
-/

namespace ShapeCheck

open Code List

/-- What can be asked of an engine. -/
inductive Operation where
  /-- The state space of a method. -/
  | generate (steps : Nat) (method : String) (heaps : List Heap)
  /-- The state space of a method, while the effort goes on counting. -/
  | search (steps : Nat) (method : String) (heaps : List Heap)
  /-- The verdicts on properties of a method. -/
  | verify (steps : Nat) (labels : Labelling) (method : String) (heaps : List Heap)
    (properties : List Property)
  /-- The state spaces of several methods, by tasks that share their contracts. -/
  | generateAll (steps : Nat) (schedule : List Turn) (tasks : List (String × List Heap))
  /-- Require final heaps of a method. -/
  | require (method : String) (heaps : List Heap)
  /-- Require nothing any more. -/
  | clear

/-- The methods that are run, with their initial heaps. -/
def Operation.tasks : Operation → List (String × List Heap)
  | .generate _ method heaps => [(method, heaps)]
  | .search _ method heaps => [(method, heaps)]
  | .verify _ _ method heaps _ => [(method, heaps)]
  | .generateAll _ _ tasks => tasks
  | .require .. => []
  | .clear => []

/-- Whether the operation is a run, and not one that changes what is required. -/
def Operation.isRun : Operation → Bool
  | .require .. => false
  | .clear => false
  | _ => true

/-- All runs start from regular heaps. -/
def Operation.IsRegular (op : Operation) : Prop :=
  ∀ task ∈ op.tasks, ∀ h ∈ task.2, h.IsRegular

namespace Engine

/-- The properties that are checked. -/
def wanted (E : Engine) (properties : List Property) : List Property :=
  if E.settings.checking then properties else []

/-- The tasks stay the same and in order. -/
theorem map_work (E : Engine) (steps : Nat) (contracts : ContractStore)
    (tasks : List (String × List Heap)) (turns : List Turn) :
    (E.work steps contracts tasks turns).2.map (fun w => (w.method, w.heaps)) = tasks := by
  refine List.foldlRecOn _ _ (motive := fun r : ContractStore × List (Worker E) =>
    r.2.map (fun w => (w.method, w.heaps)) = tasks) ?_ fun r hr turn _ => ?_
  · rw [List.map_map]
    exact List.map_id tasks
  rw [grant]
  split
  · exact hr
  · next w hw =>
    split
    · rw [← hr]
      refine ext_getElem? fun i => ?_
      rw [getElem?_map, getElem?_map, getElem?_set]
      split
      · next hi =>
        rw [← hi, hw, if_pos (List.getElem?_eq_some_iff.1 hw).1]
        rfl
      · rfl
    · exact hr

theorem mem_tasks_of_mem_work {steps : Nat} {contracts : ContractStore}
    {tasks : List (String × List Heap)} {turns : List Turn} {E : Engine} {w : Worker E}
    (hw : w ∈ (E.work steps contracts tasks turns).2) : (w.method, w.heaps) ∈ tasks := by
  rw [← E.map_work steps contracts tasks turns]
  exact mem_map_of_mem hw

/-- The session that an operation leaves, whether it succeeds or not. -/
def perform (E : Engine) (s : Session) : Operation → Session
  | .generate steps method heaps => ((E.generate steps method heaps).outcome s).2
  | .search steps method heaps => ((E.search steps method heaps .depthFirst).outcome s).2
  | .verify steps labels method heaps properties =>
    ((E.verify steps labels method heaps properties).outcome s).2
  | .generateAll steps schedule tasks => ((E.generateAll steps schedule tasks).run s).2
  | .require method heaps => { s with required := s.required.insert method (.ofList heaps) }
  | .clear => { s with required := ∅ }

/-- The session after a sequence of operations. -/
def after (E : Engine) (s : Session) (ops : List Operation) : Session :=
  ops.foldl E.perform s

variable {E : Engine} {s t u : Session} {method : String} {heaps : List Heap} {steps : Nat}

section Composed

variable {C : (α : Type) → Run α → Prop} (hC : Run.IsComposed C) (hrestart : C Unit restart)
  (hsearch : ∀ S : Search, S.IsBelow 0 → C _ (E.search steps method heaps S))

include hC hsearch

theorem checkOnTheFly_composed (labels : Labelling) (p : Property) :
    C _ (E.checkOnTheFly steps labels method heaps p) :=
  hC.bind (hsearch _ (Search.isBelow_onTheFly p.formula labels)) fun _ => hC.pure _

include hrestart

theorem generate_composed : C _ (E.generate steps method heaps) :=
  hC.bind hrestart fun _ => hC.bind (hsearch _ Search.isBelow_depthFirst) fun _ => hC.pure _

theorem verify_composed (labels : Labelling) (properties : List Property) :
    C _ (E.verify steps labels method heaps properties) := by
  have hreport (sp : E.Space) (results : List PropertyResult) :
      C _ (do
        let s ← get
        return ⟨sp, results, s.effort, s.contracts.size⟩ : Run (Report E.fingerprint)) :=
    hC.bind hC.get fun _ => hC.pure _
  refine hC.bind hrestart fun _ => ?_
  dsimp only
  generalize (if E.settings.checking then properties else []) = wanted
  split
  · exact hC.bind (hC.mapM (checkOnTheFly_composed hC hsearch labels) _) fun _ =>
      hC.bind (hC.pure _) fun _ => hreport _ _
  · exact hC.bind (hsearch _ Search.isBelow_depthFirst) fun _ => hC.bind (hC.pure _) fun _ =>
      hreport _ _

end Composed

namespace Judgement

variable {J : Judgement E}

/-- What the judgement asks of a run: that the method makes only calls that may be made. -/
def Suited (J : Judgement E) (task : String × List Heap) : Prop :=
  ∀ m, E.program.method? task.1 = some m → J.Suits m task.2

theorem Passes.refl (hs : J.Rests s) : J.Passes s s :=
  ⟨.refl s, hs⟩

theorem Passes.trans (h : J.Passes s t) (h' : J.Passes t u) : J.Passes s u :=
  ⟨h.toPrecedes.trans h'.toPrecedes, h'.rests⟩

theorem Passes.restart (h : J.Passes s t) : J.Passes s t.restart :=
  ⟨⟨h.limits, h.required, h.turns, h.waits⟩, h.rests.restart⟩

theorem Rests.withLimits (hs : J.Rests s) (limits : Limits) : J.Rests { s with limits } :=
  ⟨⟨hs.admits.contracts, hs.admits.turns, hs.admits.stack, hs.admits.required⟩, hs.stack⟩

theorem keeps_search (hsuited : J.Suited (method, heaps)) (steps : Nat) {S : Search}
    (hS : S.IsBelow 0) : (E.search steps method heaps S).Keeps (J.Passes s) := by
  intro t ht
  by_cases hempty : E.program.method? method = none ∨ heaps = []
  · obtain ⟨e, -, heq⟩ : ∃ e, e ≠ .outOfSteps ∧
        (E.search steps method heaps S).outcome t = (.error e, t) :=
      outcome_generateWith_of_empty hempty
    rw [heq]
    exact ht
  · push Not at hempty
    obtain ⟨m, hm⟩ := Option.ne_none_iff_exists'.1 hempty.1
    have hsearch := search_ensures steps hm hempty.2 (hsuited m hm) ht.rests hS
    exact (hsearch.imp (fun _ u hu => ht.trans hu.1) fun _ u hu => ht.trans hu.1).outcome_snd

theorem keeps_restart : restart.Keeps (J.Passes s) :=
  fun _ ht => ht.restart

theorem keeps_generate (hsuited : J.Suited (method, heaps)) (steps : Nat) :
    (E.generate steps method heaps).Keeps (J.Passes s) :=
  generate_composed (Run.isComposed_keeps _) keeps_restart fun _ => keeps_search hsuited steps

theorem keeps_checkOnTheFly (hsuited : J.Suited (method, heaps)) (steps : Nat) (labels : Labelling)
    (p : Property) : (E.checkOnTheFly steps labels method heaps p).Keeps (J.Passes s) :=
  checkOnTheFly_composed (Run.isComposed_keeps _) (fun _ => keeps_search hsuited steps) labels p

theorem keeps_verify (hsuited : J.Suited (method, heaps)) (steps : Nat) (labels : Labelling)
    (properties : List Property) :
    (E.verify steps labels method heaps properties).Keeps (J.Passes s) :=
  verify_composed (Run.isComposed_keeps _) keeps_restart (fun _ => keeps_search hsuited steps) labels
    properties

/-- A task starts at rest if all that it sees is right. -/
theorem rests_start {contracts : ContractStore} (hc : J.IsRight contracts) {w : Worker E}
    (hseen : ∀ c ∈ w.seen, J.IsRight c) : J.Rests (w.start contracts) :=
  ⟨⟨hc, hseen, forall_mem_nil _, fun _ _ => rfl⟩, rfl⟩

/-- The shared contracts are right, and so is what the tasks have seen of them. What a task has found
is what a generation finds in a session at rest. -/
structure Shares (J : Judgement E) (steps : Nat) (r : ContractStore × List (Worker E)) : Prop where
  contracts : J.IsRight r.1
  seen : ∀ w ∈ r.2, ∀ c ∈ w.seen, J.IsRight c
  result : ∀ w ∈ r.2, w.result = .error .outOfSteps ∨ ∃ s, J.Rests s ∧ s.limits = E.settings.limits ∧
    w.result = ((E.generate steps w.method w.heaps).outcome s).1

theorem Shares.see {r : ContractStore × List (Worker E)} (h : J.Shares steps r) {w : Worker E}
    (hw : w ∈ r.2)
    (last : Bool) : ∀ c ∈ (w.see r.1 last).seen, J.IsRight c := by
  intro c hc
  rcases mem_append.1 hc with hc | hc
  · exact h.seen w hw c hc
  · exact mem_singleton.1 hc ▸ h.contracts

/-- A task that sees right contracts records right ones, and these are shared. -/
theorem Shares.grant {contracts : ContractStore} (hc : J.IsRight contracts)
    {r : ContractStore × List (Worker E)} (h : J.Shares steps r)
    (hsuited : ∀ w ∈ r.2, J.Suited (w.method, w.heaps)) (turn : Turn) :
    J.Shares steps (E.grant steps contracts r turn) := by
  rw [Engine.grant]
  split
  · exact h
  · next w hw =>
    have hmem := mem_of_getElem? hw
    split
    · have hstart := rests_start hc (h.see hmem turn.last)
      have hrun := keeps_generate (hsuited w hmem) steps _ (Passes.refl hstart)
      refine ⟨h.contracts.join hrun.rests.admits.contracts, fun v hv => ?_, fun v hv => ?_⟩
      · rcases mem_or_eq_of_mem_set hv with hv | rfl
        · exact h.seen v hv
        · exact h.see hmem turn.last
      · rcases mem_or_eq_of_mem_set hv with hv | rfl
        · exact h.result v hv
        · exact .inr ⟨_, hstart, rfl, rfl⟩
    · exact h

theorem shares_work {contracts : ContractStore} (hc : J.IsRight contracts)
    {tasks : List (String × List Heap)} (hsuited : ∀ task ∈ tasks, J.Suited task) (turns : List Turn) :
    J.Shares steps (E.work steps contracts tasks turns) := by
  -- the turns are taken off at the end, since all that is shared comes from the start
  induction turns using List.reverseRecOn with
  | nil =>
    refine ⟨hc, fun w hw => ?_, fun w hw => ?_⟩ <;> obtain ⟨task, -, rfl⟩ := mem_map.1 hw
    · exact forall_mem_nil _
    · exact .inl rfl
  | append_singleton turns turn ih =>
    rw [work, foldl_append]
    exact ih.grant hc (fun w hw => hsuited _ (mem_tasks_of_mem_work hw)) turn

/-- In whatever order the tasks get at the shared contracts, these stay right. -/
theorem passes_generateAll (hs : J.Rests s) {tasks : List (String × List Heap)}
    (hsuited : ∀ task ∈ tasks, J.Suited task) (schedule : List Turn) :
    J.Passes s ((E.generateAll steps schedule tasks).run s).2 :=
  ⟨⟨fun h => h, rfl, suffix_rfl, rfl⟩, ⟨(shares_work hs.admits.contracts hsuited _).contracts,
    hs.admits.turns, hs.admits.stack, hs.admits.required⟩, hs.stack⟩

/-- The session that an operation leaves is at rest, and nobody else shares it. -/
structure Leaves (J : Judgement E) (s t : Session) : Prop where
  rests : J.Rests t
  limits : s.limits = [] → t.limits = []
  turns : t.turns <:+ s.turns
  waits : t.waits = s.waits

theorem leaves_perform (hs : J.Rests s) {op : Operation} (hsuited : ∀ task ∈ op.tasks, J.Suited task)
    (hrequire : ∀ method heaps, op = .require method heaps → ¬J.Free method) :
    J.Leaves s (E.perform s op) := by
  have hpasses {t : Session} (ht : J.Passes s t) : J.Leaves s t :=
    ⟨ht.rests, ht.limits, ht.turns, ht.waits⟩
  cases op with
  | generate steps method heaps =>
    exact hpasses (keeps_generate (hsuited _ mem_cons_self) steps s (.refl hs))
  | search steps method heaps =>
    exact hpasses (keeps_search (hsuited _ mem_cons_self) steps Search.isBelow_depthFirst s
      (.refl hs))
  | verify steps labels method heaps properties =>
    exact hpasses (keeps_verify (hsuited _ mem_cons_self) steps labels properties s (.refl hs))
  | generateAll steps schedule tasks => exact hpasses (passes_generateAll hs hsuited schedule)
  | require method heaps =>
    refine ⟨⟨⟨hs.admits.contracts, hs.admits.turns, hs.admits.stack, fun method' hfree => ?_⟩,
      hs.stack⟩, fun h => h, suffix_rfl, rfl⟩
    have hne : method' ≠ method := fun heq => hrequire method heaps rfl (heq ▸ hfree)
    exact (SortedMap.find?_insert.trans (if_neg hne)).trans (hs.admits.required method' hfree)
  | clear =>
    exact ⟨⟨⟨hs.admits.contracts, hs.admits.turns, hs.admits.stack, fun _ _ => rfl⟩, hs.stack⟩,
      fun h => h, suffix_rfl, rfl⟩

theorem leaves_after (hs : J.Rests s) {ops : List Operation}
    (hsuited : ∀ op ∈ ops, ∀ task ∈ op.tasks, J.Suited task)
    (hrequire : ∀ method heaps, .require method heaps ∈ ops → ¬J.Free method) :
    J.Leaves s (E.after s ops) := by
  induction ops generalizing s with
  | nil => exact ⟨hs, fun h => h, suffix_rfl, rfl⟩
  | cons op ops ih =>
    obtain ⟨hop, hops⟩ := forall_mem_cons.1 hsuited
    have hfirst := leaves_perform hs hop fun method heaps heq =>
      hrequire method heaps (heq ▸ mem_cons_self)
    have hrest := ih hfirst.rests hops fun method heaps hmem =>
      hrequire method heaps (mem_cons_of_mem _ hmem)
    exact ⟨hrest.rests, fun h => hrest.limits (hfirst.limits h), hrest.turns.trans hfirst.turns,
      hrest.waits.trans hfirst.waits⟩

end Judgement

section Exact

variable {ops : List Operation} (hdepth : E.abstraction.depth = 0) (hP : E.program.IsUnreserved)

theorem suited_exact {Free Inner : String → Prop} (hinner : ∀ method m, Inner method →
      E.program.method? method = some m → ∀ callee ∈ m.callees, Free callee ∧ Inner callee)
    {task : String × List Heap} (hheaps : ∀ h ∈ task.2, h.IsRegular)
    (hcallees : ∀ m, E.program.method? task.1 = some m → ∀ callee ∈ m.callees, Inner callee) :
    (exact Free Inner hdepth hP hinner).Suited task := fun m hm _ _ _ _ hreached hstmt hstep =>
  ⟨hreached.isRegular_of_isPost hP hm hheaps, hcallees m hm _ (Method.mem_callees hstmt hstep)⟩

/-- The judgement of exact postconditions when nothing is required of any method. -/
def unnarrowed : Judgement E :=
  exact (fun _ => True) (fun _ => True) hdepth hP fun _ _ _ _ _ _ => ⟨trivial, trivial⟩

theorem suited_unnarrowed {task : String × List Heap} (hheaps : ∀ h ∈ task.2, h.IsRegular) :
    (unnarrowed hdepth hP).Suited task :=
  suited_exact hdepth hP _ hheaps fun _ _ _ _ => trivial

theorem leaves_after_runs (hs : (unnarrowed hdepth hP).Rests s)
    (hops : ∀ op ∈ ops, op.isRun ∧ op.IsRegular) :
    (unnarrowed hdepth hP).Leaves s (E.after s ops) := by
  refine Judgement.leaves_after hs (fun op hop task htask =>
    suited_unnarrowed hdepth hP ((hops op hop).2 task htask)) fun method heaps hmem => ?_
  exact absurd (hops _ hmem).1 (by simp [Operation.isRun])

end Exact

/-- However the runs ended that an engine has made from regular heaps, every recorded contract is
exact: a further run of the method from the precondition, unless it is stopped, succeeds and has the
postconditions as its final heaps. -/
theorem harvest_of_records (limits : Limits) {source : String} {ops : List Operation} {pre : Heap}
    {posts : HeapSet} (hsource : compile source = .ok E.program) (hdepth : E.abstraction.depth = 0)
    (hops : ∀ op ∈ ops, op.isRun ∧ op.IsRegular)
    (hrec : (E.after { E.session with limits } ops).contracts.Records method pre posts)
    (steps : Nat) :
    (E.generate steps method [pre]).Ensures (E.after { E.session with limits } ops)
      (fun sp _ => E.harvest sp = posts)
      fun e _ => e.IsStop (E.after { E.session with limits } ops) := by
  have hP := isUnreserved_of_compile hsource
  have hrests := (leaves_after_runs hdepth hP
    ((Judgement.rests_session (J := unnarrowed hdepth hP)).withLimits limits) hops).rests
  obtain ⟨hknown, hcomplete, hposts⟩ := hrests.admits.contracts.records method pre posts hrec
  have hkey : (unnarrowed hdepth hP).Key method pre := ⟨hknown, trivial⟩
  obtain ⟨m, hm⟩ := Option.isSome_iff_exists.1 hknown.isSome
  have hsuited : (unnarrowed hdepth hP).Suited (method, [pre]) :=
    suited_unnarrowed hdepth hP (forall_mem_singleton.2 hknown.regular)
  refine (Judgement.generate_ensures steps hm (cons_ne_nil _ _) (hsuited m hm) hrests).imp
    (fun sp t ⟨_, hsp⟩ => ?_) fun e t ⟨_, he⟩ => he.resolve_right fun hstuck => ?_
  · have hsettled (n : Nat) : E.IsComplete n method pre (E.harvest sp) :=
      (unnarrowed hdepth hP).covers_pred ((unnarrowed hdepth hP).covers_succ hkey hm
        (hsp.mono (CallAnswer.mono fun _ _ _ h hfree => h.covers hfree n)))
    refine eq_of_isComplete (fun q hq => ?_) hsettled hposts hcomplete
    obtain ⟨h, hh, rfl⟩ := hsp.mem_harvest_iff.1 hq
    exact (unnarrowed hdepth hP).allows hkey hm
      ((hsp.reached hh).mono (CallAnswer.mono fun _ _ _ h => h.allows))
  · obtain ⟨n, hn⟩ := (unnarrowed hdepth hP).fails hkey hm hstuck
    exact (hcomplete n).not_mayFail hn

/-- A method that builds a list of any length, by calling itself. -/
def buildingSource : String :=
  "method build() \x7b if * goto done; x = build(); done: y = new; y.next = x; return y; \x7d"

/-- An engine for the method that builds a list. -/
def buildingEngine : Engine where
  program := (compile buildingSource).toOption.getD {}

/-- A run that is out of steps before its contract is complete, and one that records it. -/
def buildingRuns : List Operation :=
  [.generate 7 "build" [Heap.empty], .generate 20 "build" [Heap.empty]]

theorem compile_buildingSource : compile buildingSource = .ok buildingEngine.program := by
  decide +kernel

theorem isRegular_of_mem_buildingRuns : ∀ op ∈ buildingRuns, op.isRun ∧ op.IsRegular := by
  simp [buildingRuns, Operation.isRun, Operation.IsRegular, Operation.tasks, Heap.isRegular_empty]

/-- The final heaps are found in three rounds: one cell, two cells, and a list of more. -/
theorem harvest_of_records_building : ∃ posts,
    (buildingEngine.after buildingEngine.session buildingRuns).contracts.Records "build" Heap.empty
      posts ∧
    (buildingEngine.generate 20 "build" [Heap.empty]).Ensures
      (buildingEngine.after buildingEngine.session buildingRuns)
      (fun sp _ => buildingEngine.harvest sp = posts)
      fun e _ => e.IsStop (buildingEngine.after buildingEngine.session buildingRuns) := by
  have hsome : (((buildingEngine.after buildingEngine.session buildingRuns).contracts.table?
      "build").bind (·.general.find? Heap.empty)).isSome := by decide +kernel
  obtain ⟨posts, hposts⟩ := Option.isSome_iff_exists.1 hsome
  obtain ⟨t, ht, hfind⟩ := Option.bind_eq_some_iff.1 hposts
  exact ⟨posts, ⟨t, ht, hfind⟩, harvest_of_records [] compile_buildingSource rfl
    isRegular_of_mem_buildingRuns ⟨t, ht, hfind⟩ 20⟩

end Engine

end ShapeCheck
