import ShapeCheck.Proofs.Reuse

/-!
# Requirements that are taken back

Requirements narrow the answers to calls of a method. If the method that is run makes the call, then
only this run is concerned. If a method makes it that is called itself, then this method is found to
return less, and its contract is recorded so and outlives the requirement. As long as called methods
do not call required ones, all contracts are exact, and once the requirements are taken back,
generations find the spaces that they would have found without them.
-/

namespace ShapeCheck

open Code List

/-- The methods that a method of the program calls. -/
def Code.Program.calls (P : Program) (caller : String) : List String :=
  ((P.method? caller).map Method.callees).getD []

theorem Code.Program.calls_eq {P : Program} {caller : String} {m : Method}
    (hm : P.method? caller = some m) : P.calls caller = m.callees := by
  rw [calls, hm]
  rfl

/-- The methods that a method calls, directly or through others. -/
def Code.Program.IsCalled (P : Program) : String → String → Prop :=
  Relation.TransGen fun caller callee => callee ∈ P.calls caller

/-- The methods of which final heaps are required after an operation. -/
def Operation.required (names : List String) : Operation → List String
  | .require method _ => method :: names
  | .clear => []
  | _ => names

/-- Whenever a method is run, no method that it calls, directly or through others, calls a required
one. The given methods are required before the first operation. -/
def Code.Program.AreOutermost (P : Program) : List String → List Operation → Prop
  | _, [] => True
  | names, op :: ops =>
    (∀ task ∈ op.tasks, ∀ caller, P.IsCalled task.1 caller → ∀ callee ∈ P.calls caller,
      callee ∉ names) ∧ P.AreOutermost (op.required names) ops

namespace Engine

variable {E : Engine} {s t : Session} {method : String} {heaps : List Heap} {steps : Nat}
  {op : Operation} {ops : List Operation} {names : List String}

section Exact

variable (hdepth : E.abstraction.depth = 0) (hP : E.program.IsUnreserved)

/-- A session at rest in which nothing is required but of the given methods. -/
structure RestsBut (names : List String) (s : Session) : Prop where
  rests : (unnarrowed hdepth hP).Rests { s with required := ∅ }
  required : ∀ method, method ∉ names → s.required.find? method = none

theorem isRight_exact_iff {Inner : String → Prop} (hinner : ∀ method m, Inner method →
      E.program.method? method = some m → ∀ callee ∈ m.callees, callee ∉ names ∧ Inner callee)
    {c : ContractStore} :
    (exact (· ∉ names) Inner hdepth hP hinner).IsRight c ↔ (unnarrowed hdepth hP).IsRight c :=
  ⟨fun h => ⟨h.records, h.refines⟩, fun h => ⟨h.records, h.refines⟩⟩

theorem rests_exact_iff {Inner : String → Prop} (hinner : ∀ method m, Inner method →
      E.program.method? method = some m → ∀ callee ∈ m.callees, callee ∉ names ∧ Inner callee) :
    (exact (· ∉ names) Inner hdepth hP hinner).Rests s ↔ RestsBut hdepth hP names s :=
  have hright (c : ContractStore) := isRight_exact_iff hdepth hP hinner (c := c)
  ⟨fun h => ⟨⟨⟨(hright _).1 h.admits.contracts, fun c hc => (hright c).1 (h.admits.turns c hc),
      h.admits.stack, fun _ _ => rfl⟩, h.stack⟩, h.admits.required⟩,
    fun h => ⟨⟨(hright _).2 h.rests.admits.contracts,
      fun c hc => (hright c).2 (h.rests.admits.turns c hc), h.rests.admits.stack, h.required⟩,
      h.rests.stack⟩⟩

theorem RestsBut.perform (hs : RestsBut hdepth hP names s) (hop : op.IsRegular)
    (hout : ∀ task ∈ op.tasks, ∀ caller, E.program.IsCalled task.1 caller →
      ∀ callee ∈ E.program.calls caller, callee ∉ names) :
    RestsBut hdepth hP (op.required names) (E.perform s op) ∧
      (s.limits = [] → (E.perform s op).limits = []) := by
  by_cases hclear : op = .clear
  · subst hclear
    exact ⟨⟨hs.rests, fun _ _ => rfl⟩, fun h => h⟩
  -- Contracts are made for the methods that the runs call, and these call no required method.
  have hinner : ∀ caller m, (∃ task ∈ op.tasks, E.program.IsCalled task.1 caller) →
      E.program.method? caller = some m → ∀ callee ∈ m.callees, callee ∉ op.required names ∧
        ∃ task ∈ op.tasks, E.program.IsCalled task.1 callee := by
    rintro caller m ⟨task, htask, hcalled⟩ hm callee hcallee
    rw [← Program.calls_eq hm] at hcallee
    refine ⟨?_, task, htask, hcalled.tail hcallee⟩
    have hnames := hout task htask caller hcalled callee hcallee
    cases op with
    | require => exact absurd htask not_mem_nil
    | clear => exact absurd rfl hclear
    | _ => exact hnames
  have hrests : (exact (· ∉ op.required names) _ hdepth hP hinner).Rests s := by
    refine (rests_exact_iff hdepth hP hinner).2 ⟨hs.rests, fun method hmethod => ?_⟩
    refine hs.required method ?_
    cases op with
    | require => exact fun hmem => hmethod (mem_cons_of_mem _ hmem)
    | clear => exact absurd rfl hclear
    | _ => exact hmethod
  have hsuited : ∀ task ∈ op.tasks,
      (exact (· ∉ op.required names) _ hdepth hP hinner).Suited task := fun task htask =>
    suited_exact hdepth hP hinner (hop task htask) fun m hm callee hcallee =>
      ⟨task, htask, .single (Program.calls_eq hm ▸ hcallee)⟩
  have hrequire : ∀ method heaps, op = .require method heaps → ¬method ∉ op.required names := by
    rintro method heaps rfl hfree
    exact hfree mem_cons_self
  have hleaves := Judgement.leaves_perform hrests hsuited hrequire
  exact ⟨(rests_exact_iff hdepth hP hinner).1 hleaves.rests, hleaves.limits⟩

theorem RestsBut.after (hs : RestsBut hdepth hP names s) (hops : ∀ op ∈ ops, op.IsRegular)
    (hout : E.program.AreOutermost names ops) :
    (∃ names', RestsBut hdepth hP names' (E.after s ops)) ∧
      (s.limits = [] → (E.after s ops).limits = []) := by
  induction ops generalizing s names with
  | nil => exact ⟨⟨names, hs⟩, fun h => h⟩
  | cons op ops ih =>
    obtain ⟨hop, hops⟩ := forall_mem_cons.1 hops
    obtain ⟨hs', hlimits⟩ := hs.perform hdepth hP hop hout.1
    obtain ⟨hs'', hlimits'⟩ := ih hs' hops hout.2
    exact ⟨hs'', fun h => hlimits' (hlimits h)⟩

theorem toOption_generate_eq {steps' : Nat} (hheaps : ∀ h ∈ heaps, h.IsRegular)
    (hs : (unnarrowed hdepth hP).Rests s) (hslimits : s.limits = [])
    (ht : (unnarrowed hdepth hP).Rests t) (htlimits : t.limits = [])
    (hsends : ((E.generate steps method heaps).outcome s).1 ≠ .error .outOfSteps)
    (htends : ((E.generate steps' method heaps).outcome t).1 ≠ .error .outOfSteps) :
    ((E.generate steps method heaps).outcome s).1.toOption =
      ((E.generate steps' method heaps).outcome t).1.toOption := by
  rcases hx : (E.generate steps method heaps).outcome s with ⟨e | sp, s'⟩ <;>
    rcases hy : (E.generate steps' method heaps).outcome t with ⟨e' | sp', t'⟩
  · rfl
  · have he := (generate_ensures_eq hdepth hP hheaps ht hs hslimits hy steps).of_error hx
    exact absurd (by rw [hx, he]) hsends
  · have he := (generate_ensures_eq hdepth hP hheaps hs ht htlimits hx steps').of_error hy
    exact absurd (by rw [hy, he]) htends
  · rw [(generate_ensures_eq hdepth hP hheaps hs ht htlimits hx steps').of_ok hy]

end Exact

/-- The session after the operations, once nothing is required any more. -/
def cleared (E : Engine) (ops : List Operation) : Session :=
  E.after E.session (ops ++ [.clear])

/-- The session after the same runs without any requirements. -/
def unrequired (E : Engine) (ops : List Operation) : Session :=
  E.after E.session (ops.filter Operation.isRun)

/-- Without bounds, if all runs start from regular heaps and requirements are outermost, then they
make no difference once they are taken back. A contract that is recorded in both cases is the same,
and a generation that ends in both cases has the same space, or none. -/
theorem generate_after_clear {source : String} (hsource : compile source = .ok E.program)
    (hdepth : E.abstraction.depth = 0) (hlimits : E.settings.limits = [])
    (hops : ∀ op ∈ ops, op.IsRegular) (hout : E.program.AreOutermost [] ops) :
    (∀ method pre posts posts', (E.cleared ops).contracts.Records method pre posts →
      (E.unrequired ops).contracts.Records method pre posts' → posts = posts') ∧
    ∀ method heaps, (∀ h ∈ heaps, h.IsRegular) → ∀ steps steps',
      ((E.generate steps method heaps).outcome (E.cleared ops)).1 ≠ .error .outOfSteps →
      ((E.generate steps' method heaps).outcome (E.unrequired ops)).1 ≠ .error .outOfSteps →
      ((E.generate steps method heaps).outcome (E.cleared ops)).1.toOption =
        ((E.generate steps' method heaps).outcome (E.unrequired ops)).1.toOption := by
  have hP := isUnreserved_of_compile hsource
  have hsession : RestsBut hdepth hP [] E.session := ⟨Judgement.rests_session, fun _ _ => rfl⟩
  obtain ⟨⟨names, hbut⟩, hslimits⟩ := hsession.after hdepth hP hops hout
  have hcleared : E.cleared ops = { E.after E.session ops with required := ∅ } := by
    rw [cleared, after, foldl_append]
    rfl
  have hs : (unnarrowed hdepth hP).Rests (E.cleared ops) := hcleared ▸ hbut.rests
  have hslimits : (E.cleared ops).limits = [] := hcleared ▸ hslimits hlimits
  have hleaves : (unnarrowed hdepth hP).Leaves E.session (E.unrequired ops) :=
    leaves_after_runs hdepth hP Judgement.rests_session fun op hop =>
      ⟨(mem_filter.1 hop).2, hops op (mem_filter.1 hop).1⟩
  refine ⟨fun method pre posts posts' hrec hrec' => ?_, fun method heaps hheaps steps steps' => ?_⟩
  · obtain ⟨-, hcomplete, hposts⟩ := hs.admits.contracts.records method pre posts hrec
    obtain ⟨-, hcomplete', hposts'⟩ := hleaves.rests.admits.contracts.records method pre posts' hrec'
    exact eq_of_isComplete hposts hcomplete hposts' hcomplete'
  · exact toOption_generate_eq hdepth hP hheaps hs hslimits hleaves.rests (hleaves.limits hlimits)

/-- A method that may return a new node, one that passes it on, and one that calls the latter. -/
def pickingSource : String :=
  "method pick() \x7b if * goto none; x = new; return x; none: return; \x7d " ++
  "method wrap() \x7b y = pick(); return y; \x7d method main() \x7b r = wrap(); \x7d"

/-- An engine for the methods that pass a new node on. -/
def pickingEngine : Engine where
  program := (compile pickingSource).toOption.getD {}

/-- Run a method from the empty heap while only the new node is required of `pick`. -/
def pickingRuns (method : String) : List Operation :=
  [.require "pick" [Heap.empty.grow.setVar Call.returnVar 1], .generate 10 method [Heap.empty]]

/-- The method `wrap` calls `pick` itself, so its run leaves nothing behind. -/
theorem generate_after_clear_picking :
    pickingEngine.program.AreOutermost [] (pickingRuns "wrap") ∧
    ((pickingEngine.generate 10 "main" [Heap.empty]).outcome
      (pickingEngine.cleared (pickingRuns "wrap"))).1.toOption =
    ((pickingEngine.generate 10 "main" [Heap.empty]).outcome
      (pickingEngine.unrequired (pickingRuns "wrap"))).1.toOption := by
  -- The source is read once for all that is evaluated.
  obtain ⟨hsource, hwrap, hpick, hcleared, hunrequired⟩ :
      compile pickingSource = .ok pickingEngine.program ∧
      pickingEngine.program.calls "wrap" = ["pick"] ∧ pickingEngine.program.calls "pick" = [] ∧
      ((pickingEngine.generate 10 "main" [Heap.empty]).outcome
        (pickingEngine.cleared (pickingRuns "wrap"))).1.toOption.isSome ∧
      ((pickingEngine.generate 10 "main" [Heap.empty]).outcome
        (pickingEngine.unrequired (pickingRuns "wrap"))).1.toOption.isSome := by decide +kernel
  have hops : ∀ op ∈ pickingRuns "wrap", op.IsRegular := by
    simp [pickingRuns, Operation.IsRegular, Operation.tasks, Heap.isRegular_empty]
  have hcalled {caller : String} (h : pickingEngine.program.IsCalled "wrap" caller) :
      caller = "pick" := by
    induction h with
    | single h => simpa [hwrap] using h
    | tail _ h ih => simp [ih, hpick] at h
  have hout : pickingEngine.program.AreOutermost [] (pickingRuns "wrap") := by
    refine ⟨forall_mem_nil _, forall_mem_singleton.2 fun caller h => ?_, trivial⟩
    rw [hcalled h, hpick]
    exact forall_mem_nil _
  have hends {s : Session} (hok : ((pickingEngine.generate 10 "main" [Heap.empty]).outcome
      s).1.toOption.isSome) : ((pickingEngine.generate 10 "main" [Heap.empty]).outcome s).1 ≠
        .error .outOfSteps := by
    intro herror
    rw [herror] at hok
    cases hok
  exact ⟨hout, (generate_after_clear hsource rfl rfl hops hout).2 "main" _
    (forall_mem_singleton.2 Heap.isRegular_empty) 10 10 (hends hcleared)
    (hends hunrequired)⟩

/-- The method `main` calls `wrap`, and its run leaves behind a contract with which `wrap` never
returns null. -/
theorem requirement_outlives_clear :
    ((pickingEngine.generate 10 "main" [Heap.empty]).outcome
      (pickingEngine.cleared (pickingRuns "main"))).1.toOption.map StateSpace.size = some 3 ∧
    ((pickingEngine.generate 10 "main" [Heap.empty]).outcome
      (pickingEngine.unrequired (pickingRuns "main"))).1.toOption.map StateSpace.size = some 5 := by
  decide +kernel

end Engine

end ShapeCheck
