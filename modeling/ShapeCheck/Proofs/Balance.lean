import ShapeCheck.Proofs.Nesting

/-!
# The stack of contracts under construction

A contract under construction stands on a stack while its rounds are run, and calls look on the stack
before they look at recorded contracts. A contract that stayed there after its construction has ended
would answer later calls with postconditions that nobody completes. This does not happen: however the
construction of a contract ends, it leaves the methods and preconditions on the stack that it found.
So at every call the stack has just the contracts within which the call is made, whatever became of
earlier runs.

This holds of any program from any heaps, since the judgement that asks nothing of contracts admits
every session.
-/

namespace ShapeCheck

open Code

/-- The methods and preconditions of contracts under construction, the innermost first. -/
def frames (stack : List Pending) : List (String × Heap) :=
  stack.map fun p => (p.method, p.pre)

theorem frames_cons (p : Pending) (stack : List Pending) :
    frames (p :: stack) = (p.method, p.pre) :: frames stack :=
  rfl

theorem frames_eq_of_marked {stack stack' : List Pending}
    (h : List.Forall₂ Pending.Marked stack stack') : frames stack' = frames stack := by
  induction h with
  | nil => rfl
  | cons hpq _ ih => rw [frames_cons, frames_cons, hpq.method, hpq.pre, ih]

theorem mem_frames_of_consult {method : String} {pre : Heap} {stack stack' : List Pending}
    {posts : HeapSet} (h : consult method pre stack = some (posts, stack')) :
    (method, pre) ∈ frames stack := by
  obtain ⟨hmarked, p, hp, rfl, rfl, -⟩ := consult_spec h
  rw [← frames_eq_of_marked hmarked]
  exact List.mem_map.2 ⟨p, Engine.Judgement.inUse_subset hp, rfl⟩

namespace Engine

/-- The judgement that asks nothing of contracts, under which every run may fail. -/
def unjudged (E : Engine) : Judgement E where
  Fit _ _ := True
  Key _ _ := True
  Known _ _ := True
  Free _ := False
  Covers _ _ _ _ := True
  Allows _ _ _ := True
  Fails _ _ _ := True
  known _ := trivial
  covers_zero := trivial
  covers_pred _ := trivial
  covers_mono _ _ := trivial
  view _ _ := ⟨trivial, fun _ _ _ => trivial, fun _ _ => trivial, fun _ _ => trivial⟩
  key _ _ := trivial
  fit _ _ _ _ _ := trivial
  covers_succ _ _ _ := trivial
  allows _ _ _ := trivial
  fails _ _ _ := trivial

variable {E : Engine} {s t u : Session} {method : String} {pre : Heap} {steps : Nat}

theorem isRight_unjudged (c : ContractStore) : E.unjudged.IsRight c where
  records _ _ _ _ := ⟨trivial, fun _ => trivial, fun _ _ => trivial⟩
  refines _ _ _ := ⟨trivial, fun _ _ => trivial⟩

theorem admits_unjudged (s : Session) : E.unjudged.Admits s where
  contracts := isRight_unjudged s.contracts
  turns c _ := isRight_unjudged c
  stack _ _ _ _ := trivial
  required _ h := h.elim

theorem rests_unjudged (hs : s.stack = []) : E.unjudged.Rests s :=
  ⟨admits_unjudged s, hs⟩

theorem suited_unjudged (task : String × List Heap) : E.unjudged.Suited task :=
  fun _ _ _ _ _ _ _ _ _ => trivial

theorem marked_conclude_of_none (hm : E.program.method? method = none) (s : Session) :
    List.Forall₂ Pending.Marked s.stack
      ((E.conclude (E.invoke steps) steps method pre).outcome s).2.stack := by
  have hsettle : (E.settle (E.invoke steps) steps method pre steps).Ensures (s.push method pre)
      (fun _ _ => False) fun _ u => u = s.push method pre := by
    cases steps with
    | zero => exact rfl
    | succ steps =>
      obtain ⟨e, -, heq⟩ : ∃ e, e ≠ .outOfSteps ∧ (E.generateWith (E.invoke (steps + 1)) (steps + 1)
          method [pre] .depthFirst).outcome (s.push method pre) = (.error e, s.push method pre) :=
        outcome_generateWith_of_empty (.inl hm)
      rw [settle, Run.ensures_bind]
      unfold Run.Ensures
      rw [heq]
  have hconclude : (E.conclude (E.invoke steps) steps method pre).Ensures s
      (fun _ u => List.Forall₂ Pending.Marked s.stack u.stack)
      fun _ u => List.Forall₂ Pending.Marked s.stack u.stack := by
    rw [conclude, Run.ensures_bind]
    refine (Judgement.within_ensures hsettle).imp ?_ ?_
    · rintro p? t ⟨u, hfalse, -⟩
      exact hfalse.elim
    · rintro e t ⟨u, rfl, rfl⟩
      exact forall₂_marked_refl s.stack
  exact hconclude.outcome_snd

/-- However the construction of a contract ends, the enclosing contracts are as before up to marks. -/
theorem marked_conclude (E : Engine) (steps : Nat) (method : String) (pre : Heap) (s : Session) :
    List.Forall₂ Pending.Marked s.stack
      ((E.conclude (E.invoke steps) steps method pre).outcome s).2.stack := by
  cases hm : E.program.method? method with
  | none => exact marked_conclude_of_none hm s
  | some m =>
    have hconclude : (E.conclude (E.invoke steps) steps method pre).Ensures s
        (fun _ t => E.unjudged.Follows s t) fun _ t => E.unjudged.Follows s t :=
      (Judgement.conclude_ensures (E.unjudged.isObeyed_invoke steps) hm trivial
        (admits_unjudged s)).imp (fun _ _ h => h.1) fun _ _ h => h.1
    exact hconclude.outcome_snd.stack

theorem frames_conclude (E : Engine) (steps : Nat) (method : String) (pre : Heap) (s : Session) :
    frames ((E.conclude (E.invoke steps) steps method pre).outcome s).2.stack = frames s.stack :=
  frames_eq_of_marked (E.marked_conclude steps method pre s)

/-- A call leaves the contracts on the stack that it finds; so the calls of a generation are made with
the stack with which the generation began. Otherwise failing there with the session as it is would
keep to the protocol. -/
theorem Judgement.Oversees.follows {J : Judgement E} {G : Generation} (hG : J.Oversees G)
    {site : CallSite} {h : Heap} (hcalls : G.Calls E site h t) : J.Follows G.session t := by
  have hobeyed : J.protocol.IsObeyed ((E.invoke G.steps).failing site h t .outOfSteps t) := by
    intro s site' h' hs hfit
    by_cases heq : site' = site ∧ h' = h ∧ s = t
    · obtain ⟨rfl, rfl, rfl⟩ := heq
      unfold Run.Ensures
      rw [Run.outcome_failing_self]
      exact ⟨hs, .inl (.inl rfl)⟩
    · have hinvoke := J.isObeyed_invoke G.steps s site' h' hs hfit
      unfold Run.Ensures at hinvoke ⊢
      rwa [Run.outcome_failing_of_ne heq]
  exact (hG.ensures hobeyed).of_error (hcalls _ _)

namespace Encloses

variable {ops : List Operation} {contracts : List (String × Heap)} {G : Generation}

variable (hG : E.Encloses s ops contracts G)
include hG

theorem oversees (hs : s.stack = []) : E.unjudged.Oversees G :=
  Judgement.oversees_of_generates (rests_unjudged hs) (fun _ _ task _ => suited_unjudged task)
    (fun _ _ _ h => h) ⟨contracts, hG⟩

theorem frames_eq_of_calls (hs : s.stack = []) {site : CallSite} {h : Heap}
    (hcalls : G.Calls E site h t) :
    frames t.stack = frames G.session.stack :=
  frames_eq_of_marked ((hG.oversees hs).follows hcalls).stack

theorem frames_eq (hs : s.stack = []) : frames G.session.stack = contracts := by
  induction hG with
  | @top done rest op G hops hstarts =>
    have hrests : E.unjudged.Rests (E.after s done) :=
      (Judgement.leaves_after (rests_unjudged hs) (fun _ _ task _ => suited_unjudged task)
        fun _ _ _ h => h).rests
    cases hstarts with
    | generate => exact congrArg frames hrests.stack
    | search => exact congrArg frames hrests.stack
    | verify _ => exact congrArg frames hrests.stack
    | task => rfl
    | @check steps labels method heaps properties done rest p t results _ _ hdone =>
      have hpasses := Run.Keeps.mapM (Judgement.keeps_checkOnTheFly
        (suited_unjudged (method, heaps)) steps labels) done _ (Judgement.Passes.refl hrests).restart
      rw [hdone] at hpasses
      exact congrArg frames hpasses.rests.stack
  | nested hG _ hcalls _ hm hpre hmiss hu ih =>
    subst hpre
    have hfollows := ((hG.oversees hs).key hcalls hm hmiss).2
    obtain ⟨p, rest, hworks⟩ := hu.exists_works (J := E.unjudged) hm trivial (admits_unjudged _)
    dsimp only
    rw [hworks.stack, frames_cons, hworks.method, hworks.pre, frames_eq_of_marked hworks.marked,
      frames_eq_of_marked hfollows.stack, hG.frames_eq_of_calls hs hcalls, ih]

end Encloses

/-- The discipline of the stack. Runs that begin with an empty stack leave it empty, and the
construction of a contract leaves the methods and preconditions that it found, both however they end.
In any sequence of operations, whatever became of the earlier ones, a call consults only contracts
within which it is made. -/
theorem stack_discipline (E : Engine) (hs : s.stack = []) :
    (∀ steps method heaps, ((E.generate steps method heaps).outcome s).2.stack = []) ∧
    (∀ steps labels method heaps properties,
      ((E.verify steps labels method heaps properties).outcome s).2.stack = []) ∧
    (∀ steps method pre t,
      frames ((E.conclude (E.invoke steps) steps method pre).outcome t).2.stack = frames t.stack) ∧
    ∀ ops contracts G, E.Encloses s ops contracts G →
      frames G.session.stack = contracts ∧
      ∀ site h t, G.Calls E site h t → frames t.stack = contracts ∧
        ∀ method pre, (consult method pre t.stack).isSome → (method, pre) ∈ contracts := by
  have hrests : E.unjudged.Rests s := rests_unjudged hs
  refine ⟨fun steps method heaps => ?_, fun steps labels method heaps properties => ?_,
    E.frames_conclude, fun ops contracts G hG => ⟨hG.frames_eq hs, fun site h t hcalls => ?_⟩⟩
  · exact (Judgement.keeps_generate (suited_unjudged (method, heaps)) steps s (.refl hrests)).rests.stack
  · exact (Judgement.keeps_verify (suited_unjudged (method, heaps)) steps labels properties s
      (.refl hrests)).rests.stack
  · have hframes := (hG.frames_eq_of_calls hs hcalls).trans (hG.frames_eq hs)
    refine ⟨hframes, fun method pre hsome => hframes ▸ ?_⟩
    obtain ⟨r, hconsult⟩ := Option.isSome_iff_exists.1 hsome
    exact mem_frames_of_consult hconsult

/-- The fourth state is the initial state of a recursive call, so this run is aborted while a contract
is under construction. -/
theorem stack_discipline_aborted :
    Status.of ((buildingEngine.generate 20 "build" [Heap.empty]).outcome
      { limits := [.states 4] }).1 = .aborted ∧
    ((buildingEngine.generate 20 "build" [Heap.empty]).outcome { limits := [.states 4] }).2.stack =
      [] :=
  ⟨by decide +kernel, (buildingEngine.stack_discipline rfl).1 20 "build" [Heap.empty]⟩

end Engine

end ShapeCheck
