import ShapeCheck.Proofs.Cleanness
import ShapeCheck.Proofs.InitialHeaps
import ShapeCheck.Proofs.Nesting

/-!
# All heaps of an analysis are well-formed

A well-formed heap is clean and normalized. From the initial heaps of a program, an engine goes
through well-formed heaps only: statements are run where their selectors are exposed, calls are
answered by well-formed postconditions, and whatever is stored is brought into canonical shape. This
holds in the generations that are asked for and in those that calls make.
-/

namespace ShapeCheck

open Code List

variable {E : Engine} {m : Method} {heaps : List Heap} {t : State} {method : String} {g h pre q : Heap}

/-- What holds of every heap that an analysis stores. -/
structure Abstraction.IsWellFormed (A : Abstraction) (h : Heap) : Prop where
  normalized : h.normalize = h
  inRange : h.InRange
  null_selector : ∀ sel, h.selector? Node.null sel = none
  null_source : ∀ e ∈ h.summaries, e.source? ≠ some Node.null
  links : ∀ e ∈ h.summaries, ∃ chain ∈ A.chains, ∃ v w, e = ⟨chain.label, [v, w]⟩
  det : A.IsDeterministic h

/-- All preconditions and postconditions of recorded contracts have the property. -/
structure ContractStore.Forall (P : Heap → Prop) (c : ContractStore) : Prop where
  general : ∀ method pre posts, c.Records method pre posts → P pre ∧ ∀ q ∈ posts, P q
  refined : ∀ method r, c.Refines method r → P r.pre ∧ ∀ q ∈ r.posts, P q

theorem Abstraction.IsClean.isWellFormed {A : Abstraction} (hh : A.IsClean h)
    (hnormal : h.normalize = h) : A.IsWellFormed h where
  normalized := hnormal
  inRange := hh.inRange
  null_selector := hh.selector?_null
  null_source _ he := hh.source_ne_null he
  links e he := isLink_iff.1 (hh.links e he)
  det := hh.det

namespace Engine

/-- Clean and normalized, as canonical shapes of clean heaps are. -/
structure IsTerse (E : Engine) (h : Heap) : Prop where
  clean : E.abstraction.IsClean h
  normalized : h.normalize = h

namespace IsTerse

theorem isWellFormed (hh : E.IsTerse h) : E.abstraction.IsWellFormed h :=
  hh.clean.isWellFormed hh.normalized

theorem shapeAt (hh : E.abstraction.IsClean h) (hA : E.abstraction.IsDistinct) (depth : Nat) :
    E.IsTerse (E.abstraction.shapeAt depth h) :=
  ⟨hh.shapeAt hA depth, hh.isRegular.normalize_shapeAt _ depth⟩

theorem settled (hh : E.abstraction.IsClean h) (hA : E.abstraction.IsDistinct) (loc : Location) :
    E.IsTerse (E.settled loc h).heap := by
  rw [Engine.settled]
  split
  · exact shapeAt hh.collect hA _
  · exact shapeAt hh hA _

theorem view (hh : E.IsTerse h) (hA : E.abstraction.IsDistinct) (hg : g ∈ E.abstraction.views h) :
    E.IsTerse g := by
  simp only [Abstraction.views, hh.normalized, mem_cons, not_mem_nil, or_false] at hg
  rcases hg with rfl | rfl | rfl | rfl
  · exact hh
  · exact hh
  · exact shapeAt hh.clean hA _
  · exact shapeAt hh.clean hA 0

end IsTerse

/-- The state has a clean and normalized heap. If the heap has been unfolded, then the selector that
the statement goes through is exposed. -/
structure IsSound (E : Engine) (m : Method) (t : State) : Prop where
  terse : E.IsTerse t.heap
  exposed : ∀ i stmt, t.unfolded → t.location = .line i → m.statement? i = some stmt →
    ∀ p ∈ stmt.accessPoint?, E.abstraction.IsExposed t.heap p

theorem CallAnswer.isClean {stmt : Statement} {site : CallSite} {results : List Heap}
    (hanswer : E.CallAnswer (fun _ _ posts => ∀ q ∈ posts, E.IsTerse q) site g results)
    (hg : E.abstraction.IsClean g) (hstmt : stmt.IsUnreserved) (hstep : stmt.step g = .call site) :
    ∀ h ∈ results, E.abstraction.IsClean h := by
  intro h hh
  obtain ⟨-, rfl⟩ | ⟨-, m, posts, -, hposts, rfl⟩ := hanswer
  · rw [skipCall] at hh
    split at hh
    · next x hx =>
      obtain rfl := mem_singleton.1 hh
      exact hg.setVar hg.inRange.pos (.inl (Statement.isReserved_result hstmt hstep hx))
    · exact mem_singleton.1 hh ▸ hg
  · obtain ⟨q, hq, rfl⟩ := mem_map.1 hh
    exact hg.resume (hposts q hq).clean m.params site.args fun x hx =>
      Statement.isReserved_result hstmt hstep hx

/-- If calls are answered by clean and normalized postconditions, then only sound states are
reached. -/
theorem Reached.isSound (hA : E.abstraction.IsDistinct) (hm : m.IsUnreserved)
    (hheaps : ∀ h ∈ heaps, E.abstraction.IsClean h)
    (ht : Reached E m (E.CallAnswer fun _ _ posts => ∀ q ∈ posts, E.IsTerse q) heaps t) :
    E.IsSound m t := by
  induction ht with
  | start hh => exact ⟨.shapeAt (hheaps _ hh) hA _, nofun⟩
  | @source h g i stmt gs _ hstmt hgs hg ih =>
    obtain ⟨hclean, hnormal, hexposed⟩ := ih.terse.clean.of_sources ih.terse.normalized hA hgs hg
    refine ⟨⟨hclean, hnormal⟩, fun j stmt' _ hj hstmt' => ?_⟩
    cases hj
    obtain rfl := Option.some.inj (hstmt.symm.trans hstmt')
    exact hexposed
  | @step g i stmt next p _ hstmt hnext hp ih =>
    have hunreserved := hm.statement hstmt
    have hclean : E.abstraction.IsClean p.2 := by
      unfold Statement.Yields at hnext
      split at hnext
      · next moves hmoves =>
        exact ih.terse.clean.step hunreserved (ih.exposed i stmt rfl rfl hstmt) hmoves (hnext ▸ hp)
      · next site hcall =>
        obtain ⟨results, hanswer, rfl⟩ := hnext
        obtain ⟨h, hh, rfl⟩ := mem_map.1 hp
        exact hanswer.isClean ih.terse.clean hunreserved hcall h hh
      · exact hnext.elim
    -- what a statement leaves has not been unfolded
    exact ⟨.settled hclean hA p.1, fun _ _ hunfolded => nomatch hunfolded⟩

variable (hA : E.abstraction.IsDistinct) (hP : E.program.IsUnreserved)

/-- A call from a clean heap, with nodes of the heap as arguments. -/
structure IsCleanCall (E : Engine) (site : CallSite) (g : Heap) : Prop where
  clean : E.abstraction.IsClean g
  args : ∀ v ∈ site.args, v < g.size

include hA hP in
theorem isCleanCall_of_reached {i : Nat} {stmt : Statement} {site : CallSite}
    (hm : E.program.method? method = some m) (hheaps : ∀ h ∈ heaps, E.abstraction.IsClean h)
    (hreached : Reached E m (E.CallAnswer fun _ _ posts => ∀ q ∈ posts, E.IsTerse q) heaps
      ⟨g, .line i, true⟩) (hstep : stmt.step g = .call site) : E.IsCleanCall site g :=
  have hclean := (hreached.isSound hA (hP _ _ hm) hheaps).terse.clean
  ⟨hclean, fun _ hv => (Statement.isValue_of_mem_args hstep hv).lt_size hclean.inRange⟩

/-- Preconditions and postconditions are judged by whether they are clean and normalized. Answers may
be narrowed. -/
def cleaning : Judgement E where
  Fit := E.IsCleanCall
  Key _ := E.IsTerse
  Known _ := E.IsTerse
  Free _ := False
  Covers _ _ _ _ := True
  Allows _ _ := E.IsTerse
  Fails _ _ _ := True
  known h := h
  covers_zero := trivial
  covers_pred h := h
  covers_mono h _ := h
  view hkey hview := ⟨hkey.view hA hview, fun _ _ h => h, fun _ h => h, fun _ h => h⟩
  key hfit hm := .shapeAt (hfit.clean.enter (hP _ _ hm).params hfit.args) hA _
  fit hkey hm hreached _ hstep :=
    isCleanCall_of_reached hA hP hm (forall_mem_singleton.2 hkey.clean) hreached hstep
  covers_succ _ _ _ := trivial
  allows hkey hm hreached :=
    have hsound := hreached.isSound hA (hP _ _ hm) (forall_mem_singleton.2 hkey.clean)
    .shapeAt (hsound.terse.clean.keepVars Call.isReserved).collect hA _
  fails _ _ _ := trivial

theorem suited_cleaning {task : String × List Heap}
    (hheaps : ∀ h ∈ task.2, E.abstraction.IsClean h) : (cleaning hA hP).Suited task :=
  fun _ hm _ _ _ _ hreached _ hstep => isCleanCall_of_reached hA hP hm hheaps hreached hstep

variable {hA hP} in
theorem forall_of_admits {s : Session} (hs : (cleaning hA hP).Admits s) :
    s.contracts.Forall E.abstraction.IsWellFormed where
  general method pre posts hrec :=
    have ⟨hpre, _, hposts⟩ := hs.contracts.records method pre posts hrec
    ⟨hpre.isWellFormed, fun q hq => (hposts q hq).isWellFormed⟩
  refined method r hr :=
    have ⟨hpre, hposts⟩ := hs.contracts.refines method r hr
    ⟨hpre.isWellFormed, fun q hq => (hposts q hq).isWellFormed⟩

/-- Whatever is asked of an engine, from initial heaps of its program: every generation, be it asked
for or made by a call, finds states with well-formed heaps only, and all pre- and postconditions that
are recorded at any time are well-formed. -/
theorem isWellFormed_of_generates {source : String} {ops : List Operation} (limits : Limits)
    (hsource : compile source = .ok E.program) (hA : E.abstraction.IsDistinct)
    (hops : ∀ op ∈ ops, ∀ task ∈ op.tasks, ∀ h ∈ task.2, h ∈ E.program.initialHeaps task.1) :
    (E.after { E.session with limits } ops).contracts.Forall E.abstraction.IsWellFormed ∧
    ∀ G, E.Generates { E.session with limits } ops G → (G.run E).Ensures G.session
      (fun r t => (∀ state, r.1.Holds state → E.abstraction.IsWellFormed state.heap) ∧
        t.contracts.Forall E.abstraction.IsWellFormed)
      fun _ t => t.contracts.Forall E.abstraction.IsWellFormed := by
  have hP := isUnreserved_of_compile hsource
  have hclean {op} (hop : op ∈ ops) {task} (htask : task ∈ op.tasks) :
      ∀ h ∈ task.2, E.abstraction.IsClean h := by
    intro h hh
    have hinitial := isInitial_of_mem_initialHeaps hsource task.1 h (hops op hop task htask h hh)
    exact .ofPlain _ hinitial.toIsPlain hinitial.unreserved
  have hsuited : ∀ op ∈ ops, ∀ task ∈ op.tasks, (cleaning hA hP).Suited task :=
    fun op hop task htask => suited_cleaning hA hP (hclean hop htask)
  have hrests : (cleaning hA hP).Rests { E.session with limits } :=
    Judgement.rests_session.withLimits limits
  refine ⟨?_, fun G hG => ?_⟩
  · exact forall_of_admits (Judgement.leaves_after hrests hsuited fun _ _ _ => id).rests.admits
  · have hoversees := Judgement.oversees_of_generates hrests hsuited (fun _ _ _ => id) hG
    have hheaps : ∀ h ∈ G.heaps, E.abstraction.IsClean h := by
      obtain ⟨op, hop, htask⟩ | ⟨pre, hkey, heq⟩ :=
        Judgement.task_or_key_of_generates hrests hsuited (fun _ _ _ => id) hG
      · exact hclean hop htask
      · exact heq ▸ forall_mem_singleton.2 hkey.clean
    refine (hoversees.ensures ((cleaning hA hP).isObeyed_invoke G.steps)).imp ?_ fun _ t ht =>
      forall_of_admits ht.after
    rintro r t ⟨ht, m, hm, hreached⟩
    refine ⟨fun state hstate => ?_, forall_of_admits ht.after⟩
    exact ((hreached state hstate).isSound hA (hP _ _ hm) hheaps).terse.isWellFormed

/-- The session in which the list builder first calls itself. Three states have been found by then,
and one of them has been expanded. -/
def buildingSession : Session :=
  { effort := 3
    notes := [⟨.expanding, 3⟩, ⟨.taken, 3⟩, ⟨.inserted true, 2⟩, ⟨.inserted true, 1⟩, ⟨.expanding, 1⟩,
      ⟨.taken, 1⟩, ⟨.inserted true, 0⟩]
    progress := { states := 3, checked := 1 } }

/-- The generation that this call makes. -/
def buildingNested : Generation :=
  ⟨19, buildingSession.push "build" Heap.empty, "build", [Heap.empty], .depthFirst⟩

theorem generates_buildingNested : buildingEngine.Generates buildingEngine.session
    [.generate 20 "build" [Heap.empty]] buildingNested := by
  have htop : buildingEngine.Encloses buildingEngine.session [.generate 20 "build" [Heap.empty]] []
      ⟨20, buildingEngine.session, "build", [Heap.empty], .depthFirst⟩ :=
    @Encloses.top _ _ _ [] [] _ _ rfl .generate
  have hcalls : Generation.Calls buildingEngine
      ⟨20, buildingEngine.session, "build", [Heap.empty], .depthFirst⟩ ⟨"build", [], some "x"⟩
      Heap.empty buildingSession := by
    refine Generation.calls_of_ne (e := .outOfSteps) (u := buildingSession.push "" Heap.empty) ?_
    refine ne_of_apply_ne (fun r => r.2.stack.length) ?_
    decide +kernel
  have hmiss : (buildingEngine.remembered "build" Heap.empty).outcome buildingSession =
      (.ok none, buildingSession) := by decide +kernel
  obtain ⟨m, hm, hpre⟩ : ∃ m, buildingEngine.program.method? "build" = some m ∧
      buildingEngine.calleeStart m ⟨"build", [], some "x"⟩ Heap.empty = Heap.empty := by
    have hsome : (buildingEngine.program.method? "build").any
        (buildingEngine.calleeStart · ⟨"build", [], some "x"⟩ Heap.empty = Heap.empty) := by
      decide +kernel
    simpa [Option.any_eq_true] using hsome
  have hstart : buildingEngine.contractStart Heap.empty = Heap.empty := rfl
  have hnested := Encloses.nested htop rfl hcalls not_mem_nil hm hpre hmiss .first
  rw [hstart] at hnested
  exact ⟨_, hnested⟩

theorem isWellFormed_of_generates_buildingNested :
    ((buildingNested.run buildingEngine).outcome buildingNested.session).1.toOption.isSome ∧
    (buildingNested.run buildingEngine).Ensures buildingNested.session
      (fun r t => (∀ state, r.1.Holds state →
          buildingEngine.abstraction.IsWellFormed state.heap) ∧
        t.contracts.Forall buildingEngine.abstraction.IsWellFormed)
      (fun _ t => t.contracts.Forall buildingEngine.abstraction.IsWellFormed) := by
  refine ⟨by decide +kernel, ?_⟩
  have hops : ∀ op ∈ [Operation.generate 20 "build" [Heap.empty]], ∀ task ∈ op.tasks,
      ∀ h ∈ task.2, h ∈ buildingEngine.program.initialHeaps task.1 := by
    decide +kernel
  exact (isWellFormed_of_generates [] compile_buildingSource (by decide) hops).2 _
    generates_buildingNested

end Engine

end ShapeCheck
