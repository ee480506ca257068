import ShapeCheck.Proofs.Agreement
import ShapeCheck.Proofs.History

/-!
# Generations within generations

An operation of an engine makes one or more generations. While a generation runs it makes calls, and
a call without a contract makes generations of its own, the rounds of the contract, which make calls
in turn.

All these generations are made in sessions whose contracts are right, and from heaps from which only
calls are made that may be made.
-/

namespace ShapeCheck

open Code List

/-- What a generation is asked for. The number of steps bounds the generation and the nesting of its
calls. -/
structure Generation where
  /-- The steps that are granted. -/
  steps : Nat
  /-- The session in which it starts. -/
  session : Session
  method : String
  /-- The heaps that the method starts from. -/
  heaps : List Heap
  /-- How it goes through the states. -/
  search : Search

namespace Generation

/-- The generation, with calls answered by a handler. -/
def runWith (E : Engine) (G : Generation) (call : CallHandler) : Run (E.Space × Option Verdict) :=
  E.generateWith call G.steps G.method G.heaps G.search

/-- The generation, with calls answered by the engine. -/
def run (E : Engine) (G : Generation) : Run (E.Space × Option Verdict) :=
  G.runWith E (E.invoke G.steps)

/-- In the course of the generation a call is made in the session `t`. -/
def Calls (E : Engine) (G : Generation) (site : CallSite) (h : Heap) (t : Session) : Prop :=
  Run.MakesCall (G.runWith E) (E.invoke G.steps) G.session site h t

theorem calls_of_ne {E : Engine} {G : Generation} {site : CallSite} {h : Heap} {t u : Session}
    {e : GenerationError}
    (hne : (G.runWith E ((E.invoke G.steps).failing site h t e u)).outcome G.session ≠
      (G.run E).outcome G.session) : G.Calls E site h t := by
  by_contra hnot
  exact hne ((E.matches_generateWith G.steps G.steps G.method G.heaps
    G.search).dependsOnCalls.outcome_failing_eq hnot e u)

end Generation

namespace Engine

/-- The sessions in which the rounds of a contract start, if it is begun in the session `t`. -/
inductive Rounds (E : Engine) (steps : Nat) (method : String) (pre : Heap) (t : Session) :
    Session → Prop
  | first : Rounds E steps method pre t (t.push method pre)
  | again {u v w : Session} {sp : E.Space} {verdict? : Option Verdict} :
    Rounds E steps method pre t u →
    (E.generateWith (E.invoke steps) steps method [pre] .depthFirst).outcome u =
      (.ok (sp, verdict?), v) →
    (join (E.harvest sp)).outcome v = (.ok true, w) → Rounds E steps method pre t w

/-- The generations that an operation makes, apart from those of its calls. -/
inductive Starts (E : Engine) (s : Session) : Operation → Generation → Prop
  | generate {steps : Nat} {method : String} {heaps : List Heap} :
    Starts E s (.generate steps method heaps)
      ⟨steps, s.restart, method, heaps, .depthFirst⟩
  | search {steps : Nat} {method : String} {heaps : List Heap} :
    Starts E s (.search steps method heaps) ⟨steps, s, method, heaps, .depthFirst⟩
  /-- Without a property to check on the fly there is one generation. -/
  | verify {steps : Nat} {labels : Labelling} {method : String} {heaps : List Heap}
    {properties : List Property} : (E.settings.onTheFly → E.wanted properties = []) →
    Starts E s (.verify steps labels method heaps properties)
      ⟨steps, s.restart, method, heaps, .depthFirst⟩
  /-- On the fly there is a generation for each property, up to the first that fails. -/
  | check {steps : Nat} {labels : Labelling} {method : String} {heaps : List Heap}
    {properties done rest : List Property} {p : Property} {t : Session}
    {results : List (E.Space × PropertyResult)} : E.settings.onTheFly →
    E.wanted properties = done ++ p :: rest →
    (done.mapM (E.checkOnTheFly steps labels method heaps)).outcome s.restart =
      (.ok results, t) →
    Starts E s (.verify steps labels method heaps properties)
      ⟨steps, t, method, heaps, .onTheFly p.formula labels⟩
  /-- A task that gets a turn has a session of its own, in which it sees the shared contracts. -/
  | task {steps : Nat} {tasks : List (String × List Heap)} {schedule done rest : List Turn}
    {turn : Turn} {w : Worker E} : turnsOf schedule tasks.length = done ++ turn :: rest →
    (E.work steps s.contracts tasks done).2[turn.task]? = some w → w.waits →
    Starts E s (.generateAll steps schedule tasks)
      ⟨steps, (w.see (E.work steps s.contracts tasks done).1 turn.last).start s.contracts, w.method,
        w.heaps, .depthFirst⟩

theorem Starts.mem_tasks {E : Engine} {s : Session} {op : Operation} {G : Generation}
    (hG : E.Starts s op G) : (G.method, G.heaps) ∈ op.tasks := by
  cases hG with
  | task _ hw _ => exact mem_tasks_of_mem_work (mem_of_getElem? hw)
  | _ => exact mem_singleton_self _

/-- The generations that a sequence of operations makes, those of calls included, with the contracts
within which they are made. -/
inductive Encloses (E : Engine) (s : Session) (ops : List Operation) :
    List (String × Heap) → Generation → Prop
  | top {done rest : List Operation} {op : Operation} {G : Generation} :
    ops = done ++ op :: rest → E.Starts (E.after s done) op G → Encloses E s ops [] G
  /-- A call for which there is no contract, neither for its precondition nor for the heap from which
  the contract is to be found. -/
  | nested {contracts : List (String × Heap)} {G : Generation} {site : CallSite} {h pre : Heap}
    {t t' u : Session} {m : Method} {n : Nat} :
    Encloses E s ops contracts G → G.steps = n + 1 → G.Calls E site h t →
    site.method ∉ E.settings.skipped → E.program.method? site.method = some m →
    E.calleeStart m site h = pre → (E.remembered site.method pre).outcome t = (.ok none, t') →
    E.Rounds n site.method (E.contractStart pre) t' u →
    Encloses E s ops ((site.method, E.contractStart pre) :: contracts)
      ⟨n, u, site.method, [E.contractStart pre], .depthFirst⟩

/-- The generations that a sequence of operations makes, those of calls included. -/
def Generates (E : Engine) (s : Session) (ops : List Operation) (G : Generation) : Prop :=
  ∃ contracts, E.Encloses s ops contracts G

variable {E : Engine} {J : Judgement E} {G : Generation} {s t u : Session} {site : CallSite}
  {h pre : Heap} {method : String} {m : Method} {steps : Nat} {op : Operation}
  {ops : List Operation}

theorem Rounds.exists_works (hu : E.Rounds steps method pre t u)
    (hm : E.program.method? method = some m) (hkey : J.Key method pre) (ht : J.Admits t) :
    ∃ p rest, J.Works method pre t u p rest := by
  induction hu with
  | first => exact ⟨_, _, .push ht method pre⟩
  | again _ hround hjoin ih =>
    obtain ⟨p, rest, hworks⟩ := ih
    obtain ⟨p', rest', hworks', -, hallows, -⟩ :=
      (Judgement.round_ensures (J.isObeyed_invoke steps) hm hkey hworks).of_ok hround
    obtain ⟨p'', hworks'', -⟩ :=
      (Judgement.join_ensures (F := fun _ _ => True) hworks' hallows).of_ok hjoin
    exact ⟨p'', rest', hworks''⟩

namespace Judgement

/-- The generation starts in a session with right contracts, and makes only calls that may be made. -/
structure Oversees (J : Judgement E) (G : Generation) : Prop where
  admits : J.Admits G.session
  suited : J.Suited (G.method, G.heaps)
  below : G.search.IsBelow 0

namespace Oversees

/-- However calls are answered, as long as the answers are right, only such states are found as are
reached with right answers, and the contracts stay right. -/
theorem ensures (hG : J.Oversees G) {call : CallHandler} (hcall : J.protocol.IsObeyed call) :
    (G.runWith E call).Ensures G.session
      (fun r t => J.Follows G.session t ∧ ∃ m, E.program.method? G.method = some m ∧
        ∀ state, r.1.Holds state → Reached E m
          (E.CallAnswer fun method pre posts => ∀ q ∈ posts, J.Allows method pre q) G.heaps state)
      fun _ t => J.Follows G.session t := by
  by_cases hempty : E.program.method? G.method = none ∨ G.heaps = []
  · obtain ⟨e, -, heq⟩ := @outcome_generateWith_of_empty E call G.heaps G.session G.steps G.search
      G.method hempty
    unfold Run.Ensures Generation.runWith
    rw [heq]
    exact hG.admits.follows
  · push Not at hempty
    obtain ⟨m, hm⟩ := Option.ne_none_iff_exists'.1 hempty.1
    refine (generateWith_ensures False hm hempty.2 ((hG.suited m hm).isReady hcall)
      hG.admits.follows False.elim hG.below).imp ?_ fun e t ht => ht.1
    rintro r t ⟨⟨ht, hstage⟩, -⟩
    refine ⟨ht, m, hm, ?_⟩
    rintro state ⟨id, hid⟩
    exact (hstage.reached id state hid).mono answers_allows

/-- A call is made in a session with right contracts, and it may be made. If it were not so, then
failing there would keep to the protocol, whatever session it left. -/
theorem calls (hG : J.Oversees G) (hcalls : G.Calls E site h t) : J.Fit site h ∧ J.Admits t := by
  by_contra hnot
  have hobeyed (e : GenerationError) (u : Session) :
      J.protocol.IsObeyed ((E.invoke G.steps).failing site h t e u) := by
    intro s site' h' hs hfit
    have hne : ¬(site' = site ∧ h' = h ∧ s = t) := by
      rintro ⟨rfl, rfl, rfl⟩
      exact hnot ⟨hfit, hs.after⟩
    have hinvoke := J.isObeyed_invoke G.steps s site' h' hs hfit
    unfold Run.Ensures at hinvoke ⊢
    rwa [Run.outcome_failing_of_ne hne]
  have hfollows := (hG.ensures (hobeyed .outOfSteps (G.session.push "" Heap.empty))).of_error
    (hcalls _ _)
  exact absurd hfollows.stack.length_eq (Nat.ne_of_lt (Nat.lt_succ_self _))

/-- A contract that a call needs is begun in a session with right contracts, and its precondition may
be analysed. -/
theorem key {t' : Session} (hG : J.Oversees G) (hcalls : G.Calls E site h t)
    (hm : E.program.method? site.method = some m)
    (hmiss : (E.remembered site.method (E.calleeStart m site h)).outcome t = (.ok none, t')) :
    J.Key site.method (E.contractStart (E.calleeStart m site h)) ∧ J.Follows t t' := by
  obtain ⟨hfit, ht⟩ := hG.calls hcalls
  have hkey := J.key hfit hm
  exact ⟨(J.view hkey (contractStart_mem_views E _)).1, ((remembered_ensures ht hkey).of_ok hmiss).1⟩

theorem nested {n : Nat} {t' : Session} (hG : J.Oversees G) (hcalls : G.Calls E site h t)
    (hm : E.program.method? site.method = some m)
    (hmiss : (E.remembered site.method (E.calleeStart m site h)).outcome t = (.ok none, t'))
    (hu : E.Rounds n site.method (E.contractStart (E.calleeStart m site h)) t' u) :
    J.Oversees ⟨n, u, site.method, [E.contractStart (E.calleeStart m site h)], .depthFirst⟩ := by
  obtain ⟨hkey, ht⟩ := hG.key hcalls hm hmiss
  obtain ⟨p, rest, hworks⟩ := hu.exists_works hm hkey ht.after
  refine ⟨hworks.admits, fun m' hm' => ?_, Search.isBelow_depthFirst⟩
  obtain rfl := Option.some.inj (hm.symm.trans hm')
  exact suits_of_key hkey hm

end Oversees

theorem oversees_of_starts (hs : J.Rests s) (hsuited : ∀ task ∈ op.tasks, J.Suited task)
    (hG : E.Starts s op G) : J.Oversees G := by
  have htask := hsuited _ hG.mem_tasks
  cases hG with
  | generate => exact ⟨hs.restart.admits, htask, Search.isBelow_depthFirst⟩
  | search => exact ⟨hs.admits, htask, Search.isBelow_depthFirst⟩
  | verify _ => exact ⟨hs.restart.admits, htask, Search.isBelow_depthFirst⟩
  | @check steps labels method heaps properties done rest p t results _ _ hdone =>
    have hpasses := Run.Keeps.mapM (keeps_checkOnTheFly htask steps labels) done _
      (Passes.refl hs).restart
    rw [hdone] at hpasses
    exact ⟨hpasses.rests.admits, htask, Search.isBelow_onTheFly p.formula labels⟩
  | @task steps _ _ done _ _ _ _ hw _ =>
    have hshares : J.Shares steps (E.work steps s.contracts _ done) :=
      shares_work hs.admits.contracts hsuited done
    exact ⟨(rests_start hs.admits.contracts (hshares.see (mem_of_getElem? hw) _)).admits, htask,
      Search.isBelow_depthFirst⟩

section

variable (hs : J.Rests s) (hsuited : ∀ op ∈ ops, ∀ task ∈ op.tasks, J.Suited task)
  (hrequire : ∀ method heaps, .require method heaps ∈ ops → ¬J.Free method)
  (hG : E.Generates s ops G)
include hs hsuited hrequire hG

theorem oversees_of_generates : J.Oversees G := by
  obtain ⟨contracts, hG⟩ := hG
  induction hG with
  | top hops hstarts =>
    subst hops
    obtain ⟨hdone, hrest⟩ := forall_mem_append.1 hsuited
    have hleaves := leaves_after hs hdone fun method heaps hmem =>
      hrequire method heaps (mem_append_left _ hmem)
    exact oversees_of_starts hleaves.rests (hrest _ mem_cons_self) hstarts
  | nested _ _ hcalls _ hm hpre hmiss hu ih =>
    subst hpre
    exact ih.nested hcalls hm hmiss hu

/-- A generation starts from the heaps of an operation, or from a precondition that may be
analysed. -/
theorem task_or_key_of_generates : (∃ op ∈ ops, (G.method, G.heaps) ∈ op.tasks) ∨
      ∃ pre, J.Key G.method pre ∧ G.heaps = [pre] := by
  obtain ⟨contracts, hG⟩ := hG
  cases hG with
  | top hops hstarts =>
    exact .inl ⟨_, hops ▸ mem_append_right _ mem_cons_self, hstarts.mem_tasks⟩
  | nested hG _ hcalls _ hm hpre hmiss _ =>
    subst hpre
    have hoversees := oversees_of_generates hs hsuited hrequire ⟨_, hG⟩
    exact .inr ⟨_, (hoversees.key hcalls hm hmiss).1, rfl⟩

end

end Judgement

end Engine

end ShapeCheck
