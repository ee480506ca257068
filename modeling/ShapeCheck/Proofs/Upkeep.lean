import ShapeCheck.Proofs.Generation

/-!
# What a generation maintains

A condition on the space and the session is *maintained* if it is upheld by a generation all of whose
states can be unfolded. The generation then keeps the condition up to its end, whether it succeeds or
fails, and it fails only with errors that are expected: those of the bounds, of statements that go
through null, and of calls.

If the condition bounds the number of states, then a depth-first generation comes to an end: every
state is put on the stack once, so there is a waiting state to take up only as often as states are
found.
-/

namespace ShapeCheck

open Code

namespace Engine

/-- A condition on the space and the session that a generation maintains, when calls are answered as
`Ans` says, and the errors with which it may fail. -/
structure Upkeep (E : Engine) (m : Method) (call : CallHandler) (Ans : Answering) (heaps : List Heap)
    (I : E.Space → Session → Prop) (Err : GenerationError → Prop) : Prop
    extends Endures E m heaps (fun _ => Ans) I where
  /-- Bounds may be reached. -/
  aborted {sp : E.Space} {s : Session} {reason : LimitReached} : I sp s → s.limits ≠ [] →
    Err (.aborted reason)
  /-- Every state that is reached can be unfolded. -/
  sources {h : Heap} {i : Nat} {stmt : Statement} : Reached E m Ans heaps ⟨h, .line i, false⟩ →
    m.statement? i = some stmt → ∃ gs, E.sources stmt h = .ok gs
  /-- Statements may go through null. -/
  fault {g : Heap} {i : Nat} {stmt : Statement} : Reached E m Ans heaps ⟨g, .line i, true⟩ →
    m.statement? i = some stmt → stmt.step g = .fault → Err (.nullDereference stmt.nullDereference)
  call {sp : E.Space} {s : Session} {g : Heap} {i : Nat} {stmt : Statement} {site : CallSite} :
    Reached E m Ans heaps ⟨g, .line i, true⟩ → m.statement? i = some stmt →
    stmt.step g = .call site → I sp s →
    (call site g).Ensures s (fun results t => I sp t ∧ Ans site g results) fun e t => Err e ∧ I sp t

/-- How a generation that maintains a condition fails. -/
def FailsKept (E : Engine) (m : Method) (Ans : Answering) (heaps : List Heap)
    (I : E.Space → Session → Prop) (Err : GenerationError → Prop) (e : GenerationError) (s : Session) :
    Prop :=
  Err e ∧ ∃ sp waiting, IsKept E m Ans heaps I sp waiting s

namespace Upkeep

variable {E : Engine} {m : Method} {call : CallHandler} {Ans : Answering} {heaps : List Heap}
  {I : E.Space → Session → Prop} {Err : GenerationError → Prop} {s : Session}

theorem upholds (hU : Upkeep E m call Ans heaps I Err) :
    Upholds E m call heaps (fun _ => Ans) I (FailsKept E m Ans heaps I Err) :=
  { hU with
    answers := fun _ _ _ _ _ h => h
    aborted := fun hk hne ht heffort =>
      ⟨hU.aborted hk.holds hne, _, _, hk.stage, hU.count ht heffort hk.holds⟩
    unfolding := fun _ hreached hstmt he => by
      obtain ⟨gs, hgs⟩ := hU.sources hreached hstmt
      cases hgs.symm.trans he
    fault := fun hk hreached hstmt hstep => ⟨hU.fault hreached hstmt hstep, _, _, hk⟩
    call := fun hk hreached hstmt hstep => (hU.call hreached hstmt hstep hk.holds).imp
      (fun _ _ ⟨ht, hanswer⟩ => ⟨ht, hanswer, fun _ _ _ h => h⟩) fun _ _ ⟨he, ht⟩ =>
        ⟨he, _, _, hk.stage, ht⟩ }

variable {S : Search} {N steps : Nat}

theorem length_foldl_push (l : List StateId) :
    (l.foldl Search.push S).stack.length = S.stack.length + l.length := by
  induction l generalizing S with
  | nil => rfl
  | cons a l ih =>
    rw [List.foldl_cons, ih, Search.push, List.length_cons, List.length_cons]
    omega

/-- The steps that are granted do not matter, or they are enough: the search is depth-first, and there
are at most `N` states. -/
def Suffices (Err : GenerationError → Prop) (N steps : Nat) (sp : E.Space) (S : Search) : Prop :=
  Err .outOfSteps ∨ S.checker? = none ∧ N + S.stack.length < steps + sp.size

/-- An expansion takes one step and one waiting state, and every state that it lets wait is new. -/
theorem Suffices.expanded {sp sp' : E.Space} {id : StateId} {waiting found : List StateId}
    (h : Suffices Err N (steps + 1) sp S) (hstack : S.stack = id :: waiting)
    (hle : sp.size + found.length ≤ sp'.size) :
    Suffices Err N steps sp' (Search.expanded ⟨waiting, S.checker?⟩ sp' id found).1 := by
  refine h.imp_right ?_
  rintro ⟨hchecker, hlt⟩
  rw [Search.expanded, hchecker]
  refine ⟨Search.checker?_foldl_push.trans rfl, ?_⟩
  rw [length_foldl_push]
  rw [hstack, List.length_cons] at hlt
  dsimp only
  omega

theorem suffices_depthFirst {sp : E.Space} (h : IsSeeded E heaps .depthFirst sp S) (hlt : N < steps) :
    Suffices Err N steps sp S := by
  have heq : S = sp.initial.foldl Search.push .depthFirst :=
    h.search.trans (Search.foldl_start_eq rfl)
  refine .inr ⟨by rw [heq, Search.checker?_foldl_push]; rfl, ?_⟩
  rw [heq, length_foldl_push, h.initial, List.length_range]
  simpa [Search.depthFirst] using hlt

/-- A generation keeps the condition. It fails only in expected ways; unless running out of steps is
one of them, it is enough that a depth-first search is granted more steps than there are states. -/
theorem generateWith_ensures (hU : Upkeep E m call Ans heaps I Err) {method : String}
    (hm : E.program.method? method = some m) (hheaps : heaps ≠ []) (hI : I {} s) (hS : S.IsBelow 0)
    (hsteps : Err .outOfSteps ∨ S = .depthFirst ∧ N < steps ∧
      ∀ sp waiting s, IsKept E m Ans heaps I sp waiting s → sp.size ≤ N) :
    (E.generateWith call steps method heaps S).Ensures s (fun r t => IsKept E m Ans heaps I r.1 [] t)
      (FailsKept E m Ans heaps I Err) := by
  have hJ : Guides E m heaps (fun _ => Ans) I (FailsKept E m Ans heaps I Err) False
      (Suffices Err N) fun _ _ => True := by
    refine ⟨fun h hlt => ⟨?_, _, _, h.atStage.isKept⟩, fun h hstack hr hS => ⟨fun _ _ => trivial,
      fun _ => hS.expanded hstack (by simpa using hr.finds.length_le)⟩, fun _ _ _ => trivial⟩
    rcases hsteps with herr | ⟨-, -, hbound⟩
    · exact herr
    · refine hlt.resolve_right fun hlt => ?_
      have := hbound _ _ _ h.atStage.isKept
      omega
  refine (hU.upholds.generateWith_ensures hJ hm hheaps hI hS False.elim fun sp S' hseeded => ?_).imp
    (fun r t hr => hr.1.isKept) fun _ _ h => h
  rcases hsteps with herr | ⟨rfl, hlt, -⟩
  · exact .inl herr
  · exact suffices_depthFirst hseeded hlt

end Upkeep

end Engine

end ShapeCheck
