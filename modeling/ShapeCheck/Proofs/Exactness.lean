import ShapeCheck.Proofs.Names
import ShapeCheck.Proofs.Regular

/-!
# Contracts are exact

What a method may return is defined without contracts, by runs whose calls nest less than `n` deep:
a call may be answered by what the callee may return in runs that nest one less deep. At depth zero
a canonical shape is its own most general shape, so every precondition has a contract of its own,
and the postconditions of a recorded contract are neither more nor less than what the method may
return.
-/

namespace ShapeCheck

open Code List

variable {E : Engine} {m : Method} {Ans Ans' : Answering} {heaps : List Heap} {sp : E.Space}
  {t : State} {method : String} {pre q : Heap} {posts posts' : HeapSet} {n n' : Nat}
  {e : GenerationError}

/-- The method that an instruction calls. -/
def Code.Instruction.callee? : Instruction → Option String
  | .call method _ _ => some method
  | _ => none

/-- The methods that a method calls. -/
def Code.Method.callees (m : Method) : List String :=
  m.statements.filterMap (·.instruction.callee?)

theorem Code.Method.mem_callees {i : Nat} {stmt : Statement} {g : Heap} {site : CallSite}
    (hstmt : m.statement? i = some stmt) (hstep : stmt.step g = .call site) :
    site.method ∈ m.callees := by
  refine mem_filterMap.2 ⟨stmt, mem_of_getElem? hstmt, ?_⟩
  obtain ⟨args, hi, -⟩ := Statement.instruction_of_call hstep
  rw [hi]
  rfl

namespace Engine

/-- What an explored space has to say of a state: it holds the state, or it has run the statement of
the unfolded state. -/
def Includes (E : Engine) (m : Method) (Ans : Answering) (sp : E.Space) : State → Prop
  | ⟨h, loc, false⟩ => sp.Holds ⟨h, loc, false⟩
  | ⟨g, loc, true⟩ => ∀ i stmt, loc = .line i → m.statement? i = some stmt → IsRun E Ans sp stmt g

/-- Wherever both answer a call of the method, the second one has all answers of the first. -/
def AnswersMore (m : Method) (Ans Ans' : Answering) : Prop :=
  ∀ i stmt g site results results', m.statement? i = some stmt → stmt.step g = .call site →
    Ans site g results → Ans' site g results' → results ⊆ results'

theorem IsExplored.within (hsp : IsExplored E m Ans' heaps sp) (hmore : AnswersMore m Ans Ans')
    (ht : Reached E m Ans heaps t) : E.Includes m Ans' sp t := by
  induction ht with
  | start hh => exact hsp.start _ hh
  | source _ hstmt hgs hg ih =>
    rintro j stmt' hj hstmt'
    cases hj
    obtain rfl := Option.some.inj (hstmt.symm.trans hstmt')
    obtain ⟨gs', hgs', hruns⟩ := (isDone_line_iff hstmt).1 (hsp.isDone ih)
    obtain rfl := Except.ok.inj (hgs.symm.trans hgs')
    exact hruns _ hg
  | @step g i stmt next p _ hstmt hnext hp ih =>
    obtain ⟨next', hnext', hheld⟩ := ih i stmt rfl hstmt
    refine hheld p ?_
    unfold Statement.Yields at hnext hnext'
    cases hstep : stmt.step g with
    | moves moves =>
      simp only [hstep] at hnext hnext'
      rwa [hnext', ← hnext]
    | call site =>
      simp only [hstep] at hnext hnext'
      obtain ⟨results, hanswer, rfl⟩ := hnext
      obtain ⟨results', hanswer', rfl⟩ := hnext'
      exact map_subset _ (hmore i stmt g site _ _ hstmt hstep hanswer hanswer') hp
    | fault => simp only [hstep] at hnext

/-- Where all calls are answered, no state that is reached with fewer answers is stuck. -/
theorem IsExplored.not_isStuck {Refuses : CallSite → Heap → GenerationError → Prop}
    (hsp : IsExplored E m Ans' heaps sp) (hmore : AnswersMore m Ans Ans')
    (hrefuses : ∀ i stmt g site results, m.statement? i = some stmt → stmt.step g = .call site →
      Ans' site g results → ¬Refuses site g e) : ¬IsStuck E m Ans Refuses heaps e := by
  rintro (⟨h, i, stmt, u, ht, hstmt, herror, -⟩ | ⟨g, i, stmt, ht, hstmt, hstuck⟩)
  · obtain ⟨gs, hgs, -⟩ := (isDone_line_iff hstmt).1 (hsp.isDone (hsp.within hmore ht))
    cases hgs.symm.trans herror
  · obtain ⟨next, hnext, -⟩ := hsp.within hmore ht i stmt rfl hstmt
    unfold Statement.Yields at hnext
    rcases hstuck with ⟨hfault, -⟩ | ⟨site, hcall, hrefused⟩
    · simp only [hfault] at hnext
    · simp only [hcall] at hnext
      obtain ⟨results, hanswer, -⟩ := hnext
      exact hrefuses i stmt g site results hstmt hcall hanswer hrefused

theorem answersMore_callAnswer {Good Good' : String → Heap → HeapSet → Prop}
    (hgood : ∀ callee ∈ m.callees, ∀ pre posts posts', Good callee pre posts →
      Good' callee pre posts' → ∀ q ∈ posts, q ∈ posts') :
    AnswersMore m (E.CallAnswer Good) (E.CallAnswer Good') := by
  intro i stmt g site results results' hstmt hstep hanswer hanswer'
  obtain ⟨hskip, rfl⟩ | ⟨hskip, callee, posts, hcallee, hposts, rfl⟩ := hanswer <;>
    obtain ⟨hskip', rfl⟩ | ⟨hskip', callee', posts', hcallee', hposts', rfl⟩ := hanswer'
  · exact List.Subset.refl _
  · exact absurd hskip hskip'
  · exact absurd hskip' hskip
  · obtain rfl := Option.some.inj (hcallee.symm.trans hcallee')
    exact map_subset _ (hgood _ (Method.mem_callees hstmt hstep) _ _ _ hposts hposts')

/-- Where calls are answered by postconditions of runs that do not fail, and all postconditions are
allowed for, no state is stuck. -/
theorem IsExplored.not_isStuck_callAnswer {Good Good' : String → Heap → HeapSet → Prop}
    {Fails : String → Heap → GenerationError → Prop}
    (hsp : IsExplored E m (E.CallAnswer Good') heaps sp)
    (hgood : ∀ callee ∈ m.callees, ∀ pre posts', Good' callee pre posts' → ¬Fails callee pre e ∧
      ∀ posts, Good callee pre posts → ∀ q ∈ posts, q ∈ posts') :
    ¬IsStuck E m (E.CallAnswer Good) (E.CallRefusal Fails) heaps e := by
  have hmore : AnswersMore m (E.CallAnswer Good) (E.CallAnswer Good') :=
    answersMore_callAnswer fun callee hcallee pre posts posts' hposts hposts' =>
      (hgood callee hcallee pre posts' hposts').2 posts hposts
  refine hsp.not_isStuck hmore ?_
  intro i stmt g site results hstmt hstep hanswer hrefused
  obtain ⟨hskip, -⟩ | ⟨-, callee, posts, hcallee, hposts, -⟩ := hanswer
  · exact hrefused.1 hskip
  · exact (hgood _ (Method.mem_callees hstmt hstep) _ _ hposts).1 (hrefused.2 callee hcallee)

/-- The final heaps of runs whose calls nest less than `n` deep. -/
def MayReturn (E : Engine) : Nat → String → Heap → Heap → Prop
  | 0 => fun _ _ _ => False
  | n + 1 => fun method pre q => ∃ m h, E.program.method? method = some m ∧
      Reached E m (E.CallAnswer fun method pre posts => ∀ q ∈ posts, E.MayReturn n method pre q)
        [pre] ⟨h, .exit, false⟩ ∧ E.harvestHeap h = q

/-- Some run whose calls nest less than `n` deep fails with the error. -/
def MayFail (E : Engine) : Nat → String → Heap → GenerationError → Prop
  | 0 => fun _ _ _ => False
  | n + 1 => fun method pre e => ∃ m, E.program.method? method = some m ∧
      IsStuck E m (E.CallAnswer fun method pre posts => ∀ q ∈ posts, E.MayReturn n method pre q)
        (E.CallRefusal (E.MayFail n)) [pre] e

theorem MayReturn.succ (h : E.MayReturn n method pre q) : E.MayReturn (n + 1) method pre q := by
  induction n generalizing method pre q with
  | zero => exact h.elim
  | succ n ih =>
    obtain ⟨m, h, hm, hreached, hq⟩ := h
    refine ⟨m, h, hm, hreached.mono (CallAnswer.mono fun _ _ _ hposts q hq => ?_), hq⟩
    exact ih (hposts q hq)

theorem MayReturn.mono (h : E.MayReturn n method pre q) (hn : n ≤ n') :
    E.MayReturn n' method pre q := by
  induction hn with
  | refl => exact h
  | step _ ih => exact ih.succ

theorem CallRefusal.mono {Fails Fails' : String → Heap → GenerationError → Prop}
    (hFails : ∀ method pre, Fails method pre e → Fails' method pre e) {site : CallSite} {g : Heap}
    (h : E.CallRefusal Fails site g e) : E.CallRefusal Fails' site g e :=
  h.imp_right fun h m hm => hFails _ _ (h m hm)

theorem IsStuck.imp {Refuses Refuses' : CallSite → Heap → GenerationError → Prop}
    (h : IsStuck E m Ans Refuses heaps e) (hrefuses : ∀ site g, Refuses site g e → Refuses' site g e) :
    IsStuck E m Ans Refuses' heaps e :=
  Or.imp_right (fun ⟨g, i, stmt, ht, hstmt, hstuck⟩ => ⟨g, i, stmt, ht, hstmt,
    hstuck.imp_right fun ⟨site, hsite, hrefused⟩ => ⟨site, hsite, hrefuses site g hrefused⟩⟩) h

theorem MayFail.succ (h : E.MayFail n method pre e) : E.MayFail (n + 1) method pre e := by
  induction n generalizing method pre with
  | zero => exact h.elim
  | succ n ih =>
    obtain ⟨m, hm, hstuck⟩ := h
    refine ⟨m, hm, (hstuck.mono (CallAnswer.mono fun _ _ _ hposts q hq => ?_)).imp ?_⟩
    · exact (hposts q hq).succ
    · exact fun site g => CallRefusal.mono fun _ _ => ih

theorem MayFail.mono (h : E.MayFail n method pre e) (hn : n ≤ n') : E.MayFail n' method pre e := by
  induction hn with
  | refl => exact h
  | step _ ih => exact ih.succ

theorem exists_forall_mayReturn (hposts : ∀ q ∈ posts, ∃ n, E.MayReturn n method pre q) :
    ∃ n, ∀ q ∈ posts, E.MayReturn n method pre q := by
  have hlist (l : List Heap) (hl : ∀ q ∈ l, ∃ n, E.MayReturn n method pre q) :
      ∃ n, ∀ q ∈ l, E.MayReturn n method pre q := by
    induction l with
    | nil => exact ⟨0, forall_mem_nil _⟩
    | cons q l ih =>
      obtain ⟨⟨n, hq⟩, hl⟩ := forall_mem_cons.1 hl
      obtain ⟨n', hn'⟩ := ih hl
      exact ⟨max n n', forall_mem_cons.2 ⟨hq.mono (Nat.le_max_left _ _), fun q hq =>
        (hn' q hq).mono (Nat.le_max_right _ _)⟩⟩
  exact hlist posts.toList hposts

theorem Reached.exists_bound (ht : Reached E m (E.CallAnswer fun method pre posts =>
      ∀ q ∈ posts, ∃ n, E.MayReturn n method pre q) heaps t) :
    ∃ n, Reached E m (E.CallAnswer fun method pre posts =>
      ∀ q ∈ posts, E.MayReturn n method pre q) heaps t := by
  induction ht with
  | start hh => exact ⟨0, .start hh⟩
  | source _ hstmt hgs hg ih => exact ih.imp fun n hn => .source hn hstmt hgs hg
  | @step g i stmt next p _ hstmt hnext hp ih =>
    obtain ⟨n, hn⟩ := ih
    obtain ⟨n', hn'⟩ : ∃ n', stmt.Yields (E.CallAnswer fun method pre posts =>
        ∀ q ∈ posts, E.MayReturn n' method pre q) g next := by
      unfold Statement.Yields at hnext ⊢
      cases hstep : stmt.step g with
      | moves moves => exact ⟨0, by simpa only [hstep] using hnext⟩
      | fault => simp only [hstep] at hnext
      | call site =>
        simp only [hstep] at hnext ⊢
        obtain ⟨results, hskip | ⟨hskip, m, posts, hm, hposts, hresults⟩, hnext⟩ := hnext
        · exact ⟨0, results, .inl hskip, hnext⟩
        · obtain ⟨n', hn'⟩ := exists_forall_mayReturn hposts
          exact ⟨n', results, .inr ⟨hskip, m, posts, hm, hn', hresults⟩, hnext⟩
    refine ⟨max n n', .step (hn.mono (CallAnswer.mono fun _ _ _ hposts q hq => ?_)) hstmt
      (hn'.mono (CallAnswer.mono fun _ _ _ hposts q hq => ?_)) hp⟩
    · exact (hposts q hq).mono (Nat.le_max_left _ _)
    · exact (hposts q hq).mono (Nat.le_max_right _ _)

theorem CallRefusal.exists_bound {site : CallSite} {g : Heap}
    (h : E.CallRefusal (fun method pre e => ∃ n, E.MayFail n method pre e) site g e) :
    ∃ n, E.CallRefusal (E.MayFail n) site g e := by
  obtain ⟨hskip, hfails⟩ := h
  cases hm : E.program.method? site.method with
  | none => exact ⟨0, hskip, fun m hm' => nomatch hm.symm.trans hm'⟩
  | some m =>
    obtain ⟨n, hn⟩ := hfails m hm
    exact ⟨n, hskip, fun m' hm' => Option.some.inj (hm.symm.trans hm') ▸ hn⟩

theorem IsStuck.exists_bound (h : IsStuck E m (E.CallAnswer fun method pre posts =>
      ∀ q ∈ posts, ∃ n, E.MayReturn n method pre q)
      (E.CallRefusal fun method pre e => ∃ n, E.MayFail n method pre e) heaps e) :
    ∃ n, IsStuck E m (E.CallAnswer fun method pre posts => ∀ q ∈ posts, E.MayReturn n method pre q)
      (E.CallRefusal (E.MayFail n)) heaps e := by
  rcases h with ⟨h, i, stmt, u, ht, hstmt, herror⟩ | ⟨g, i, stmt, ht, hstmt, hstuck⟩
  · obtain ⟨n, hn⟩ := ht.exists_bound
    exact ⟨n, .inl ⟨h, i, stmt, u, hn, hstmt, herror⟩⟩
  · obtain ⟨n, hn⟩ := ht.exists_bound
    rcases hstuck with hfault | ⟨site, hcall, hrefused⟩
    · exact ⟨n, .inr ⟨g, i, stmt, hn, hstmt, .inl hfault⟩⟩
    · obtain ⟨n', hn'⟩ := hrefused.exists_bound
      refine ⟨max n n', .inr ⟨g, i, stmt,
        hn.mono (CallAnswer.mono fun _ _ _ hposts q hq => ?_), hstmt,
        .inr ⟨site, hcall, hn'.mono fun _ _ h => h.mono (Nat.le_max_right _ _)⟩⟩⟩
      exact (hposts q hq).mono (Nat.le_max_left _ _)

/-- The preconditions for which contracts are made. -/
structure IsKey (E : Engine) (method : String) (pre : Heap) : Prop where
  isSome : (E.program.method? method).isSome
  regular : pre.IsRegular
  views : ∀ P ∈ E.abstraction.views pre, P = pre

/-- A final heap that some run has. -/
structure IsPost (E : Engine) (method : String) (pre q : Heap) : Prop where
  regular : q.IsRegular
  returned : ∃ n, E.MayReturn n method pre q

/-- The postconditions are all that runs return whose calls nest less than `n` deep, and none of
these runs fails. -/
structure IsComplete (E : Engine) (n : Nat) (method : String) (pre : Heap) (posts : HeapSet) :
    Prop where
  not_mayFail {e : GenerationError} : ¬E.MayFail n method pre e
  mem : ∀ q, E.MayReturn n method pre q → q ∈ posts

theorem eq_of_mem_views {A : Abstraction} {h P : Heap} (hdepth : A.depth = 0) (hh : h.IsRegular)
    (hP : P ∈ A.views (A.canonical h)) : P = A.canonical h := by
  have hcanonical (g : Heap) : A.canonical g = A.shapeAt 0 g := by
    rw [Abstraction.canonical, hdepth]
  rw [Abstraction.views, hcanonical, hcanonical, Abstraction.coarsest, hh.shapeAt_shapeAt,
    hh.normalize_shapeAt] at hP
  simpa [hcanonical] using hP

/-- If calls are answered by all that they may return, then an explored space has found all that its
method may return. -/
theorem IsExplored.isComplete {Good : String → Heap → HeapSet → Prop}
    (hsp : IsExplored E m (E.CallAnswer Good) [pre] sp) (hm : E.program.method? method = some m)
    (hgood : ∀ callee ∈ m.callees, ∀ pre posts, Good callee pre posts →
      E.IsComplete n callee pre posts) : E.IsComplete (n + 1) method pre (E.harvest sp) := by
  constructor
  · rintro e ⟨m', hm', hstuck⟩
    obtain rfl := Option.some.inj (hm.symm.trans hm')
    refine hsp.not_isStuck_callAnswer (fun callee hcallee pre posts' hposts' => ?_) hstuck
    have hcomplete := hgood callee hcallee pre posts' hposts'
    exact ⟨hcomplete.not_mayFail, fun posts hposts q hq => hcomplete.mem q (hposts q hq)⟩
  · rintro q ⟨m', h, hm', hreached, rfl⟩
    obtain rfl := Option.some.inj (hm.symm.trans hm')
    refine hsp.mem_harvest_iff.2 ⟨h, hsp.within (answersMore_callAnswer ?_) hreached, rfl⟩
    intro callee hcallee pre posts posts' hposts hposts' q hq
    exact (hgood callee hcallee pre posts' hposts').mem q (hposts q hq)

section Judgement

variable (Free Inner : String → Prop) (hdepth : E.abstraction.depth = 0)
  (hP : E.program.IsUnreserved)
  (hinner : ∀ method m, Inner method → E.program.method? method = some m →
    ∀ callee ∈ m.callees, Free callee ∧ Inner callee)

include hP in
theorem Reached.isRegular_of_isPost (hm : E.program.method? method = some m)
    (hheaps : ∀ h ∈ heaps, h.IsRegular)
    (ht : Reached E m (E.CallAnswer fun method pre posts => ∀ q ∈ posts, E.IsPost method pre q)
      heaps t) : t.heap.IsRegular :=
  ht.isRegular (hP _ _ hm) hheaps (CallAnswer.isRegular fun _ _ _ hposts q hq =>
    (hposts q hq).regular)

/-- Postconditions are judged by whether they are what a method may return. The answers of methods
that are not `Free` may be narrowed; then contracts are made for `Inner` methods only, which do not
call them. -/
def exact : Judgement E where
  Fit site g := g.IsRegular ∧ Inner site.method
  Key method pre := E.IsKey method pre ∧ Inner method
  Known := E.IsKey
  Free := Free
  Covers := E.IsComplete
  Allows := E.IsPost
  Fails method pre e := ∃ n, E.MayFail n method pre e
  known := And.left
  covers_zero := ⟨fun h => h, fun _ h => h.elim⟩
  covers_pred h := ⟨fun hfail => h.not_mayFail hfail.succ, fun q hq => h.mem q hq.succ⟩
  covers_mono h hsub := ⟨h.not_mayFail, fun q hq => hsub q (h.mem q hq)⟩
  view hkey hview := by
    rw [hkey.1.views _ hview]
    exact ⟨hkey, fun _ _ h => h, fun _ h => h, fun _ h => h⟩
  key hfit hm := by
    refine ⟨⟨hm ▸ rfl, isRegular_calleeStart hfit.1 _ _, fun P hview => ?_⟩, hfit.2⟩
    exact eq_of_mem_views hdepth (Call.isRegular_enter hfit.1 _ _) hview
  fit hkey hm hreached hstmt hstep := by
    refine ⟨hreached.isRegular_of_isPost hP hm (forall_mem_singleton.2 hkey.1.regular), ?_⟩
    exact (hinner _ _ hkey.2 hm _ (Method.mem_callees hstmt hstep)).2
  covers_succ hkey hm hsp := hsp.isComplete hm fun callee hcallee _ _ h =>
    h (hinner _ _ hkey.2 hm callee hcallee).1
  allows hkey hm hreached := by
    refine ⟨(hreached.isRegular_of_isPost hP hm
      (forall_mem_singleton.2 hkey.1.regular)).harvestHeap E, ?_⟩
    obtain ⟨n, hn⟩ := (hreached.mono (CallAnswer.mono fun _ _ _ hposts q hq =>
      (hposts q hq).returned)).exists_bound
    exact ⟨n + 1, _, _, hm, hn, rfl⟩
  fails _ hm hstuck := by
    obtain ⟨n, hn⟩ := (hstuck.mono (CallAnswer.mono fun _ _ _ hposts q hq =>
      (hposts q hq).returned)).exists_bound
    exact ⟨n + 1, _, hm, hn⟩

end Judgement

/-- Postconditions that are neither more nor less than what runs return are all the same. -/
theorem eq_of_isComplete (hposts : ∀ q ∈ posts, E.IsPost method pre q)
    (hcomplete : ∀ n, E.IsComplete n method pre posts)
    (hposts' : ∀ q ∈ posts', E.IsPost method pre q)
    (hcomplete' : ∀ n, E.IsComplete n method pre posts') : posts = posts' := by
  refine SortedSet.ext fun q => ⟨fun hq => ?_, fun hq => ?_⟩
  · obtain ⟨n, hn⟩ := (hposts q hq).returned
    exact (hcomplete' n).mem q hn
  · obtain ⟨n, hn⟩ := (hposts' q hq).returned
    exact (hcomplete n).mem q hn

end Engine

end ShapeCheck
