import ShapeCheck.Proofs.Generation

/-!
# What a generation depends on

Which calls a computation makes is said from outside: a call is made if the computation would fail
whenever the call did, in the same way.

A generation looks at its session only to make a call, to count and to check a bound. So its outcome
depends on no other calls than those that it makes. Two generations whose calls are answered alike, in
whatever sessions they start and whatever number of steps they are granted, find the same space: the
same states, in the same order and with the same steps.
-/

namespace ShapeCheck

open Code

/-- The handler that answers like another one, except that a call in a session fails with the error
`e` and leaves the session `u`. -/
def CallHandler.failing (call : CallHandler) (site : CallSite) (h : Heap) (t : Session)
    (e : GenerationError) (u : Session) : CallHandler :=
  fun site' h' => ExceptT.mk fun s =>
    if site' = site ∧ h' = h ∧ s = t then (.error e, u) else (call site' h').outcome s

namespace Run

variable {α β : Type} {call : CallHandler} {site site' : CallSite} {h h' : Heap} {s t t' u : Session}

theorem outcome_failing_self (call : CallHandler) (site : CallSite) (h : Heap) (t : Session)
    (e : GenerationError) (u : Session) :
    (call.failing site h t e u site h).outcome t = (.error e, u) :=
  if_pos ⟨rfl, rfl, rfl⟩

theorem outcome_failing_of_ne {e : GenerationError} (hne : ¬(site' = site ∧ h' = h ∧ t' = t)) :
    (call.failing site h t e u site' h').outcome t' = (call site' h').outcome t' :=
  if_neg hne

/-- The computation `x`, with calls answered by `call`, makes a call in the session `t`: however the
call failed there, the computation would fail in the same way. -/
def MakesCall (x : CallHandler → Run α) (call : CallHandler) (s : Session) (site : CallSite)
    (h : Heap) (t : Session) : Prop :=
  ∀ e u, (x (call.failing site h t e u)).outcome s = (.error e, u)

/-- The outcome depends only on the answers to the calls that are made. -/
def DependsOnCalls (x : CallHandler → Run α) : Prop :=
  ∀ call call' s, (∀ site h t, MakesCall x call s site h t →
    (call' site h).outcome t = (call site h).outcome t) → (x call').outcome s = (x call).outcome s

namespace DependsOnCalls

theorem outcome_failing_eq {x : CallHandler → Run α} (hx : DependsOnCalls x)
    (hnot : ¬MakesCall x call s site h t) (e : GenerationError) (u : Session) :
    (x (call.failing site h t e u)).outcome s = (x call).outcome s := by
  refine hx call _ s fun site' h' t' hmakes => outcome_failing_of_ne ?_
  rintro ⟨rfl, rfl, rfl⟩
  exact hnot hmakes

end DependsOnCalls

section Bind

variable {x : CallHandler → Run α} {f : CallHandler → α → Run β}

theorem MakesCall.bind_left (hmakes : MakesCall x call s site h t) :
    MakesCall (fun call => x call >>= f call) call s site h t :=
  fun e u => by rw [outcome_bind, hmakes e u]

theorem MakesCall.bind_right {a : α} (hx : DependsOnCalls x)
    (hok : (x call).outcome s = (.ok a, u))
    (hmakes : MakesCall (fun call => f call a) call u site h t) :
    MakesCall (fun call => x call >>= f call) call s site h t := by
  by_cases hearlier : MakesCall x call s site h t
  · exact hearlier.bind_left
  · intro e v
    rw [outcome_bind, hx.outcome_failing_eq hearlier e v, hok]
    exact hmakes e v

end Bind

/-- The computation does no more than count. -/
def IsCounting (x : Run Unit) : Prop :=
  ∀ s, x.Ensures s (fun _ t => s.Counted t) fun _ _ => True

/-- Computations of the same form, which look at the session only to count and to make calls. One of
them may give up before the other does. -/
inductive Matches : {α : Type} → (CallHandler → Run α) → (CallHandler → Run α) → Prop
  | pure {α : Type} (a : α) : Matches (fun _ => Pure.pure a) fun _ => Pure.pure a
  | count {x : Run Unit} : x.IsCounting → Matches (fun _ => x) fun _ => x
  | call (site : CallSite) (h : Heap) : Matches (fun call => call site h) fun call => call site h
  | throw {α : Type} (e : GenerationError) (y : CallHandler → Run α) :
    Matches (fun _ => MonadExcept.throw e) y
  | throw_right {α : Type} {x y : CallHandler → Run α} (e : GenerationError) : Matches x y →
    Matches x fun _ => MonadExcept.throw e
  | bind {α β : Type} {x y : CallHandler → Run α} {f g : CallHandler → α → Run β} : Matches x y →
    (∀ a, Matches (fun call => f call a) fun call => g call a) →
    Matches (fun call => x call >>= f call) fun call => y call >>= g call

/-- If both computations succeed, then they have the same value, and the sessions that are left have
the property. -/
def AgreeFrom (I : Session → Prop) (x y : Run α) (s t : Session) : Prop :=
  ∀ a s', x.outcome s = (.ok a, s') → ∀ b t', y.outcome t = (.ok b, t') → a = b ∧ I s' ∧ I t'

/-- Counting makes no difference to the property. -/
def IgnoresCounts (I : Session → Prop) : Prop :=
  ∀ s t, I s → s.Counted t → I t

namespace Matches

variable {x y : CallHandler → Run α}

theorem foldlM {f g : CallHandler → β → α → Run β}
    (hfg : ∀ b a, Matches (fun call => f call b a) fun call => g call b a) (l : List α) (b : β) :
    Matches (fun call => l.foldlM (f call) b) fun call => l.foldlM (g call) b := by
  induction l generalizing b with
  | nil => exact .pure b
  | cons a l ih =>
    simp only [List.foldlM_cons]
    exact (hfg b a).bind ih

/-- The outcome depends only on the answers to the calls that are made. -/
theorem dependsOnCalls (hxy : Matches x y) : DependsOnCalls x := by
  induction hxy with
  | pure | count | throw => exact fun _ _ _ _ => rfl
  | call site h => exact fun call _ s hagree => hagree site h s (outcome_failing_self call site h s)
  | throw_right _ _ ih => exact ih
  | @bind _ _ x _ f _ _ _ hx hf =>
    intro call call' s hagree
    have heq := hx call call' s fun site h t hmakes => hagree site h t hmakes.bind_left
    rw [outcome_bind, outcome_bind, heq]
    rcases hok : (x call).outcome s with ⟨e | a, u⟩
    · rfl
    · exact hf a call call' u fun site h t hmakes => hagree site h t (hmakes.bind_right hx hok)

theorem agree {I : Session → Prop} {call' : CallHandler} (hxy : Matches x y) (hI : IgnoresCounts I)
    (hs : I s) (ht : I t) (hcalls : ∀ site h u u', MakesCall x call s site h u → I u → I u' →
      AgreeFrom I (call site h) (call' site h) u u') : AgreeFrom I (x call) (y call') s t := by
  induction hxy generalizing s t with
  | pure a =>
    rintro _ _ ⟨⟩ _ _ ⟨⟩
    exact ⟨rfl, hs, ht⟩
  | count hx =>
    intro _ s' ha _ t' hb
    exact ⟨rfl, hI s s' hs ((hx s).of_ok ha), hI t t' ht ((hx t).of_ok hb)⟩
  | call site h => exact hcalls site h s t (outcome_failing_self call site h s) hs ht
  | throw =>
    intro _ _ ha
    cases ha
  | throw_right =>
    intro _ _ _ _ _ hb
    cases hb
  | bind hx _ ihx ihf =>
    intro b s' hb b' t' hb'
    obtain ⟨a, u, ha, hb⟩ := exists_of_outcome_bind hb
    obtain ⟨a', u', ha', hb'⟩ := exists_of_outcome_bind hb'
    obtain ⟨rfl, hu, hu'⟩ := ihx hs ht (fun site h v v' hmakes =>
      hcalls site h v v' hmakes.bind_left) a u ha a' u' ha'
    exact ihf a hu hu' (fun site h v v' hmakes =>
      hcalls site h v v' (hmakes.bind_right hx.dependsOnCalls ha)) b s' hb b' t' hb'

end Matches

end Run

namespace Engine

open Run

variable (E : Engine) (m : Method) (stmt : Statement)

theorem matches_successors (h : Heap) :
    Matches (fun call => successors call stmt h) fun call => successors call stmt h := by
  unfold successors
  split
  · exact .pure _
  · exact .bind (.call _ h) fun _ => .pure _
  · exact .throw _ _

theorem matches_variants (h : Heap) :
    Matches (fun _ => E.variants stmt h) fun _ => E.variants stmt h := by
  rw [variants_eq]
  split
  · exact .pure _
  · exact .throw _ _

theorem matches_addVariant (id : StateId) (location : Location) (r : E.Space × List (StateId × Heap))
    (h : Heap) :
    Matches (fun _ => E.addVariant id location r h) fun _ => E.addVariant id location r h :=
  .bind (.count fun s => s.counted_note _) fun _ => .bind (.count fun s => s.counted_countIf _) fun _ =>
    .pure _

theorem matches_addSuccessor (id : StateId) (r : E.Space × List StateId) (p : Location × Heap) :
    Matches (fun _ => E.addSuccessor id r p) fun _ => E.addSuccessor id r p :=
  .bind (.count fun s => s.counted_note _) fun _ => .bind (.count fun s => s.counted_countIf _) fun _ =>
    .pure _

theorem matches_addStart (r : E.Space × Search) (h : Heap) :
    Matches (fun _ => E.addStart r h) fun _ => E.addStart r h :=
  .bind (.count fun s => s.counted_note _) fun _ => .bind (.count fun s => s.counted_countIf _) fun _ =>
    .pure _

theorem matches_runFrom (r : E.Space × List StateId) (source : StateId × Heap) :
    Matches (fun call => E.runFrom call stmt r source) fun call => E.runFrom call stmt r source :=
  .bind (matches_successors stmt source.2) fun next =>
    .foldlM (E.matches_addSuccessor source.1) next _

theorem matches_expand (sp : E.Space) (id : StateId) :
    Matches (fun call => E.expand call m sp id) fun call => E.expand call m sp id := by
  unfold expand
  dsimp only
  split
  · exact .pure _
  · next stmt _ =>
    have hruns (r : E.Space × List (StateId × Heap)) :
        Matches (fun call => r.2.foldlM (E.runFrom call stmt) (r.1, []))
          fun call => r.2.foldlM (E.runFrom call stmt) (r.1, []) :=
      .foldlM (E.matches_runFrom stmt) _ _
    refine .bind (E.matches_variants stmt _) fun variants => ?_
    split
    · exact .bind (.pure _) hruns
    · exact .bind (.foldlM (E.matches_addVariant id _) variants _) hruns

theorem matches_visit (sp : E.Space) (id : StateId) :
    Matches (fun call => E.visit call m sp id) fun call => E.visit call m sp id := by
  unfold visit
  split
  · exact .pure _
  · exact .bind (.count fun s => s.counted_note _) fun _ => E.matches_expand m sp id

theorem matches_explore (steps steps' : Nat) (sp : E.Space) (S : Search) :
    Matches (fun call => E.explore call m steps sp S) fun call => E.explore call m steps' sp S := by
  induction steps generalizing steps' sp S with
  | zero => exact .throw _ _
  | succ steps ih =>
    have hsucc (steps' : Nat) : Matches (fun call => E.explore call m (steps + 1) sp S)
        fun call => E.explore call m (steps' + 1) sp S := by
      cases hstack : S.stack with
      | nil =>
        simp only [explore_nil hstack]
        exact .pure _
      | cons id stack =>
        simp only [explore_cons hstack]
        refine .bind (.count fun s => (checkLimits_ensures E.clock).imp (fun _ _ h => h.1)
          fun _ _ _ => trivial) fun _ => .bind (E.matches_visit m sp id) fun r =>
            .bind (.count fun _ => ⟨rfl, rfl, rfl, rfl, rfl, fun h => h⟩) fun _ => ?_
        split
        · exact .pure _
        · exact ih _ _ _
    cases steps' with
    | zero => exact .throw_right _ (hsucc steps)
    | succ steps' => exact hsucc steps'

theorem matches_generateWith (steps steps' : Nat) (method : String) (heaps : List Heap)
    (S : Search) : Matches (fun call => E.generateWith call steps method heaps S)
      fun call => E.generateWith call steps' method heaps S := by
  cases hm : E.program.method? method with
  | none =>
    simp only [generateWith, hm]
    exact .throw _ _
  | some m =>
    by_cases hne : heaps = []
    · simp only [generateWith, hm, hne]
      exact .throw _ _
    · simp only [generateWith_eq hm hne]
      exact .bind (.foldlM E.matches_addStart heaps _) fun r =>
        E.matches_explore m steps steps' r.1 r.2

end Engine

end ShapeCheck
