import ShapeCheck.Proofs.History

/-!
# The effort of a run

The effort counts states as they are found, over all generations of a run: those of calls, and all
rounds of a contract, even though only the last one is used. What it counts is seen from the notes of
the session: they tell, with the effort at that moment, that a state is put into a space, that a
waiting state is taken up, and that the expansion of a state begins.

With a bound on states and no other bound, the notes show that the effort is the number of new states
at all times, that no expansion begins when the bound is reached, and that the run is stopped just
when a state is taken up then.
-/

namespace ShapeCheck

open Code

/-- The number of new states. -/
def found (notes : List Note) : Nat :=
  notes.countP (·.event = .inserted true)

namespace Session

/-- With the bound `N` on states, the notes show that the effort is the number of new states, and that
no expansion begins when the bound is reached. -/
structure IsSound (N : Nat) (s : Session) : Prop where
  limits : s.limits = [.states N]
  effort : s.effort = found s.notes
  notes : ∀ later n earlier, s.notes = later ++ n :: earlier → n.effort = found earlier
  expanding : ∀ n ∈ s.notes, n.event = .expanding → n.effort < N

/-- A state was taken up when the bound was reached. -/
def IsOverrun (N : Nat) (s : Session) : Prop :=
  ∃ n ∈ s.notes, n.event = .taken ∧ N ≤ n.effort

/-- The other session has the same bounds, effort and notes. -/
structure IsSilent (s t : Session) : Prop where
  limits : t.limits = s.limits
  effort : t.effort = s.effort
  notes : t.notes = s.notes

variable {N : Nat} {s t u : Session} {event : Event}

theorem IsSilent.trans (h : s.IsSilent t) (h' : t.IsSilent u) : s.IsSilent u :=
  ⟨h'.limits.trans h.limits, h'.effort.trans h.effort, h'.notes.trans h.notes⟩

theorem IsSilent.isOverrun_iff (h : s.IsSilent t) : t.IsOverrun N ↔ s.IsOverrun N := by
  rw [IsOverrun, IsOverrun, h.notes]

theorem IsSound.of_isSilent (hs : s.IsSound N) (h : s.IsSilent t) : t.IsSound N where
  limits := h.limits.trans hs.limits
  effort := by rw [h.effort, h.notes, hs.effort]
  notes := h.notes ▸ hs.notes
  expanding := h.notes ▸ hs.expanding

/-- The session after an event: a new state is counted, and expansions begin below the bound only. -/
theorem IsSound.extend (hs : s.IsSound N) (hlimits : t.limits = s.limits)
    (hnotes : t.notes = ⟨event, s.effort⟩ :: s.notes)
    (heffort : t.effort = s.effort + if event = .inserted true then 1 else 0)
    (hexpanding : event = .expanding → s.effort < N) : t.IsSound N := by
  refine ⟨hlimits.trans hs.limits, ?_, fun later n earlier heq => ?_, fun n hn => ?_⟩
  · simp only [heffort, hnotes, hs.effort, found, List.countP_cons, decide_eq_true_eq]
  · rw [hnotes] at heq
    cases later with
    | nil =>
      obtain ⟨rfl, rfl⟩ := List.cons.inj heq
      exact hs.effort
    | cons last later => exact hs.notes later n earlier (List.cons.inj heq).2
  · rw [hnotes] at hn
    rcases List.mem_cons.1 hn with rfl | hn
    · exact hexpanding
    · exact hs.expanding n hn

theorem isOverrun_extend (hnotes : t.notes = ⟨event, s.effort⟩ :: s.notes) :
    t.IsOverrun N ↔ event = .taken ∧ N ≤ s.effort ∨ s.IsOverrun N := by
  simp only [IsOverrun, hnotes, List.mem_cons, or_and_right, exists_or, exists_eq_left]

theorem isSilent_pop (s : Session) : s.IsSilent s.pop.2 := by
  rw [pop]
  split <;> exact ⟨rfl, rfl, rfl⟩

end Session

namespace Run

variable {α β : Type} {N : Nat} {s : Session}

/-! ## Computations that note nothing -/

/-- A computation that counts no states, notes nothing and does not look at bounds. -/
def IsQuiet (x : Run α) : Prop :=
  ∀ s, x.Ensures s (fun _ t => s.IsSilent t) fun e t => s.IsSilent t ∧ ∀ reason, e ≠ .aborted reason

theorem isQuiet_pure (a : α) : (pure a : Run α).IsQuiet :=
  fun _ => ⟨rfl, rfl, rfl⟩

theorem isQuiet_get : (get : Run Session).IsQuiet :=
  fun _ => ⟨rfl, rfl, rfl⟩

theorem isQuiet_modify {g : Session → Session} (hg : ∀ s : Session, s.IsSilent (g s)) :
    (modify g : Run PUnit).IsQuiet :=
  hg

theorem IsQuiet.bind {x : Run α} {f : α → Run β} (hx : x.IsQuiet) (hf : ∀ a, (f a).IsQuiet) :
    (x >>= f).IsQuiet := by
  intro s
  rw [ensures_bind]
  refine (hx s).imp (fun a t ht => ?_) fun _ _ h => h
  exact (hf a t).imp (fun _ _ hu => ht.trans hu) fun _ _ hu => ⟨ht.trans hu.1, hu.2⟩

theorem isQuiet_access : access.IsQuiet := by
  intro s
  rw [access, ensures_bind, ensures_get]
  dsimp only [Session.access?]
  split
  · next heq =>
    split at heq
    · split at heq
      · cases heq
      · exact Option.some.inj heq ▸ ⟨rfl, rfl, rfl⟩
    · exact Option.some.inj heq ▸ ⟨rfl, rfl, rfl⟩
  · exact ⟨⟨rfl, rfl, rfl⟩, fun _ h => by cases h⟩

theorem isQuiet_lookup (E : Engine) (method : String) (pre : Heap) :
    (E.lookup method pre).IsQuiet := by
  intro s
  rw [Engine.lookup, ensures_bind, ensures_get]
  split
  · exact ⟨rfl, rfl, rfl⟩
  · exact (isQuiet_access.bind fun _ => isQuiet_get.bind fun _ => isQuiet_pure _) s

theorem isQuiet_remembered (E : Engine) (method : String) (pre : Heap) :
    (E.remembered method pre).IsQuiet := by
  rw [Engine.Judgement.remembered_eq]
  refine (isQuiet_lookup E method pre).bind fun a? => ?_
  cases a? with
  | some a => exact isQuiet_pure _
  | none =>
    dsimp only [Option.elim]
    split
    · exact isQuiet_lookup E method _
    · exact isQuiet_pure _

theorem isQuiet_join (posts : HeapSet) : (Engine.join posts).IsQuiet := by
  intro s
  rw [Engine.join, ensures_modifyGet]
  split <;> exact ⟨rfl, rfl, rfl⟩

theorem isQuiet_refine (E : Engine) (method : String) (pre : Heap) (a : Answer) :
    (E.refine method pre a).IsQuiet := by
  intro s
  rw [Engine.refine, ensures_bind, ensures_get]
  split
  · exact ⟨rfl, rfl, rfl⟩
  · split
    · exact ⟨rfl, rfl, rfl⟩
    · dsimp only
      split <;> exact ⟨rfl, rfl, rfl⟩

theorem isQuiet_variants (E : Engine) (stmt : Statement) (h : Heap) :
    (E.variants stmt h).IsQuiet := by
  intro s
  rw [Engine.variants]
  split
  · split
    · exact ⟨rfl, rfl, rfl⟩
    · exact ⟨⟨rfl, rfl, rfl⟩, fun _ h => by cases h⟩
  · exact ⟨rfl, rfl, rfl⟩

/-! ## Computations that keep their accounts -/

/-- From the session `s` the computation leaves a sound session, and it is stopped by the bound on
states just if the notes show that the bound was overrun. -/
def AccountsAt (N : Nat) (x : Run α) (s : Session) : Prop :=
  x.Ensures s (fun _ t => t.IsSound N ∧ ¬t.IsOverrun N)
    fun e t => t.IsSound N ∧ (e = .aborted (.states N) ↔ t.IsOverrun N)

/-- The computation keeps its accounts, whatever has happened before. -/
def Accounts (N : Nat) (x : Run α) : Prop :=
  ∀ s : Session, s.IsSound N → ¬s.IsOverrun N → x.AccountsAt N s

theorem AccountsAt.bind {x : Run α} {f : α → Run β} (hx : x.AccountsAt N s)
    (hf : ∀ a, (f a).Accounts N) : (x >>= f).AccountsAt N s :=
  ensures_bind.2 (hx.imp (fun a t ht => hf a t ht.1 ht.2) fun _ _ h => h)

namespace Accounts

theorem bind {x : Run α} {f : α → Run β} (hx : x.Accounts N) (hf : ∀ a, (f a).Accounts N) :
    (x >>= f).Accounts N :=
  fun s hs hover => (hx s hs hover).bind hf

theorem pure (a : α) : Accounts N (Pure.pure a : Run α) :=
  fun _ hs hover => ⟨hs, hover⟩

theorem throw {e : GenerationError} (he : ∀ reason, e ≠ .aborted reason) :
    Accounts N (MonadExcept.throw e : Run α) :=
  fun _ hs hover => ⟨hs, iff_of_false (he _) hover⟩

theorem quiet {x : Run α} (hx : x.IsQuiet) : x.Accounts N := by
  refine fun s hs hover => (hx s).imp (fun _ t ht => ?_) fun e t ⟨ht, he⟩ => ?_
  · exact ⟨hs.of_isSilent ht, fun h => hover (ht.isOverrun_iff.1 h)⟩
  · exact ⟨hs.of_isSilent ht, iff_of_false (he _) fun h => hover (ht.isOverrun_iff.1 h)⟩

/-- A state that is put into a space is counted if it is new. -/
theorem insertion {x : Run α} {fresh : Bool}
    (hx : ∀ s, x.Ensures s (fun _ t => t = s.insertion fresh) fun _ _ => False) : x.Accounts N := by
  refine fun s hs hover => (hx s).imp (fun _ t ht => ?_) fun _ _ h => h.elim
  have hnotes : t.notes = ⟨.inserted fresh, s.effort⟩ :: s.notes := by
    rw [ht]
    cases fresh <;> rfl
  refine ⟨hs.extend ?_ hnotes ?_ (fun h => by cases h), fun h => ?_⟩
  · rw [ht]
    cases fresh <;> rfl
  · rw [ht]
    cases fresh <;> rfl
  · exact ((Session.isOverrun_extend hnotes).1 h).elim (fun h => by cases h.1) hover

theorem foldlM {f : β → α → Run β} (hf : ∀ b a, (f b a).Accounts N) (l : List α) (b : β) :
    (l.foldlM f b).Accounts N := by
  induction l generalizing b with
  | nil => exact pure b
  | cons a l ih =>
    rw [List.foldlM_cons]
    exact (hf b a).bind ih

theorem orElseRun {x : Run (Option α)} {y : Run α} (hx : x.Accounts N) (hy : y.Accounts N) :
    (x.orElseRun y).Accounts N := by
  refine hx.bind fun a? => ?_
  cases a? with
  | none => exact hy
  | some a => exact pure a

theorem within {act : Run Unit} {method : String} {pre : Heap} (hact : act.Accounts N) :
    (Run.within method pre act).Accounts N := by
  intro s hs hover
  have hpush : s.IsSilent (s.push method pre) := ⟨rfl, rfl, rfl⟩
  refine (Engine.Judgement.within_ensures (hact _ (hs.of_isSilent hpush) hover)).imp ?_ ?_
  · rintro p? t ⟨u, ⟨hu, hover'⟩, hpop⟩
    have ht := u.isSilent_pop
    rw [hpop] at ht
    exact ⟨hu.of_isSilent ht, fun h => hover' (ht.isOverrun_iff.1 h)⟩
  · rintro e t ⟨u, ⟨hu, hiff⟩, rfl⟩
    exact ⟨hu.of_isSilent u.isSilent_pop, hiff.trans u.isSilent_pop.isOverrun_iff.symm⟩

/-- A state is taken up. If the bound is reached, then this is the end. -/
theorem bind_checkLimits {clock : Session → Reading} {f : Unit → Run α}
    (hf : ∀ s : Session, s.IsSound N → ¬s.IsOverrun N → s.effort < N → (f ()).AccountsAt N s) :
    (checkLimits clock >>= f).Accounts N := by
  intro s hs hover
  have hcheck : s.limits.check (clock s) s.effort =
      (s.limits, if N ≤ s.effort then some (.states N) else none) := by
    rw [hs.limits, Limits.check, Limit.check]
    split
    · next heq =>
      obtain ⟨rfl, hreason⟩ := Prod.mk.inj heq
      rw [hreason]
    · next heq =>
      obtain ⟨rfl, hreason⟩ := Prod.mk.inj heq
      rw [hreason, Limits.check]
  have hsound : (s.note .taken).IsSound N := hs.extend rfl rfl rfl fun h => by cases h
  have hiff : (s.note .taken).IsOverrun N ↔ _ := Session.isOverrun_extend rfl
  rw [AccountsAt, ensures_bind, checkLimits, ensures_bind, ensures_get]
  dsimp only
  rw [hcheck, ensures_bind, ensures_set]
  by_cases hle : N ≤ s.effort
  · rw [if_pos hle]
    exact ⟨hsound, iff_of_true rfl (hiff.2 (.inl ⟨rfl, hle⟩))⟩
  · rw [if_neg hle]
    exact hf _ hsound (fun h => (hiff.1 h).elim (fun h => hle h.2) hover) (Nat.lt_of_not_le hle)

end Accounts

end Run

namespace Engine

open Run

variable {E : Engine} {N : Nat}

/-! ## The functions of the engine, one after the other -/

section

variable {call : CallHandler} (hcall : ∀ site h, (call site h).Accounts N)

include hcall

theorem accounts_runFrom (stmt : Statement) (r : E.Space × List StateId) (source : StateId × Heap) :
    (E.runFrom call stmt r source).Accounts N := by
  have hsuccessors : (successors call stmt source.2).Accounts N := by
    rw [successors]
    cases stmt.step source.2 with
    | moves next => exact .pure next
    | call site => exact (hcall site source.2).bind fun _ => .pure _
    | fault => exact .throw (by simp)
  exact hsuccessors.bind fun next => .foldlM (fun r p =>
    .insertion fun s => ensures_addSuccessor.2 rfl) next _

theorem accounts_expand (m : Method) (sp : E.Space) (id : StateId) :
    (E.expand call m sp id).Accounts N := by
  rw [expand]
  dsimp only
  cases statementAt? m ((sp.state? id).getD default) with
  | none => exact .pure _
  | some stmt =>
    have hruns (r : E.Space × List (StateId × Heap)) :
        (r.2.foldlM (E.runFrom call stmt) (r.1, [])).Accounts N :=
      .foldlM (accounts_runFrom hcall stmt) _ _
    refine (Accounts.quiet (isQuiet_variants E stmt _)).bind fun variants => ?_
    split
    · exact (Accounts.pure _).bind hruns
    · exact (Accounts.foldlM (fun r h =>
        .insertion fun s => ensures_addVariant.2 rfl) variants _).bind hruns

theorem accountsAt_visit (m : Method) (sp : E.Space) (id : StateId) {s : Session}
    (hs : s.IsSound N) (hover : ¬s.IsOverrun N) (hlt : s.effort < N) :
    (E.visit call m sp id).AccountsAt N s := by
  rw [visit]
  split
  · exact Accounts.pure _ s hs hover
  · have hnote : (Run.note .expanding).AccountsAt N s := by
      refine ⟨hs.extend rfl rfl rfl fun _ => hlt, fun h => ?_⟩
      exact ((Session.isOverrun_extend rfl).1 h).elim (fun h => by cases h.1) hover
    exact hnote.bind fun _ => accounts_expand hcall m sp id

/-- Each state that waits is taken up below the bound, or the exploration ends there. -/
theorem accounts_explore (m : Method) (steps : Nat) (sp : E.Space) (S : Search) :
    (E.explore call m steps sp S).Accounts N := by
  induction steps generalizing sp S with
  | zero => exact .throw (by simp)
  | succ steps ih =>
    cases hstack : S.stack with
    | nil =>
      rw [explore_nil hstack]
      exact .pure _
    | cons id stack =>
      rw [explore_cons hstack]
      refine .bind_checkLimits fun s hs hover hlt =>
        (accountsAt_visit hcall m sp id hs hover hlt).bind fun r => ?_
      rw [proceed]
      refine Accounts.bind (.quiet (isQuiet_modify fun _ => ⟨rfl, rfl, rfl⟩)) fun _ => ?_
      split
      · exact .pure _
      · exact ih _ _

theorem accounts_generateWith (steps : Nat) (method : String) (heaps : List Heap) (S : Search) :
    (E.generateWith call steps method heaps S).Accounts N := by
  rw [generateWith]
  cases E.program.method? method with
  | none => exact .throw (by simp)
  | some m =>
    dsimp only
    split
    · exact .throw (by simp)
    · exact (Accounts.foldlM (fun r h =>
        .insertion fun s => ensures_addStart.2 rfl) heaps _).bind fun r =>
          accounts_explore hcall m steps r.1 r.2

theorem accounts_settle (steps : Nat) (method : String) (pre : Heap) (rounds : Nat) :
    (E.settle call steps method pre rounds).Accounts N := by
  induction rounds with
  | zero => exact .throw (by simp)
  | succ rounds ih =>
    rw [settle]
    refine (accounts_generateWith hcall steps method [pre] .depthFirst).bind fun r =>
      (Accounts.quiet (isQuiet_join _)).bind fun again => ?_
    split
    · exact ih
    · exact .pure _

theorem accounts_conclude (steps : Nat) (method : String) (pre : Heap) :
    (E.conclude call steps method pre).Accounts N := by
  refine (Accounts.within (accounts_settle hcall steps method pre steps)).bind fun p? => ?_
  cases p? with
  | none => exact .pure _
  | some p =>
    dsimp only
    split
    · exact .pure _
    · have hrecord := isQuiet_modify (g := (·.record method pre p.posts)) fun _ => ⟨rfl, rfl, rfl⟩
      exact .quiet (isQuiet_access.bind fun _ => hrecord.bind fun _ => isQuiet_pure _)

theorem accounts_postconditions (steps : Nat) (method : String) (pre : Heap) :
    (E.postconditions call steps method pre).Accounts N := by
  rw [Judgement.postconditions_eq]
  exact .orElseRun (.quiet (isQuiet_remembered E method pre)) (.orElseRun
    (accounts_conclude hcall steps method _) (.orElseRun (.quiet (isQuiet_lookup E method pre))
      (.throw (by simp))))

end

theorem accounts_invoke (E : Engine) (steps : Nat) (site : CallSite) (h : Heap) :
    (E.invoke steps site h).Accounts N := by
  induction steps generalizing site h with
  | zero => exact .throw (by simp)
  | succ steps ih =>
    rw [invoke]
    split
    · exact .pure _
    · cases E.program.method? site.method with
      | none => exact .throw (by simp)
      | some m =>
        exact (accounts_postconditions ih steps site.method _).bind fun a =>
          (Accounts.quiet (isQuiet_refine E site.method _ a)).bind fun _ => .pure _

/-- The effort of a run with a bound on states and no other bound. The notes of the run show that the
effort is at all times the number of new states in all generations of the run so far, also of those
whose spaces are thrown away; that no expansion begins when the bound is reached; and that the run is
stopped by the bound just if a generation takes up a waiting state when the bound is reached. -/
theorem effort_of_generate (E : Engine) {s : Session} {N : Nat} (hN : 0 < N)
    (hs : s.limits = .ofNumbers N 0 0) (steps : Nat) (method : String) (heaps : List Heap) :
    ∃ r t, (E.generate steps method heaps).outcome s = (r, t) ∧ t.effort = found t.notes ∧
      (∀ later n earlier, t.notes = later ++ n :: earlier → n.effort = found earlier) ∧
      (∀ n ∈ t.notes, n.event = .expanding → n.effort < N) ∧
      (r = .error (.aborted (.states N)) ↔ ∃ n ∈ t.notes, n.event = .taken ∧ N ≤ n.effort) := by
  have hlimits : s.limits = [.states N] := by
    rw [hs, Limits.ofNumbers, if_pos hN]
    rfl
  -- the run begins without notes and sets the effort to zero
  have hstart : s.restart.IsSound N :=
    ⟨hlimits, rfl, by simp [Session.restart], by simp [Session.restart]⟩
  have hgenerate : (E.generate steps method heaps).AccountsAt N s := by
    rw [generate, restart, AccountsAt, ensures_bind, ensures_modify]
    exact ((accounts_generateWith (accounts_invoke E steps) steps method heaps .depthFirst).bind
      fun r => .pure r.1) _ hstart (by simp [Session.IsOverrun, Session.restart])
  rcases heq : (E.generate steps method heaps).outcome s with ⟨e | sp, t⟩
  · obtain ⟨ht, hiff⟩ := hgenerate.of_error heq
    exact ⟨_, t, rfl, ht.effort, ht.notes, ht.expanding, Except.error.injEq e _ ▸ hiff⟩
  · obtain ⟨ht, hover⟩ := hgenerate.of_ok heq
    exact ⟨_, t, rfl, ht.effort, ht.notes, ht.expanding, iff_of_false (by simp) hover⟩

/-- The construction of a list takes up the initial state of a recursive call when four states are
known, and is stopped there by a bound of four states. -/
theorem effort_of_generate_building : ∃ t,
    (buildingEngine.generate 20 "build" [Heap.empty]).outcome { limits := [.states 4] } =
      (.error (.aborted (.states 4)), t) ∧
    t.effort = found t.notes ∧ ∃ n ∈ t.notes, n.event = .taken ∧ 4 ≤ n.effort := by
  obtain ⟨r, t, hrun, heffort, -, -, hiff⟩ := buildingEngine.effort_of_generate
    (s := { limits := [.states 4] }) (N := 4) (by decide) rfl 20 "build" [Heap.empty]
  have hstopped : ((buildingEngine.generate 20 "build" [Heap.empty]).outcome
      { limits := [.states 4] }).1.map (fun _ => ()) = .error (.aborted (.states 4)) := by
    decide +kernel
  rw [hrun] at hstopped
  rcases r with e | sp
  · obtain rfl := Except.error.inj hstopped
    exact ⟨t, hrun, heffort, hiff.1 rfl⟩
  · cases hstopped

end Engine

end ShapeCheck
