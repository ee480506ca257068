import ShapeCheck.Proofs.Nesting

/-!
# Contracts are reused without a trace

Two sessions at rest may have recorded different contracts, because their runs were made in another
order, failed at another place or started from other heaps. But all contracts are exact, so both
answer every call by the same heaps, whether from a recorded contract or from a new one. Therefore a
generation finds the same space in both, and so does a task that finds what other tasks have recorded
since it started.
-/

namespace ShapeCheck.Engine

open Code

variable {E : Engine} {s t u : Session} {method : String} {heaps : List Heap} {steps : Nat}
  {sp : E.Space}

section Exact

variable (hdepth : E.abstraction.depth = 0) (hP : E.program.IsUnreserved)

theorem ignoresCounts_rests {J : Judgement E} : Run.IgnoresCounts J.Rests :=
  fun _ _ hs ht => ⟨hs.admits.counted ht, ht.stack.trans hs.stack⟩

theorem CallAnswer.eq_of_settles {site : CallSite} {g : Heap} {results results' : List Heap}
    (h : E.CallAnswer (unnarrowed hdepth hP).Settles site g results)
    (h' : E.CallAnswer (unnarrowed hdepth hP).Settles site g results') : results = results' := by
  obtain ⟨hskip, rfl⟩ | ⟨hskip, m, posts, hm, hposts, rfl⟩ := h <;>
    obtain ⟨hskip', rfl⟩ | ⟨hskip', m', posts', hm', hposts', rfl⟩ := h'
  · rfl
  · exact absurd hskip hskip'
  · exact absurd hskip' hskip
  · obtain rfl := Option.some.inj (hm.symm.trans hm')
    rw [eq_of_isComplete hposts.allows (hposts.covers trivial) hposts'.allows
      (hposts'.covers trivial)]

theorem invoke_ensures (hs : (unnarrowed hdepth hP).Rests s) (site : CallSite) {g : Heap}
    (hg : g.IsRegular) : (E.invoke steps site g).Ensures s
      (fun results t => (unnarrowed hdepth hP).Rests t ∧
        E.CallAnswer (unnarrowed hdepth hP).Settles site g results) fun _ _ => True := by
  refine ((unnarrowed hdepth hP).isObeyed_invoke steps s site g hs.admits.follows ⟨hg, trivial⟩).imp
    (fun results t ⟨ht, hanswer⟩ => ?_) fun _ _ _ => trivial
  have hrests := (hs.passes ht).rests
  exact ⟨hrests, CallAnswer.mono (fun _ _ _ => hrests.settles) site g results hanswer⟩

theorem invoke_agree {site : CallSite} {g : Heap} (hg : g.IsRegular)
    (hs : (unnarrowed hdepth hP).Rests s) (ht : (unnarrowed hdepth hP).Rests t) (steps steps' : Nat) :
    Run.AgreeFrom (unnarrowed hdepth hP).Rests (E.invoke steps site g) (E.invoke steps' site g) s
      t := by
  intro results s' hresults results' t' hresults'
  obtain ⟨hs', hanswer⟩ := (invoke_ensures hdepth hP hs site hg).of_ok hresults
  obtain ⟨ht', hanswer'⟩ := (invoke_ensures hdepth hP ht site hg).of_ok hresults'
  exact ⟨hanswer.eq_of_settles hdepth hP hanswer', hs', ht'⟩

theorem generate_agree (hheaps : ∀ h ∈ heaps, h.IsRegular) (hs : (unnarrowed hdepth hP).Rests s)
    (ht : (unnarrowed hdepth hP).Rests t) (steps steps' : Nat) :
    Run.AgreeFrom (unnarrowed hdepth hP).Rests (E.generate steps method heaps)
      (E.generate steps' method heaps) s t := by
  intro sp u hsp sp' u' hsp'
  obtain ⟨_, _, ⟨⟩, hsp⟩ := Run.exists_of_outcome_bind hsp
  obtain ⟨r, _, hr, ⟨⟩⟩ := Run.exists_of_outcome_bind hsp
  obtain ⟨_, _, ⟨⟩, hsp'⟩ := Run.exists_of_outcome_bind hsp'
  obtain ⟨r', _, hr', ⟨⟩⟩ := Run.exists_of_outcome_bind hsp'
  have hover : (unnarrowed hdepth hP).Oversees
      ⟨steps, s.restart, method, heaps, .depthFirst⟩ :=
    ⟨hs.restart.admits, suited_unnarrowed hdepth hP hheaps, Search.isBelow_depthFirst⟩
  obtain ⟨rfl, hu⟩ := (E.matches_generateWith steps steps' method heaps .depthFirst).agree
    ignoresCounts_rests hs.restart ht.restart (fun site g v v' hcalls hv hv' =>
      invoke_agree hdepth hP (hover.calls hcalls).1.1 hv hv' steps steps') r u hr r' u' hr'
  exact ⟨rfl, hu⟩

theorem exists_method_of_generate (hsp : (E.generate steps method heaps).outcome s = (.ok sp, u)) :
    ∃ m, E.program.method? method = some m ∧ heaps ≠ [] := by
  obtain ⟨_, t, -, hrun⟩ := Run.exists_of_outcome_bind hsp
  obtain ⟨r, t', hsearch, -⟩ := Run.exists_of_outcome_bind hrun
  exact exists_method_of_generateWith hsearch

theorem generate_ensures_eq (hheaps : ∀ h ∈ heaps, h.IsRegular)
    (hs : (unnarrowed hdepth hP).Rests s) (ht : (unnarrowed hdepth hP).Rests t)
    (hlimits : t.limits = []) (hsp : (E.generate steps method heaps).outcome s = (.ok sp, u))
    (steps' : Nat) :
    (E.generate steps' method heaps).Ensures t (fun sp' _ => sp' = sp)
      fun e _ => e = .outOfSteps := by
  obtain ⟨m, hm, hne⟩ := exists_method_of_generate hsp
  have hsuited : (unnarrowed hdepth hP).Suited (method, heaps) := suited_unnarrowed hdepth hP hheaps
  obtain ⟨-, hexplored⟩ := (Judgement.generate_ensures steps hm hne (hsuited m hm) hs).of_ok hsp
  refine .of_outcome (fun sp' t' hsp' => ?_) fun e t' he => ?_
  · exact (generate_agree hdepth hP hheaps hs ht steps steps' sp u hsp sp' t' hsp').1.symm
  · obtain ⟨-, hstop | hstuck⟩ :=
      (Judgement.generate_ensures steps' hm hne (hsuited m hm) ht).of_error he
    · exact hstop.resolve_right fun h => h.1 hlimits
    · -- A space has been found, so no state is stuck.
      refine absurd hstuck (hexplored.not_isStuck_callAnswer fun callee _ pre posts hposts => ?_)
      refine ⟨fun ⟨n, hn⟩ => (hposts.covers trivial n).not_mayFail hn, ?_⟩
      intro posts' hposts' q hq
      obtain ⟨n, hn⟩ := (hposts' q hq).returned
      exact (hposts.covers trivial n).mem q hn

/-- A task that shares contracts finds what it finds alone, unless its steps are used up. -/
theorem result_of_work {contracts : ContractStore} {tasks : List (String × List Heap)}
    (htasks : ∀ task ∈ tasks, ∀ h ∈ task.2, h.IsRegular) (hs : (unnarrowed hdepth hP).Rests s)
    (hcontracts : (unnarrowed hdepth hP).IsRight contracts) (hlimits : E.settings.limits = [])
    (hsp : (E.generate steps method heaps).outcome s = (.ok sp, u)) {i : Nat}
    (hi : tasks[i]? = some (method, heaps)) (steps' : Nat) (turns : List Turn) :
    ∃ w, (E.work steps' contracts tasks turns).2[i]? = some w ∧ w.method = method ∧
      (w.result = .ok sp ∨ w.result = .error .outOfSteps) := by
  have hwork := E.map_work steps' contracts tasks turns
  have hget : ((E.work steps' contracts tasks turns).2[i]?).map (fun w => (w.method, w.heaps)) =
      some (method, heaps) := by
    rw [← List.getElem?_map, hwork, hi]
  obtain ⟨w, hw, heq⟩ := Option.map_eq_some_iff.1 hget
  obtain ⟨rfl, rfl⟩ := Prod.mk.inj heq
  refine ⟨w, hw, rfl, ?_⟩
  have hshares : (unnarrowed hdepth hP).Shares steps' (E.work steps' contracts tasks turns) :=
    Judgement.shares_work hcontracts (fun task htask => suited_unnarrowed hdepth hP (htasks task htask))
      turns
  have hheaps := htasks _ (mem_tasks_of_mem_work (List.mem_of_getElem? hw))
  rcases hshares.result w (List.mem_of_getElem? hw) with hout | ⟨t, ht, htlimits, hresult⟩
  · exact .inr hout
  · have heq := generate_ensures_eq hdepth hP hheaps hs ht (htlimits.trans hlimits) hsp steps'
    rcases hx : (E.generate steps' w.method w.heaps).outcome t with ⟨e | sp', t'⟩
    · rw [hresult, hx, heq.of_error hx]
      exact .inr rfl
    · rw [hresult, hx, heq.of_ok hx]
      exact .inl rfl

end Exact

/-- Without bounds, if an engine that has made no run finds a space from regular heaps, then after
any runs from regular heaps, however these ended, it finds the same space. This is also true of a task
that runs while others record contracts, in whatever order they get at them; and the runs before may
have been made by such tasks. -/
theorem generate_after_runs {source : String} {ops : List Operation}
    (hsource : compile source = .ok E.program) (hdepth : E.abstraction.depth = 0)
    (hlimits : E.settings.limits = []) (hheaps : ∀ h ∈ heaps, h.IsRegular)
    (hops : ∀ op ∈ ops, op.isRun ∧ op.IsRegular)
    (hsp : (E.generate steps method heaps).outcome E.session = (.ok sp, t)) (steps' : Nat) :
    (E.generate steps' method heaps).Ensures (E.after E.session ops) (fun sp' _ => sp' = sp)
      (fun e _ => e = .outOfSteps) ∧
    ∀ schedule tasks (i : Nat), (∀ task ∈ tasks, ∀ h ∈ task.2, h.IsRegular) →
      tasks[i]? = some (method, heaps) → ∃ r : Except GenerationError E.Space,
        ((E.generateAll steps' schedule tasks).run (E.after E.session ops)).1[i]? =
          some (method, r) ∧ (r = .ok sp ∨ r = .error .outOfSteps) := by
  have hP := isUnreserved_of_compile hsource
  have hleaves := leaves_after_runs hdepth hP Judgement.rests_session hops
  refine ⟨generate_ensures_eq hdepth hP hheaps Judgement.rests_session hleaves.rests
    (hleaves.limits hlimits) hsp steps', fun schedule tasks i htasks hi => ?_⟩
  obtain ⟨w, hw, rfl, hresult⟩ := result_of_work hdepth hP htasks Judgement.rests_session
    hleaves.rests.admits.contracts hlimits hsp hi steps' (turnsOf schedule tasks.length)
  refine ⟨w.result, ?_, hresult⟩
  exact (List.getElem?_map ..).trans (congrArg (Option.map _) hw)

/-- Two tasks that build a list. The second one gets at the contracts when the first one has recorded
a contract but is not at its end. -/
def buildingTasks : List (String × List Heap) :=
  [("build", [Heap.empty]), ("build", [Heap.empty])]

/-- The turns of the tasks. -/
def buildingSchedule : List Turn :=
  [⟨0, false⟩, ⟨0, false⟩, ⟨1, false⟩]

example : (buildingEngine.work 20 {} buildingTasks buildingSchedule).2.map
    (fun w => w.result.toOption.isSome) = [false, true] := by
  decide +kernel

theorem isRegular_of_mem_buildingTasks : ∀ task ∈ buildingTasks, ∀ h ∈ task.2, h.IsRegular := by
  simpa [buildingTasks] using Heap.isRegular_empty

/-- The method that builds a list is run as before, alone and as the second of two tasks, after a run
that was out of steps, one that recorded its contract, and two tasks that shared theirs. -/
theorem generate_after_runs_building : ∃ sp t,
    (buildingEngine.generate 20 "build" [Heap.empty]).outcome buildingEngine.session = (.ok sp, t) ∧
    let s := buildingEngine.after buildingEngine.session
      (buildingRuns ++ [.generateAll 20 buildingSchedule buildingTasks])
    (buildingEngine.generate 20 "build" [Heap.empty]).Ensures s (fun sp' _ => sp' = sp)
      (fun e _ => e = .outOfSteps) ∧
    ∃ r : Except GenerationError buildingEngine.Space,
      ((buildingEngine.generateAll 20 buildingSchedule buildingTasks).run s).1[1]? =
        some ("build", r) ∧ (r = .ok sp ∨ r = .error .outOfSteps) := by
  have hok : ((buildingEngine.generate 20 "build" [Heap.empty]).outcome
      buildingEngine.session).1.toOption.isSome := by decide +kernel
  obtain ⟨sp, t, hsp⟩ := Run.exists_outcome_eq_ok hok
  have hops : ∀ op ∈ buildingRuns ++ [.generateAll 20 buildingSchedule buildingTasks],
      op.isRun ∧ op.IsRegular :=
    List.forall_mem_append.2 ⟨isRegular_of_mem_buildingRuns,
      List.forall_mem_singleton.2 ⟨rfl, isRegular_of_mem_buildingTasks⟩⟩
  have h := generate_after_runs compile_buildingSource rfl rfl
    (List.forall_mem_singleton.2 Heap.isRegular_empty) hops hsp 20
  exact ⟨sp, t, hsp, h.1, h.2 buildingSchedule buildingTasks 1 isRegular_of_mem_buildingTasks rfl⟩

end ShapeCheck.Engine
