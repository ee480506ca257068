import ShapeCheck.Code.Proposition
import ShapeCheck.Proofs.PartialSpace
import ShapeCheck.Proofs.Reuse

/-!
# Checking on the fly and afterwards

Properties can be checked on the fly, each with a generation of its own that goes only as far as the
verdict needs, or afterwards on one full space. The later generations on the fly find contracts that
the earlier ones have recorded. But in a session at rest calls have one answer only, whatever has
been recorded, so all generations draw parts of one chart. Hence the two ways of checking agree on
every property.
-/

namespace ShapeCheck

open List

theorem Run.Ensures.mapM {α β : Type} {f : α → Run β} {I : Session → Prop} {Q : α → β → Prop}
    {F : GenerationError → Session → Prop} {l : List α} {s : Session}
    (hf : ∀ a ∈ l, ∀ s, I s → (f a).Ensures s (fun b t => I t ∧ Q a b) F) (hs : I s) :
    (l.mapM f).Ensures s (fun bs t => I t ∧ List.Forall₂ Q l bs) F := by
  induction l generalizing s with
  | nil => exact ⟨hs, .nil⟩
  | cons a l ih =>
    rw [mapM_cons, Run.ensures_bind]
    refine (hf a mem_cons_self s hs).imp (fun b t ⟨ht, hb⟩ => ?_) fun _ _ h => h
    rw [Run.ensures_bind]
    exact (ih (fun a' ha' => hf a' (mem_cons_of_mem _ ha')) ht).imp
      (fun bs u ⟨hu, hbs⟩ => ⟨hu, .cons hb hbs⟩) fun _ _ h => h

/-- Only states that carry an obligation have been expanded. -/
def StateSpace.ExpandsObliged {fp : State → Nat} (sp : StateSpace fp) (labels : Labelling)
    (a : Formula) : Prop :=
  ∀ i u, sp.isExpanded i → sp.state? i = some u → u.unfolded = false →
    ∃ q, (sp.obligations labels a).Arises q ∧ q.state = i

namespace Engine

open Code

namespace Judgement

variable {E : Engine} {J : Judgement E} {m : Method} {heaps : List Heap}

/-- The protocol of sessions at rest: calls are answered by postconditions that are right without any
provision. -/
def resting (J : Judgement E) : Protocol where
  Later s t := J.Rests s ∧ J.Passes s t
  Asks := J.Fit
  Answers _ := E.CallAnswer J.Settles
  Refuses := E.CallRefusal J.Fails
  trans h h' := ⟨h.1, h.2.trans h'.2⟩
  self h := ⟨h.2.rests, .refl h.2.rests⟩
  limits h := h.2.limits
  count h hu := ⟨h.1, h.2.toPrecedes.trans hu.precedes, ignoresCounts_rests _ _ h.2.rests hu⟩
  answers _ h := h

theorem isReady_resting (hsuits : J.Suits m heaps) (steps : Nat) :
    IsReady J.resting E (E.invoke steps) m heaps where
  obeyed s site g hs hfit := by
    refine (J.isObeyed_invoke steps s site g hs.1.admits.follows hfit).imp
      (fun results t ⟨ht, hanswer⟩ => ?_) fun e t ⟨ht, he⟩ => ⟨⟨hs.1, hs.1.passes ht⟩, he⟩
    have hpasses := hs.1.passes ht
    have hgranted : E.CallAnswer (J.Grants t) site g results := hanswer
    exact ⟨⟨hs.1, hpasses⟩,
      CallAnswer.mono (fun _ _ _ => hpasses.rests.settles) site g results hgranted⟩
  asks s _ g i stmt site hreached := hsuits g i stmt site
    (hreached.mono (CallAnswer.mono fun _ _ _ hsettles => hsettles.allows))

end Judgement

/-- The engine that checks properties while states are generated, or afterwards. -/
abbrev setOnTheFly (E : Engine) (b : Bool) : Engine :=
  { E with settings := { E.settings with onTheFly := b } }

variable {E : Engine} {b : Bool}

theorem explore_setOnTheFly (call : CallHandler) (m : Code.Method) (steps : Nat) (sp : E.Space)
    (S : Search) : (E.setOnTheFly b).explore call m steps sp S = E.explore call m steps sp S := by
  induction steps generalizing sp S with
  | zero => rfl
  | succ steps ih =>
    rw [explore, explore]
    simp only [ih]
    rfl

section

variable (call : CallHandler) (steps : Nat) (method : String)

theorem generateWith_setOnTheFly (heaps : List Heap) (S : Search) :
    (E.setOnTheFly b).generateWith call steps method heaps S =
      E.generateWith call steps method heaps S := by
  rw [generateWith, generateWith]
  simp only [explore_setOnTheFly]
  rfl

theorem settle_setOnTheFly (pre : Heap) (rounds : Nat) :
    (E.setOnTheFly b).settle call steps method pre rounds =
      E.settle call steps method pre rounds := by
  induction rounds with
  | zero => rfl
  | succ rounds ih =>
    rw [settle, settle]
    simp only [ih, generateWith_setOnTheFly]
    rfl

theorem conclude_setOnTheFly (pre : Heap) :
    (E.setOnTheFly b).conclude call steps method pre = E.conclude call steps method pre := by
  rw [conclude, conclude]
  simp only [settle_setOnTheFly]

theorem postconditions_setOnTheFly (pre : Heap) :
    (E.setOnTheFly b).postconditions call steps method pre =
      E.postconditions call steps method pre := by
  rw [postconditions, postconditions]
  simp only [conclude_setOnTheFly]
  rfl

end

theorem invoke_setOnTheFly (steps : Nat) : (E.setOnTheFly b).invoke steps = E.invoke steps := by
  funext site h
  induction steps generalizing site h with
  | zero => rfl
  | succ steps ih =>
    have hih : (E.setOnTheFly b).invoke steps = E.invoke steps := funext₂ ih
    rw [invoke, invoke]
    simp only [hih, postconditions_setOnTheFly]
    rfl

theorem search_setOnTheFly : (E.setOnTheFly b).search = E.search := by
  funext steps method heaps S
  rw [search, search, generateWith_setOnTheFly, invoke_setOnTheFly]

variable {steps : Nat} {labels : Labelling} {method : String} {heaps : List Heap}
  {properties : List Property} {s t : Session} {r : Report E.fingerprint}

/-- What a verification does: a generation for each property, or one generation for all. -/
theorem exists_of_verify
    (h : ((E.setOnTheFly b).verify steps labels method heaps properties).outcome s = (.ok r, t)) :
    (b ∧ E.wanted properties ≠ [] ∧ ∃ outcomes u,
      ((E.wanted properties).mapM (E.checkOnTheFly steps labels method heaps)).outcome
        s.restart = (.ok outcomes, u) ∧
      r.space = (outcomes.getLast?.map Prod.fst).getD {} ∧ r.results = outcomes.map Prod.snd) ∨
    ((b → E.wanted properties = []) ∧ ∃ x u,
      (E.search steps method heaps .depthFirst).outcome s.restart = (.ok x, u) ∧
      r.space = x.1 ∧ r.results = (E.wanted properties).map (checkOffline labels x.1)) := by
  obtain ⟨_, s', hrestart, h⟩ := Run.exists_of_outcome_bind h
  obtain rfl : s.restart = s' := congrArg Prod.snd hrestart
  dsimp only at h
  have hcheck : (E.setOnTheFly b).checkOnTheFly steps labels method heaps =
      E.checkOnTheFly steps labels method heaps := by
    funext p
    rw [checkOnTheFly, checkOnTheFly, search_setOnTheFly]
  rw [hcheck, search_setOnTheFly] at h
  change Run.outcome (if b && !(E.wanted properties).isEmpty then _ else _) _ = _ at h
  split at h
  · next hb =>
    obtain ⟨outcomes, u, houtcomes, h⟩ := Run.exists_of_outcome_bind h
    obtain rfl := Except.ok.inj (congrArg Prod.fst h)
    simp only [Bool.and_eq_true, Bool.not_eq_true', isEmpty_eq_false_iff] at hb
    exact .inl ⟨hb.1, hb.2, outcomes, u, houtcomes, rfl, rfl⟩
  · next hb =>
    obtain ⟨x, u, hx, h⟩ := Run.exists_of_outcome_bind h
    obtain rfl := Except.ok.inj (congrArg Prod.fst h)
    exact .inr ⟨fun htrue => by simpa [htrue] using hb, x, u, hx, rfl, rfl⟩

/-- The result of a check on the fly is that of a check of the full space, and only states that carry
a sequent have been expanded. -/
structure IsCheckOf (labels : Labelling) (sp : E.Space) (p : Property) (r : E.Space × PropertyResult) :
    Prop where
  name : r.2.name = p.name
  verdict : r.2.verdict = .satisfied ↔ sp.check labels p.formula = .satisfied
  obliged : r.1.ExpandsObliged labels p.formula

theorem name_of (sp : E.Space) (name : String) (v : Verdict) :
    (PropertyResult.of sp name v).name = name := by
  cases v <;> rfl

theorem verdict_of (sp : E.Space) (name : String) (v : Verdict) :
    (PropertyResult.of sp name v).verdict = v := by
  cases v <;> rfl

section Exact

variable (hdepth : E.abstraction.depth = 0) (hP : E.program.IsUnreserved)

theorem isFunctional_settles :
    IsFunctional (E.CallAnswer (unnarrowed hdepth hP).Settles) :=
  fun _ _ _ _ h h' => h.eq_of_settles hdepth hP h'

variable {m : Method} {sp : E.Space} (hm : E.program.method? method = some m) (hne : heaps ≠ [])
  (hheaps : ∀ h ∈ heaps, h.IsRegular)

include hm hne hheaps

theorem search_ensures_isDrawn (hs : (unnarrowed hdepth hP).Rests s) (steps : Nat) :
    (E.search steps method heaps .depthFirst).Ensures s (fun r _ =>
      IsDrawn E m (E.CallAnswer (unnarrowed hdepth hP).Settles) heaps r.1 ∧
        ∀ i, i < r.1.size → r.1.isExpanded i) fun _ _ => True := by
  have hsuited : (unnarrowed hdepth hP).Suited (method, heaps) := suited_unnarrowed hdepth hP hheaps
  have hready := Judgement.isReady_resting (hsuited m hm) steps
  have hlater : (unnarrowed hdepth hP).resting.Later s s := ⟨hs, .refl hs⟩
  exact (depthFirst_ensures hm hne hready hlater).imp (fun _ _ hr => ⟨hr.1, hr.2.1⟩)
    fun _ _ _ => trivial

theorem checkOnTheFly_ensures (hs : (unnarrowed hdepth hP).Rests s) (steps : Nat)
    (labels : Labelling)
    (hsp : IsDrawn E m (E.CallAnswer (unnarrowed hdepth hP).Settles) heaps sp)
    (hfull : ∀ i, i < sp.size → sp.isExpanded i) (p : Property) :
    (E.checkOnTheFly steps labels method heaps p).Ensures s (fun r t =>
      (unnarrowed hdepth hP).Rests t ∧ IsCheckOf labels sp p r) fun _ _ => True := by
  have hsuited : (unnarrowed hdepth hP).Suited (method, heaps) := suited_unnarrowed hdepth hP hheaps
  have hready := Judgement.isReady_resting (hsuited m hm) steps
  have hlater : (unnarrowed hdepth hP).resting.Later s s := ⟨hs, .refl hs⟩
  rw [checkOnTheFly, Run.ensures_bind]
  refine ((Judgement.search_ensures steps hm hne (hsuited m hm) hs (Search.isBelow_onTheFly p.formula
    labels)).and (onTheFly_ensures steps labels p.formula hm hne hready hlater fun _ =>
      isFunctional_settles hdepth hP)).imp ?_ fun _ _ _ => trivial
  rintro ⟨sp', v?⟩ t ⟨⟨hpasses, -⟩, hdrawn, T, hT, rfl⟩
  refine ⟨hpasses.rests, name_of _ _ _, ?_, fun i u hi hu hunf => ?_⟩
  · rw [verdict_of]
    exact hT.verdict_eq_satisfied_iff (isFunctional_settles hdepth hP) hdrawn hsp hfull
  · obtain ⟨n, hn, rfl⟩ := hT.carries i u hi hu hunf
    obtain ⟨q, ⟨-, rfl⟩, hq⟩ := hT.isDerived.isSimulation.arises (hT.isDerived.arises hn)
    exact ⟨_, hq, rfl⟩

end Exact

theorem isSatisfied_eq_iff {v v' : Verdict} :
    v.isSatisfied = v'.isSatisfied ↔ (v = .satisfied ↔ v' = .satisfied) := by
  cases v <;> cases v' <;> simp [Verdict.isSatisfied]

/-- If verifications on the fly and afterwards both end well, starting from regular heaps without any
contracts, then they have results for the same properties and agree on each of them. The one on the
fly has a generation for each property, and expands only states that carry an obligation there. -/
theorem verify_onTheFly_agrees {source : String} {steps' : Nat} {t' : Session}
    {r : Report (E.setOnTheFly true).fingerprint} {r' : Report (E.setOnTheFly false).fingerprint}
    (hsource : compile source = .ok E.program)
    (hdepth : E.abstraction.depth = 0) (hheaps : ∀ h ∈ heaps, h.IsRegular)
    (hfly : ((E.setOnTheFly true).verify steps labels method heaps properties).outcome
      (E.setOnTheFly true).session = (.ok r, t))
    (hoff : ((E.setOnTheFly false).verify steps' labels method heaps properties).outcome
      (E.setOnTheFly false).session = (.ok r', t')) :
    r.results.map (fun p => (p.name, p.verdict.isSatisfied)) =
        r'.results.map (fun p => (p.name, p.verdict.isSatisfied)) ∧
      r.results.map PropertyResult.name = (E.wanted properties).map Property.name ∧
      ∃ outcomes u, ((E.wanted properties).mapM (E.checkOnTheFly steps labels method heaps)).outcome
          E.session.restart = (.ok outcomes, u) ∧
        r.results = outcomes.map Prod.snd ∧ (∀ x, outcomes.getLast? = some x → r.space = x.1) ∧
        List.Forall₂ (fun p x => x.1.ExpandsObliged labels p.formula) (E.wanted properties)
          outcomes := by
  have hP := isUnreserved_of_compile hsource
  have hrests : (unnarrowed hdepth hP).Rests E.session.restart := Judgement.rests_session.restart
  rcases exists_of_verify hoff with ⟨hfalse, -⟩ | ⟨-, x, u', hx, -, hresults'⟩
  · cases hfalse
  rcases exists_of_verify hfly with ⟨-, -, outcomes, u, houtcomes, hspace, hresults⟩ |
    ⟨hnil, y, u, -, -, hresults⟩
  · obtain ⟨m, hm, hne⟩ := exists_method_of_generateWith hx
    obtain ⟨hdrawn, hfull⟩ := (search_ensures_isDrawn hdepth hP hm hne hheaps hrests steps').of_ok hx
    obtain ⟨-, hall⟩ := (Run.Ensures.mapM (fun p _ _ hs => checkOnTheFly_ensures hdepth hP hm hne hheaps
      hs steps labels hdrawn hfull p) hrests).of_ok houtcomes
    have hmap {γ : Type} {f : Property → γ} {g : E.Space × PropertyResult → γ}
        (hfg : ∀ p r, IsCheckOf labels x.1 p r → g r = f p) :
        outcomes.map g = (E.wanted properties).map f := by
      have heq := forall₂_map_left_iff.2 (forall₂_map_right_iff.2
        (hall.imp fun p r hr => (hfg p r hr).symm))
      exact (forall₂_eq_eq_eq ▸ heq : (E.wanted properties).map f = outcomes.map g).symm
    refine ⟨?_, ?_, outcomes, u, houtcomes, hresults, fun o ho => ?_, hall.imp fun _ _ h => h.obliged⟩
    · rw [hresults, hresults', List.map_map, List.map_map]
      refine hmap fun p r hr => ?_
      simp only [Function.comp_apply, checkOffline, name_of, verdict_of, hr.name, Prod.mk.injEq,
        true_and]
      exact isSatisfied_eq_iff.2 hr.verdict
    · rw [hresults, List.map_map]
      exact hmap fun p r hr => hr.name
    · rw [hspace, ho]
      rfl
  · -- no property is checked
    rw [hresults, hresults', hnil rfl]
    exact ⟨rfl, rfl, [], _, rfl, rfl, nofun, .nil⟩

/-- At some time a cell is built, and at no time another list is at hand. -/
def buildingProperties : List Property :=
  [⟨"built", (Ltl.eventually (.atom "y")).normalize⟩,
    ⟨"unused", (Ltl.always (.not (.atom "x"))).normalize⟩]

/-- The first property holds and the second does not. -/
theorem verify_onTheFly_agrees_building : ∃ r t r' t',
    ((buildingEngine.setOnTheFly true).verify 20 variableLabels "build" [Heap.empty]
      buildingProperties).outcome (buildingEngine.setOnTheFly true).session = (.ok r, t) ∧
    ((buildingEngine.setOnTheFly false).verify 20 variableLabels "build" [Heap.empty]
      buildingProperties).outcome (buildingEngine.setOnTheFly false).session = (.ok r', t') ∧
    r.results.map (fun p => (p.name, p.verdict.isSatisfied)) = [("built", true), ("unused", false)] ∧
    r'.results.map (fun p => (p.name, p.verdict.isSatisfied)) =
      [("built", true), ("unused", false)] := by
  have hfly : (((buildingEngine.setOnTheFly true).verify 20 variableLabels "build" [Heap.empty]
      buildingProperties).outcome (buildingEngine.setOnTheFly true).session).1.toOption.any (fun r =>
        r.results.map (fun p => (p.name, p.verdict.isSatisfied)) =
          [("built", true), ("unused", false)]) := by
    decide +kernel
  have hoff : (((buildingEngine.setOnTheFly false).verify 20 variableLabels "build" [Heap.empty]
      buildingProperties).outcome (buildingEngine.setOnTheFly false).session).1.toOption.isSome := by
    decide +kernel
  obtain ⟨r', t', hr'⟩ := Run.exists_outcome_eq_ok hoff
  rcases hr : ((buildingEngine.setOnTheFly true).verify 20 variableLabels "build" [Heap.empty]
      buildingProperties).outcome (buildingEngine.setOnTheFly true).session with ⟨_ | r, t⟩
  · rw [hr] at hfly
    cases hfly
  · rw [hr] at hfly
    have hresults : r.results.map (fun p => (p.name, p.verdict.isSatisfied)) =
        [("built", true), ("unused", false)] := of_decide_eq_true hfly
    have hagree := (verify_onTheFly_agrees (E := buildingEngine) compile_buildingSource rfl
      (forall_mem_singleton.2 Heap.isRegular_empty) hr hr').1
    exact ⟨r, t, r', t', rfl, hr', hresults, hagree ▸ hresults⟩

end Engine

end ShapeCheck
