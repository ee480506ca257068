import ShapeCheck.Proofs.CallReturn
import ShapeCheck.Proofs.Contracts
import ShapeCheck.Proofs.Names

/-!
# A generated space describes all runs

If a state space has been generated without errors, then every heap that a run of the method comes to
is described by a state of the space at the same place, and no run goes through null. Postconditions
are judged by the runs of the callee: from a heap that the precondition describes, every run whose
calls nest less than `n` deep returns in a heap that one of them describes.
-/

namespace ShapeCheck

open Code Call List

variable {E : Engine} {A : Abstraction} {γ : String → Option Node} {h c : Heap}
  {stmt : Statement} {m : Method} {heaps : List Heap} {sp : E.Space} {n : Nat}

theorem Abstraction.isExposed_of_needsUnfolding {p : AccessPoint} (hp : stmt.accessPoint? = some p)
    (hneeds : stmt.needsUnfolding h = false) (hnull : ∀ e ∈ h.summaries, e.source? ≠ some Node.null) :
    A.IsExposed h p := by
  intro v hv
  have hvalue : h.valueOf (some p.base) = v := by rw [Heap.valueOf, Option.bind_some, hv]; rfl
  simp only [Statement.needsUnfolding, Statement.accessPoints, hp, Option.toList_some, any_cons,
    any_nil, Bool.or_false, hvalue, Bool.and_eq_false_iff] at hneeds
  by_cases hzero : v = Node.null
  · exact .inr fun _ _ _ e he _ => hzero ▸ hnull e he
  · refine or_iff_not_imp_left.2 fun hsome chain _ _ e he _ hsource => ?_
    have hstarts : h.startsSummary v = true := by
      rw [Heap.startsSummary, any_eq_true]
      exact ⟨e, he, by simp [hsource]⟩
    simp_all

/-- Unfolding at a point leaves the heap itself, or normal forms of heaps in which a summary has been
opened. The point is exposed in all of them. -/
theorem Abstraction.unfoldPoint_source (hh : A.IsShape h) (hA : A.IsDistinct) {p : AccessPoint} {g : Heap}
    (hheaps : A.unfoldPoint p h = .ok heaps) (hg : g ∈ heaps) :
    (g = h ∨ ∃ g', g = g'.normalize ∧ ∃ m : Merge A g' h, m.IsOpening) ∧ A.IsExposed g p := by
  rcases unfoldPoint_cases hh p with ⟨heq, hp⟩ | ⟨v, g₁, g₂, hv, heq, hopen₁, hopen₂⟩
  · obtain rfl := Except.ok.inj (hheaps.symm.trans heq)
    obtain rfl := mem_singleton.1 hg
    exact ⟨.inl rfl, hp⟩
  · obtain rfl := Except.ok.inj (hheaps.symm.trans heq)
    have hopened {g' : Heap} {m : Merge A g' h} (hm : m.IsOpening) (hsource : m.source = v)
        (hsel : m.chain.selector = p.selector) : A.IsExposed g'.normalize p :=
      (hm.isShape hA hh).isExposed_normalize (hm.isExposed (hsource ▸ hv) hsel)
    obtain ⟨m₁, hm₁, hsource₁, hsel₁, -⟩ := hopen₁
    obtain ⟨m₂, hm₂, hsource₂, hsel₂, -⟩ := hopen₂
    rcases mem_cons.1 hg with rfl | hg
    · exact ⟨.inr ⟨g₁, rfl, m₁, hm₁⟩, hopened hm₁ hsource₁ hsel₁⟩
    · obtain rfl := mem_singleton.1 hg
      exact ⟨.inr ⟨g₂, rfl, m₂, hm₂⟩, hopened hm₂ hsource₂ hsel₂⟩

theorem Engine.source_cases (hh : E.abstraction.IsShape h) (hA : E.abstraction.IsDistinct)
    (hnull : ∀ e ∈ h.summaries, e.source? ≠ some Node.null) {g : Heap} {gs : List Heap}
    (hgs : E.sources stmt h = .ok gs) (hg : g ∈ gs) :
    (g = h ∨ ∃ g', g = g'.normalize ∧ ∃ m : Merge E.abstraction g' h, m.IsOpening) ∧
      ∀ p ∈ stmt.accessPoint?, E.abstraction.IsExposed g p := by
  rcases sources_cases hgs hg with ⟨rfl, hneeds⟩ | ⟨p, heaps, hp, hheaps, hg⟩
  · exact ⟨.inl rfl, fun p hp => Abstraction.isExposed_of_needsUnfolding hp (hneeds p hp) hnull⟩
  · simp only [hp, Option.mem_some, forall_eq']
    rcases hg with hg | ⟨rfl, hsame⟩
    · exact Abstraction.unfoldPoint_source hh hA hheaps hg
    · -- All variants are the heap itself; there is at least one, and it is exposed.
      obtain ⟨g', hg'⟩ : ∃ g', g' ∈ heaps := by
        rcases Abstraction.unfoldPoint_cases hh p with ⟨heq, -⟩ | ⟨v, g₁, g₂, -, heq, -, -⟩ <;>
          rw [Except.ok.inj (hheaps.symm.trans heq)] <;> exact ⟨_, mem_cons_self⟩
      exact ⟨.inl rfl, hsame g' hg' ▸ (Abstraction.unfoldPoint_source hh hA hheaps hg').2⟩

namespace Describes

/-- A heap that is described is described by a source of the statement, at which the selector that
the statement goes through is exposed. -/
theorem exists_source (hd : Describes E.abstraction γ h c) (hc : c.IsPlain)
    (hA : E.abstraction.IsDistinct) (stmt : Statement) :
    ∃ gs, E.sources stmt h = .ok gs ∧ ∃ g ∈ gs, Describes E.abstraction γ g c ∧
      ∀ p ∈ stmt.accessPoints, E.abstraction.IsExposed g p := by
  cases hpoint : stmt.accessPoint? with
  | none =>
    have hpoints : stmt.accessPoints = [] := by rw [Statement.accessPoints, hpoint]; rfl
    rw [hpoints]
    exact ⟨[h], Engine.sources_eq_self hpoint, h, mem_cons_self, hd, forall_mem_nil _⟩
  | some p =>
    have hpoints : ∀ q ∈ stmt.accessPoints, q = p := by simp [Statement.accessPoints, hpoint]
    rw [Engine.sources_eq hpoint]
    split
    · obtain ⟨heaps, heq, g, hg, hdescribes, hexposed⟩ := hd.exists_unfoldPoint hc hA p
      rw [heq]
      refine ⟨_, rfl, g, ?_, hdescribes, fun q hq => hpoints q hq ▸ hexposed⟩
      dsimp only
      split
      · exact hg
      · next hsame =>
        have heq : g = h := by
          by_contra hne
          exact hsame (any_eq_true.2 ⟨g, hg, by simpa using hne⟩)
        exact heq ▸ mem_cons_self
    · next hneeds =>
      have hnull : ∀ e ∈ h.summaries, e.source? ≠ some Node.null := fun e he => by
        obtain ⟨chain, hchain, a, b, rfl⟩ := Abstraction.isLink_iff.1 (hd.links e he)
        exact ((hd.isShape hc).proper chain hchain _ he rfl).2
      exact ⟨[h], rfl, h, mem_cons_self, hd, fun q hq => hpoints q hq ▸
        Abstraction.isExposed_of_needsUnfolding hpoint (by simpa using hneeds) hnull⟩

theorem canonical (hd : Describes A γ h c) (hA : A.IsDistinct) : Describes A γ (A.canonical h) c :=
  hd.shapeAt hA _

theorem settled (hd : Describes E.abstraction γ h c) (hA : E.abstraction.IsDistinct)
    (loc : Location) : Describes E.abstraction γ (E.settled loc h).heap c := by
  rw [Engine.settled]
  split
  · exact hd.collect.canonical hA
  · exact hd.canonical hA

theorem keepVars (hd : Describes A γ h c) (hγ : IsGhost γ) :
    Describes A γ (h.keepVars isReserved) (c.keepVars isReserved) where
  inRange := hd.inRange.keepVars _
  det := hd.det.congr (fun _ _ => rfl) rfl
  links := hd.links
  placed := by
    obtain ⟨S, φ, inner, L⟩ := hd.placed
    refine ⟨S, φ, inner, ?_, fun x v hx => ?_, fun x => ?_⟩
    · exact L.toIsLayout.replace (Nat.le_refl _) (Nat.le_refl _) (fun _ _ _ _ _ _ => rfl)
        fun _ _ _ => .inl ⟨rfl, fun _ => .rfl, rfl⟩
    · rw [Heap.var?_keepVars] at hx
      split at hx
      · exact L.named x v hx
      · cases hx
    · rw [Heap.var?_keepVars, Heap.var?_keepVars]
      split
      · exact L.var x
      · next hx => rw [hγ x (.inl (by simpa using hx))]; rfl

theorem harvestHeap (hd : Describes E.abstraction γ h c) (hA : E.abstraction.IsDistinct)
    (hγ : IsGhost γ) : Describes E.abstraction γ (E.harvestHeap h) (c.keepVars isReserved) :=
  (hd.keepVars hγ).collect.canonical hA

end Describes

namespace Engine

/-- A state of the space describes where the run has come to; no state stands for a fault. -/
def Represents (E : Engine) (sp : E.Space) (γ : String → Option Node) : Code.Outcome → Prop
  | .state loc c => ∃ h, sp.Holds ⟨h, loc, false⟩ ∧ Describes E.abstraction γ h c
  | .fault => False

/-- From heaps that the precondition describes, all runs of the method whose calls nest less than `n`
deep return in heaps that postconditions describe, and none goes through null. -/
def Returns (E : Engine) (n : Nat) (method : String) (pre : Heap) (posts : HeapSet) : Prop :=
  ∀ m, E.program.method? method = some m → ∀ γ c, IsGhost γ → c.IsPlain →
    Describes E.abstraction γ pre c → ¬E.program.RunsWithin n m c .fault ∧
      ∀ c', E.program.RunsWithin n m c (.state .exit c') →
        ∃ q ∈ posts, Describes E.abstraction γ q (c'.keepVars isReserved)

theorem represents_settled {loc : Location} {g : Heap} (hA : E.abstraction.IsDistinct)
    (hg : Describes E.abstraction γ g c) (hheld : sp.Holds (E.settled loc g)) :
    E.Represents sp γ (.state loc c) :=
  ⟨_, hheld, hg.settled hA loc⟩

theorem represents_of_call {site : CallSite} {callee : Method} {g d : Heap}
    (hA : E.abstraction.IsDistinct) (hP : E.program.IsUnreserved) (hskip : E.settings.skipped = [])
    (hγ : IsGhost γ) (hstmt : stmt.IsUnreserved) (hc : c.IsPlain)
    (hg : Describes E.abstraction γ g c) (hstep : stmt.step c = .call site)
    (hcallee : E.program.method? site.method = some callee)
    (hrun : IsRun E (E.CallAnswer (E.Returns n)) sp stmt g) :
    ¬E.program.RunsWithin n callee (c.bindArgs callee.params site.args) .fault ∧
      (E.program.RunsWithin n callee (c.bindArgs callee.params site.args) (.state .exit d) →
        E.Represents sp γ (.state stmt.next (c.restore d site.result))) := by
  obtain ⟨S, φ, inner, args, L, hargs, hsite, hstep'⟩ := hg.call hγ hstmt hstep
  obtain ⟨next, hyields, hheld⟩ := hrun
  simp only [Statement.Yields, hstep'] at hyields
  obtain ⟨results, hanswer, rfl⟩ := hyields
  obtain ⟨hmem, -⟩ | ⟨-, callee', posts, hcallee', hreturns, rfl⟩ := hanswer
  · simp [hskip] at hmem
  obtain rfl := Option.some.inj (hcallee.symm.trans hcallee')
  have hparams := (hP _ _ hcallee).params
  have hstart := (hg.enter hc L hargs hparams).canonical hA
  have hplain : (c.bindArgs callee.params (args.map φ)).IsPlain :=
    Heap.isStable_isPlain.bindArgs c _ _ hc hparams fun v hv =>
      Statement.isValue_of_mem_args hstep (hsite ▸ hv)
  obtain ⟨hfault, hexit⟩ := hreturns callee hcallee _ _ (isGhost_ghosts _) hplain hstart
  rw [hsite]
  refine ⟨hfault, fun hd => ?_⟩
  obtain ⟨q, hq, hdescribes⟩ := hexit d hd
  have hm := hP _ _ hcallee
  have hplain' := (Program.RunsWithin.invariant Heap.isStable_isPlain hP hm hd).2 hplain
  have htidy := (Program.RunsWithin.invariant Heap.isStable_isTidy hP hm hd).2
    (Heap.isTidy_bindArgs hparams _)
  have hconfined := (Program.RunsWithin.invariant Heap.isStable_confined hP hm hd).2
    (confined_region L hc hg.links (isFragment_fragment hg.inRange args) hargs)
  have hresume := hg.resume hc L hargs hplain' htidy hconfined hdescribes site.result
  exact represents_settled hA hresume
    (hheld (stmt.next, _) (mem_map_of_mem (mem_map_of_mem hq)))

/-- If calls are answered by postconditions for runs that nest less than `n` deep, then an explored
space represents all runs that nest one deeper. -/
theorem IsExplored.represents {o : Code.Outcome} (hA : E.abstraction.IsDistinct)
    (hP : E.program.IsUnreserved) (hskip : E.settings.skipped = []) (hm : m.IsUnreserved)
    (hsp : IsExplored E m (E.CallAnswer (E.Returns n)) heaps sp) (hγ : IsGhost γ) (hc : c.IsPlain)
    (hh : h ∈ heaps) (hd : Describes E.abstraction γ h c)
    (hrun : m.Runs E.program (E.program.RunsWithin n) c o) : E.Represents sp γ o := by
  induction hrun with
  | start => exact ⟨_, hsp.start h hh, hd.canonical hA⟩
  | @step loc c' o hrun hstep ih =>
    obtain ⟨h', hheld, hd'⟩ := ih
    have hc' := (Program.RunsWithin.invariant (n := n + 1) Heap.isStable_isPlain hP hm hrun).2 hc
    -- The statement has been run from a source that describes the heap.
    have hsource {i : Nat} {stmt : Statement} (hloc : loc = .line i)
        (hstmt : m.statement? i = some stmt) : ∃ g, IsRun E (E.CallAnswer (E.Returns n)) sp stmt g ∧
          Describes E.abstraction γ g c' ∧ ∀ p ∈ stmt.accessPoints, E.abstraction.IsExposed g p := by
      subst hloc
      obtain ⟨gs, hgs, hruns⟩ := (isDone_line_iff hstmt).1 (hsp.isDone hheld)
      obtain ⟨gs', hgs', g, hg, hdescribes⟩ := hd'.exists_source hc' hA stmt
      obtain rfl := Except.ok.inj (hgs.symm.trans hgs')
      exact ⟨g, hruns g hg, hdescribes⟩
    cases hstep with
    | move hstmt hmoves hnext =>
      obtain ⟨g, ⟨next, hyields, hnexts⟩, hg, hexposed⟩ := hsource rfl hstmt
      obtain ⟨next', g', hstep', hg', hdescribes⟩ :=
        hg.moves hγ (hm.statement hstmt) hexposed hmoves hnext
      simp only [Statement.Yields, hstep'] at hyields
      exact represents_settled hA hdescribes (hnexts (_, g') (hyields ▸ hg'))
    | fault hstmt hfault =>
      obtain ⟨g, ⟨next, hyields, -⟩, hg, -⟩ := hsource rfl hstmt
      simp only [Statement.Yields, hg.fault hγ (hm.statement hstmt) hfault] at hyields
    | call hstmt hcall hcallee hreturn =>
      obtain ⟨g, hg, hdescribes, -⟩ := hsource rfl hstmt
      exact (represents_of_call hA hP hskip hγ (hm.statement hstmt) hc' hdescribes hcall hcallee
        hg).2 hreturn
    | callFault hstmt hcall hcallee hfault =>
      obtain ⟨g, hg, hdescribes, -⟩ := hsource rfl hstmt
      exact absurd hfault (represents_of_call (d := c') hA hP hskip hγ (hm.statement hstmt) hc'
        hdescribes hcall hcallee hg).1

theorem Returns.pred {method : String} {pre : Heap} {posts : HeapSet}
    (h : E.Returns (n + 1) method pre posts) : E.Returns n method pre posts := by
  intro m hm γ c hγ hc hd
  obtain ⟨hfault, hexit⟩ := h m hm γ c hγ hc hd
  exact ⟨fun hrun => hfault hrun.succ, fun c' hrun => hexit c' hrun.succ⟩

theorem IsExplored.returns (hA : E.abstraction.IsDistinct) (hP : E.program.IsUnreserved)
    (hskip : E.settings.skipped = []) {method : String} {pre : Heap}
    (hm : E.program.method? method = some m)
    (hsp : IsExplored E m (E.CallAnswer (E.Returns n)) [pre] sp) :
    E.Returns (n + 1) method pre (E.harvest sp) := by
  intro m' hm' γ c hγ hc hd
  obtain rfl := Option.some.inj (hm.symm.trans hm')
  have hrepresents {o : Code.Outcome} (hrun : E.program.RunsWithin (n + 1) m c o) :
      E.Represents sp γ o :=
    hsp.represents hA hP hskip (hP _ _ hm) hγ hc (mem_singleton_self pre) hd hrun
  refine ⟨fun hrun => hrepresents hrun, fun c' hrun => ?_⟩
  obtain ⟨h, hheld, hd'⟩ := hrepresents hrun
  exact ⟨_, hsp.mem_harvest_iff.2 ⟨h, hheld, rfl⟩, hd'.harvestHeap hA hγ⟩

/-- Postconditions are judged by whether they describe all returns. -/
def describing (E : Engine) (hA : E.abstraction.IsDistinct) (hP : E.program.IsUnreserved)
    (hskip : E.settings.skipped = []) : Judgement E where
  Fit _ _ := True
  Key _ _ := True
  Known _ _ := True
  Free _ := True
  Covers := E.Returns
  Allows _ _ _ := True
  Fails _ _ _ := True
  known _ := trivial
  covers_zero := fun _ _ _ _ _ _ _ => ⟨fun hrun => hrun, fun _ hrun => hrun.elim⟩
  covers_pred := Returns.pred
  covers_mono h hsub := by
    intro m hm γ c hγ hc hd
    obtain ⟨hfault, hexit⟩ := h m hm γ c hγ hc hd
    refine ⟨hfault, fun c' hrun => ?_⟩
    obtain ⟨q, hq, hd'⟩ := hexit c' hrun
    exact ⟨q, hsub q hq, hd'⟩
  view _ hview := ⟨trivial, fun n posts h m hm γ c hγ hc hd => h m hm γ c hγ hc (hd.ofView hA hview),
    fun _ _ => trivial, fun _ _ => trivial⟩
  key _ _ := trivial
  fit _ _ _ _ _ := trivial
  covers_succ _ hm hsp := by
    refine IsExplored.returns hA hP hskip hm (hsp.mono (CallAnswer.mono ?_))
    exact fun _ _ _ h => h trivial
  allows _ _ _ := trivial
  fails _ _ _ := trivial

/-- A generated space represents all runs from the heaps that its initial heaps describe. -/
theorem represents_of_generate {steps : Nat} {method : String} {t : Session} {o : Code.Outcome}
    (hA : E.abstraction.IsDistinct) (hP : E.program.IsUnreserved) (hskip : E.settings.skipped = [])
    (hm : E.program.method? method = some m)
    (hrun : (E.generate steps method heaps).outcome E.session = (.ok sp, t)) (hγ : IsGhost γ)
    (hc : c.IsPlain) (hh : h ∈ heaps) (hd : Describes E.abstraction γ h c)
    (ho : E.program.Runs m c o) : E.Represents sp γ o := by
  obtain ⟨n, ho⟩ := ho
  have hsuits : (E.describing hA hP hskip).Suits m heaps := fun _ _ _ _ _ _ _ => trivial
  obtain ⟨-, hsp⟩ := (Judgement.generate_ensures steps hm (ne_nil_of_mem hh) hsuits
    Judgement.rests_session).of_ok hrun
  have hsp : IsExplored E m (E.CallAnswer (E.Returns n)) heaps sp :=
    hsp.mono (CallAnswer.mono fun _ _ _ hsettles => hsettles.covers trivial n)
  exact hsp.represents hA hP hskip (hP _ _ hm) hγ hc hh hd
    (Program.RunsWithin.succ (n := n) ho)

end Engine

theorem Heap.IsPlain.describes (hc : c.IsPlain) (A : Abstraction) :
    Describes A (fun _ => none) c c := by
  have hchained {v sel w} : ¬A.Chained c v sel w := by
    rintro ⟨chain, -, -, hmem⟩
    rw [hc.summaries] at hmem
    cases hmem
  have harrow {v sel w} (hw : A.Arrow c v sel w) : c.selector? v sel = some w :=
    hw.resolve_right hchained
  refine ⟨hc.inRange, ⟨?_, ?_⟩, ?_, {v | v < c.size}, id, fun _ _ => [], ?_, hc.inRange.var,
    fun x => by rw [Option.or_none, Option.map_id, id]⟩
  · exact fun chain hchain v w hmem => (hchained ⟨chain, hchain, rfl, hmem⟩).elim
  · simp [hc.summaries]
  · simp [hc.summaries]
  constructor
  case null_mem => exact hc.inRange.pos
  case null => rfl
  case dom => exact fun _ hv => hv
  case lt => exact fun _ hv => hv
  case inj => exact fun _ _ _ _ heq => heq
  case closed => exact fun v _ sel w hw => hc.inRange.selector v sel w (harrow hw)
  case way => exact fun v _ sel w hw => harrow hw
  case direct => exact fun _ _ _ _ _ => rfl
  case chained => exact fun v _ sel w hw => (hchained hw).elim
  case idle =>
    exact fun v _ sel hidle => ⟨Option.eq_none_iff_forall_ne_some.2 fun w hw => hidle w (.inl hw), rfl⟩
  case fresh => exact fun _ _ _ _ hz => nomatch hz
  case nodup => exact fun _ _ _ => nodup_nil
  case disjoint => exact fun _ _ _ _ _ _ _ hz => nomatch hz

/-- If a space is generated from plain heaps, then every heap that a run comes to is a concretization
of a heap of the space at the same place, and no run goes through null. -/
theorem Engine.isConcretization_of_generate {source method : String} {steps : Nat} {t : Session}
    (hsource : Code.compile source = .ok E.program) (hA : E.abstraction.IsDistinct)
    (hskip : E.settings.skipped = []) (hheaps : ∀ h ∈ heaps, h.IsPlain)
    (hrun : (E.generate steps method heaps).outcome E.session = (.ok sp, t))
    (hm : E.program.method? method = some m) (hc : c ∈ heaps) :
    (∀ loc c', E.program.Runs m c (.state loc c') → ∃ h, sp.Holds ⟨h, loc, false⟩ ∧
      E.abstraction.IsConcretization c'.collect h.collect) ∧ ¬E.program.Runs m c .fault := by
  have hP := Code.isUnreserved_of_compile hsource
  have hrepresents {o : Code.Outcome} (ho : E.program.Runs m c o) :
      E.Represents sp (fun _ => none) o :=
    represents_of_generate hA hP hskip hm hrun (fun _ _ => rfl) (hheaps c hc) hc
      ((hheaps c hc).describes E.abstraction) ho
  refine ⟨fun loc c' ho => ?_, fun ho => hrepresents ho⟩
  obtain ⟨h, hh, hd⟩ := hrepresents ho
  obtain ⟨n, ho⟩ := ho
  have hc' := (Program.RunsWithin.invariant Heap.isStable_isPlain hP (hP _ _ hm) ho).2 (hheaps c hc)
  exact ⟨h, hh, hd.isConcretization hc' hA⟩

/-- A method that cuts a list after its second cell, which another method finds. -/
def cuttingSource : String :=
  "method cut(x) \x7b y = tail(x); y.next = null; \x7d method tail(x) \x7b y = x.next; return y; \x7d"

/-- An engine for the method that cuts a list. -/
def cuttingEngine : Engine where
  program := (Code.compile cuttingSource).toOption.getD {}

/-- A list of three cells. -/
def threeCells : Heap :=
  (Heap.empty.addList 3 false).1.setVar "x" 1

/-- The list is summarised, and unfolded again in the callee. -/
theorem Engine.isConcretization_of_generate_cutting : ∃ sp t m,
    (cuttingEngine.generate 10 "cut" [threeCells]).outcome cuttingEngine.session = (.ok sp, t) ∧
    cuttingEngine.program.method? "cut" = some m ∧
    (∀ loc c', cuttingEngine.program.Runs m threeCells (.state loc c') →
      ∃ h, sp.Holds ⟨h, loc, false⟩ ∧
        cuttingEngine.abstraction.IsConcretization c'.collect h.collect) ∧
    ¬cuttingEngine.program.Runs m threeCells .fault := by
  have hsource : Code.compile cuttingSource = .ok cuttingEngine.program := by decide +kernel
  have hsome : (cuttingEngine.program.method? "cut").isSome := by decide +kernel
  have hok : ((cuttingEngine.generate 10 "cut" [threeCells]).outcome
      cuttingEngine.session).1.toOption.isSome := by decide +kernel
  obtain ⟨m, hm⟩ := Option.isSome_iff_exists.1 hsome
  obtain ⟨sp, t, hrun⟩ := Run.exists_outcome_eq_ok hok
  exact ⟨sp, t, m, hrun, hm, isConcretization_of_generate hsource (by decide) rfl
    (forall_mem_singleton.2 (by decide +kernel)) hrun hm (mem_singleton_self _)⟩

end ShapeCheck
