import ShapeCheck.Proofs.Regular
import ShapeCheck.Proofs.Soundness

/-!
# Clean heaps

A heap is *clean* if its references are to nodes, nothing starts at null, its summaries are chains of
the abstraction, and no node has two steps along one selector. Moreover its interface variables name
different nodes other than null, so that a result can be glued into the heap of a caller without two
of its nodes falling together.

Statements on exposed selectors, folding, unfolding, garbage collection, and the cut and the glue of
calls all lead from clean heaps to clean heaps.
-/

namespace ShapeCheck

open Code Call List

variable {E : Engine} {A : Abstraction} {g h h' post : Heap} {v w : Node} {x : String}

namespace Call

theorem isReserved_of_interfaceIndex? {i : Nat} (hi : interfaceIndex? x = some i) :
    isReserved x := by
  rw [interfaceIndex?] at hi
  split at hi
  · next hstem =>
    obtain ⟨rest, hrest⟩ := isPrefixOf_iff_prefix.1 hstem
    rw [isReserved, ← hrest]
    rfl
  · cases hi

theorem not_isAssignable_of_interfaceIndex? {i : Nat} (hi : interfaceIndex? x = some i) :
    ¬Heap.IsAssignable x := by
  rintro (hfree | rfl)
  · rw [isReserved_of_interfaceIndex? hi] at hfree
    cases hfree
  · rw [interfaceIndex?_returnVar] at hi
    cases hi

/-- The variables that can be read as interface variables name nodes other than null, and they name
the same node if and only if they have the same number. -/
structure IsInterface (h : Heap) : Prop where
  ne_null : ∀ x i v, interfaceIndex? x = some i → h.var? x = some v → v ≠ Node.null
  inj : ∀ x y i j v w, interfaceIndex? x = some i → interfaceIndex? y = some j →
    h.var? x = some v → h.var? y = some w → (v = w ↔ i = j)

namespace IsInterface

theorem ofMap (hh : IsInterface h) (f : Node → Node) (hnull : f Node.null = Node.null)
    (hinj : ∀ x y v w, g.var? x = some v → g.var? y = some w → f v = f w → v = w)
    (hvar : ∀ x i, interfaceIndex? x = some i → (g.var? x).map f = h.var? x) :
    IsInterface g := by
  have hread {x i v} (hi : interfaceIndex? x = some i) (hv : g.var? x = some v) :
      h.var? x = some (f v) := by rw [← hvar x i hi, hv, Option.map_some]
  constructor
  · rintro x i v hi hv rfl
    exact hh.ne_null x i _ hi (hread hi hv) hnull
  · intro x y i j v w hi hj hv hw
    rw [← hh.inj x y i j _ _ hi hj (hread hi hv) (hread hj hw)]
    exact ⟨fun heq => congrArg f heq, hinj x y v w hv hw⟩

theorem congr (hh : IsInterface h)
    (hvar : ∀ x i v, interfaceIndex? x = some i → g.var? x = some v → h.var? x = some v) :
    IsInterface g :=
  ⟨fun x i v hi hv => hh.ne_null x i v hi (hvar x i v hi hv), fun x y i j v w hi hj hv hw =>
    hh.inj x y i j v w hi hj (hvar x i v hi hv) (hvar y j w hj hw)⟩

theorem ofPart (hh : IsInterface h) {f : Node → Node} (hf : Heap.IsPart f g h) (hg : g.InRange) :
    IsInterface g :=
  hh.ofMap f hf.null (fun x y v w hv hw => hf.inj v (hg.var x v hv) w (hg.var y w hw))
    fun x _ _ => (hf.var x).symm

theorem ofUnreserved (hvar : ∀ x v, h.var? x = some v → isReserved x = false) : IsInterface h := by
  have hfree {x i v} (hi : interfaceIndex? x = some i) (hv : h.var? x = some v) : False := by
    have hfalse := hvar x v hv
    rw [isReserved_of_interfaceIndex? hi] at hfalse
    cases hfalse
  exact ⟨fun x i v hi hv => (hfree hi hv).elim, fun x y i j v w hi _ hv _ => (hfree hi hv).elim⟩

theorem setVar (hh : IsInterface h) (hx : Heap.IsAssignable x) : IsInterface (h.setVar x v) := by
  refine hh.congr fun y i w hi hw => ?_
  have hne : y ≠ x := fun heq => not_isAssignable_of_interfaceIndex? hi (heq ▸ hx)
  rwa [Heap.var?_setVar, if_neg hne] at hw

theorem bindInterface (hvar : ∀ x v, g.var? x = some v → isReserved x = false) {nodes : List Node}
    (hnodup : nodes.Nodup) (hnull : Node.null ∉ nodes) : IsInterface (Call.bindInterface g nodes) := by
  have hread {x i v} (hi : interfaceIndex? x = some i)
      (hv : (Call.bindInterface g nodes).var? x = some v) : nodes[i]? = some v := by
    rw [var?_bindInterface, Option.or_eq_some_iff] at hv
    rcases hv with hv | ⟨-, hv⟩
    · obtain ⟨j, rfl, hj⟩ := interfaceMap_eq_some_iff.1 hv
      obtain rfl : j = i := Option.some.inj ((interfaceIndex?_interfaceVar j).symm.trans hi)
      exact hj
    · have hfalse := hvar x v hv
      rw [isReserved_of_interfaceIndex? hi] at hfalse
      cases hfalse
  constructor
  · rintro x i v hi hv rfl
    exact hnull (mem_of_getElem? (hread hi hv))
  · intro x y i j v w hi hj hv hw
    have hv := hread hi hv
    have hw := hread hj hw
    rw [← getElem?_inj (List.getElem?_eq_some_iff.1 hv).1 hnodup, hv, hw, Option.some.injEq]

theorem isNaming {frame : Frame} {inside : List Node} (hpost : IsInterface post)
    (hnodup : frame.interface.Nodup) (hinside : ∀ u ∈ frame.interface, u ∈ inside) :
    IsNaming (frame.named post) inside := by
  constructor
  case left_unique =>
    intro v w u hv hw
    obtain ⟨x, i, hx, hi, hu⟩ := Frame.mem_named_iff.1 hv
    obtain ⟨y, j, hy, hj, hu'⟩ := Frame.mem_named_iff.1 hw
    refine (hpost.inj x y i j v w hi hj hx hy).2 ?_
    exact (getElem?_inj (List.getElem?_eq_some_iff.1 hu).1 hnodup).1 (hu.trans hu'.symm)
  case right_unique =>
    intro v u u' hu hu'
    obtain ⟨x, i, hx, hi, hu⟩ := Frame.mem_named_iff.1 hu
    obtain ⟨y, j, hy, hj, hu'⟩ := Frame.mem_named_iff.1 hu'
    obtain rfl := (hpost.inj x y i j v v hi hj hx hy).1 rfl
    exact Option.some.inj (hu.symm.trans hu')
  case ne_null =>
    intro v u hv
    obtain ⟨x, i, hx, hi, -⟩ := Frame.mem_named_iff.1 hv
    exact hpost.ne_null x i v hi hx
  case mem =>
    intro v u hv
    obtain ⟨-, i, -, -, hu⟩ := Frame.mem_named_iff.1 hv
    exact hinside u (mem_of_getElem? hu)

end IsInterface

/-- The interface nodes of a call are different, also under their numbers in the callee. -/
theorem nodup_interfaceNodes {inside args : List Node} (hfrag : IsFragment h args inside)
    (start : Heap) : (interfaceNodes h inside start).Nodup ∧
      ((interfaceNodes h inside start).map (calleeNode inside)).Nodup := by
  have hnodup : (interfaceNodes h inside start).Nodup :=
    (sortBy_perm _ _).nodup_iff.2 (hfrag.nodup.filter _)
  refine ⟨hnodup, hnodup.map_on fun u hu v hv heq => ?_⟩
  have hback {u} (hu : u ∈ interfaceNodes h inside start) :=
    nodeAt_calleeNode (.inr (mem_interfaceNodes_iff.1 hu).1) fun hnull => hfrag.ne_null _ hnull rfl
  rw [← hback hu, ← hback hv, heq]

end Call

theorem Heap.not_leads_null (hsel : ∀ sel, h.selector? Node.null sel = none)
    (hsource : ∀ e ∈ h.summaries, e.source? ≠ some Node.null) : ¬h.Leads Node.null w := by
  intro hw
  rcases Heap.mem_successors_iff.1 hw with ⟨sel, hw⟩ | ⟨e, he, hnull, -⟩
  · rw [hsel] at hw
    cases hw
  · exact hsource e he hnull

/-- What an analysis keeps up, whatever the numbers of the nodes. -/
structure Abstraction.IsClean (A : Abstraction) (h : Heap) : Prop where
  inRange : h.InRange
  null : ∀ w, ¬h.Leads Node.null w
  links : ∀ e ∈ h.summaries, A.isLink e
  det : A.IsDeterministic h
  interface : IsInterface h

namespace Abstraction.IsClean

theorem ofPlain (A : Abstraction) (hh : h.IsPlain)
    (hvar : ∀ x v, h.var? x = some v → isReserved x = false) : A.IsClean h := by
  have hnone {e} (he : e ∈ h.summaries) : False := by
    rw [hh.summaries] at he
    cases he
  refine ⟨hh.inRange, fun w => Heap.not_leads_null (fun sel => hh.selector?_null) fun e he =>
    (hnone he).elim, fun e he => (hnone he).elim, ⟨fun chain _ v w he => (hnone he).elim,
    fun chain _ => ?_⟩, .ofUnreserved hvar⟩
  rw [hh.summaries]
  exact nodup_nil

theorem isRegular (hh : A.IsClean h) : h.IsRegular := by
  refine ⟨hh.inRange, fun e he => ?_⟩
  obtain ⟨chain, -, v, w, rfl⟩ := isLink_iff.1 (hh.links e he)
  rfl

theorem selector?_null (hh : A.IsClean h) (sel : String) : h.selector? Node.null sel = none :=
  Heap.selector?_eq_none_of_not_leads hh.null sel

theorem source_ne_null (hh : A.IsClean h) {e : Summary} (he : e ∈ h.summaries) :
    e.source? ≠ some Node.null := by
  intro hsource
  obtain ⟨chain, -, v, w, rfl⟩ := isLink_iff.1 (hh.links e he)
  exact hh.null w (Heap.mem_successors_iff.2 (.inr ⟨_, he, hsource, mem_singleton_self w⟩))

theorem isShape (hh : A.IsClean h) : A.IsShape h :=
  ⟨hh.inRange, hh.det, fun _ _ e he _ => ⟨hh.isRegular.paired e he, hh.source_ne_null he⟩⟩

theorem congr (hh : A.IsClean h) (hsel : ∀ v sel, h'.selector? v sel = h.selector? v sel)
    (hsum : h'.summaries = h.summaries) (hrange : h'.InRange) (hinterface : IsInterface h') :
    A.IsClean h' :=
  ⟨hrange, fun _ => Heap.not_leads_null (fun sel => (hsel _ sel).trans (hh.selector?_null sel))
    fun _ he => hh.source_ne_null (hsum ▸ he), hsum ▸ hh.links, hh.det.congr hsel hsum, hinterface⟩

theorem setVar (hh : A.IsClean h) (hv : v < h.size) (hx : Heap.IsAssignable x) :
    A.IsClean (h.setVar x v) :=
  hh.congr (fun _ _ => rfl) rfl (hh.inRange.setVar hv) (hh.interface.setVar hx)

theorem keepVars (hh : A.IsClean h) (p : String → Bool) : A.IsClean (h.keepVars p) := by
  refine hh.congr (fun _ _ => rfl) rfl (hh.inRange.keepVars p) (hh.interface.congr ?_)
  intro x i v _ hv
  rw [Heap.var?_keepVars] at hv
  split at hv
  · exact hv
  · cases hv

theorem ofPart (hh : A.IsClean h) {f : Node → Node} (hf : Heap.IsPart f g h) (hg : g.InRange) :
    A.IsClean g where
  inRange := hg
  null w := by
    refine Heap.not_leads_null (fun sel => ?_) fun e he hsource => ?_
    · have hnone := hf.selector Node.null hg.pos sel
      rw [hf.null, hh.selector?_null] at hnone
      exact Option.map_eq_none_iff.1 hnone.symm
    · refine hh.source_ne_null (hf.map_mem_summaries he) ?_
      rw [Summary.source?_map, hsource, Option.map_some, hf.null]
  links e he := isLink_map ▸ hh.links _ (hf.map_mem_summaries he)
  det := hf.isDeterministic hg hh.det
  interface := hh.interface.ofPart hf hg

theorem normalize (hh : A.IsClean h) : A.IsClean h.normalize :=
  hh.ofPart (hh.inRange.isRenumbering_normalize.isPart hh.inRange) hh.inRange.inRange_normalize

theorem collect (hh : A.IsClean h) : A.IsClean h.collect := by
  obtain ⟨f, hf, -⟩ := hh.inRange.isPart_collect
  exact hh.ofPart hf hh.inRange.inRange_collect

theorem merge (hh : A.IsClean h) (m : Merge A h h') (hA : A.IsDistinct) (hsize : h'.size = h.size) :
    A.IsClean h' where
  inRange := m.inRange_coarse hh.inRange hsize
  null w := by
    refine Heap.not_leads_null (fun sel => ?_) fun e he hsource => ?_
    · rw [m.selector_coarse, hh.selector?_null, ite_self]
    · rcases m.mem_summaries_coarse_iff.1 he with rfl | he
      · obtain heq : m.source = Node.null := by simpa [Summary.source?] using hsource
        exact hh.null _ (heq ▸ m.arrow_into.leads)
      · exact hh.source_ne_null (m.mem_summaries_iff.2 (.inr (.inr he))) hsource
  links e he := by
    rcases m.mem_summaries_coarse_iff.1 he with rfl | he
    · exact isLink_iff.2 ⟨m.chain, m.mem, _, _, rfl⟩
    · exact hh.links e (m.mem_summaries_iff.2 (.inr (.inr he)))
  det := m.isDeterministic_coarse hA hh.det
  interface := hh.interface.congr fun x _ _ _ hv => (m.var x).symm.trans hv

theorem shapeAt (hh : A.IsClean h) (hA : A.IsDistinct) (depth : Nat) :
    A.IsClean (A.shapeAt depth h) := by
  obtain ⟨hfolding, hfolded⟩ := foldAll_induction depth h.size (P := fun g _ => A.IsClean g) hA
    (fun _ _ _ m _ hsize hg => hg.merge m hA hsize) (.start hh.inRange hh.det) hh
  obtain ⟨f, hf, -⟩ := hfolding.isPart_dropNodes
  exact (hfolded.ofPart hf (hfolding.inRange.inRange_dropNodes _)).normalize

theorem opening (hh : A.IsClean h) {m : Merge A g h} (hm : m.IsOpening) (hA : A.IsDistinct) :
    A.IsClean g where
  inRange := (hm.isShape hA hh.isShape).inRange
  null w := by
    have hsource : m.source ≠ Node.null := by
      intro heq
      refine hh.source_ne_null (m.mem_summaries_coarse_iff.2 (.inl rfl)) ?_
      rw [heq]
      rfl
    refine Heap.not_leads_null (fun sel => ?_) fun e he hnull => ?_
    · have hcoarse := m.selector_coarse Node.null sel
      rw [hh.selector?_null, if_neg] at hcoarse
      · exact hcoarse.symm
      · rintro ⟨-, heq | heq⟩
        · exact hsource heq.symm
        · exact m.node_ne_null heq.symm
    · rcases m.mem_summaries_iff.1 he with he | he | he
      · rw [hm.into] at he
        cases he
      · rw [(m.isStep_out.eq_of_mem he).1] at hnull
        exact m.node_ne_null (Option.some.inj hnull)
      · exact hh.source_ne_null (m.mem_summaries_coarse_iff.2 (.inr he)) hnull
  links e he := by
    rcases m.mem_summaries_iff.1 he with he | he | he
    · rw [hm.into] at he
      cases he
    · exact isLink_iff.2 ⟨m.chain, m.mem, _, _, (m.isStep_out.eq_of_mem he).1⟩
    · exact hh.links e (m.mem_summaries_coarse_iff.2 (.inr he))
  det := (hm.isShape hA hh.isShape).det
  interface := hh.interface.congr fun x _ _ _ hv => (m.var x).trans hv

/-- The heaps from which a statement is run: the selector that it goes through is exposed. -/
theorem of_sources (hh : E.abstraction.IsClean h) (hnormal : h.normalize = h)
    (hA : E.abstraction.IsDistinct) {stmt : Statement} {gs : List Heap}
    (hgs : E.sources stmt h = .ok gs) (hg : g ∈ gs) :
    E.abstraction.IsClean g ∧ g.normalize = g ∧
      ∀ p ∈ stmt.accessPoint?, E.abstraction.IsExposed g p := by
  obtain ⟨rfl | ⟨g', rfl, m, hm⟩, hexposed⟩ :=
    Engine.source_cases hh.isShape hA (fun e he => hh.source_ne_null he) hgs hg
  · exact ⟨hh, hnormal, hexposed⟩
  · have hclean := hh.opening hm hA
    exact ⟨hclean.normalize, hclean.isRegular.normalize_normalize, hexposed⟩

theorem step (hh : A.IsClean h) {stmt : Statement} (hstmt : stmt.IsUnreserved)
    (hexposed : ∀ p ∈ stmt.accessPoint?, A.IsExposed h p) {next : List (Location × Heap)}
    (hstep : stmt.step h = .moves next) {loc : Location} (hnext : (loc, g) ∈ next) :
    A.IsClean g := by
  have hchange := Statement.change hstmt hstep hnext
  have hsum := hchange.summaries_eq
  have hrange := (hh.isRegular.change hchange).inRange
  have hinterface : IsInterface g := hh.interface.congr fun x i v hi hv =>
    (hchange.var?_eq (not_isAssignable_of_interfaceIndex? hi)).symm.trans hv
  rcases Statement.stored_or_selector?_eq hstep hnext with ⟨p, w, hp, hne, rfl⟩ | hsel
  · refine ⟨hrange, fun w => Heap.not_leads_null (fun sel => ?_) fun e he =>
      hh.source_ne_null (hsum ▸ he), hsum ▸ hh.links, ?_, hinterface⟩
    · rw [Heap.selector?_stored_of_ne fun heq => hne heq.1.symm]
      exact hh.selector?_null sel
    · exact hh.det.stored fun t => (hexposed p hp).not_chained hh.det rfl hne
  · exact hh.congr hsel hsum hrange hinterface

theorem enter (hh : A.IsClean h) {params : List String} {args : List Node}
    (hparams : ∀ x ∈ params, isReserved x = false) (hargs : ∀ v ∈ args, v < h.size) :
    A.IsClean (Call.enter h params args).1 := by
  have hfrag := isFragment_fragment hh.inRange args
  have hrange := (isRegular_enter hh.isRegular params args).inRange
  have hfree : ∀ x v, (h.bindArgs params args).var? x = some v → isReserved x = false :=
    fun x v hv => hparams x (of_mem_zip (Heap.exists_mem_zip_of_var?_bindArgs hv)).1
  have hbound : A.IsClean (h.bindArgs params args) := by
    refine hh.congr (fun _ _ => rfl) rfl ⟨hh.inRange.pos, hh.inRange.selector, fun x v hv => ?_,
      hh.inRange.ends⟩ (.ofUnreserved hfree)
    exact hargs v (of_mem_zip (Heap.exists_mem_zip_of_var?_bindArgs hv)).2
  have hpart := isPart_callee params hfrag hh.inRange.pos hargs hh.null hh.links
  have hcallee := hbound.ofPart hpart inRange_callee
  refine hcallee.congr (fun _ _ => selector?_bindInterface) summaries_bindInterface hrange
    (.bindInterface (fun x v hv => ?_) (nodup_interfaceNodes hfrag _).2 fun hnull => ?_)
  · refine hfree x (nodeAt (Node.null :: fragment h args) v) ?_
    rw [hpart.var, hv, Option.map_some]
  · obtain ⟨u, hu, heq⟩ := mem_map.1 hnull
    rw [calleeNode_eq, if_pos (mem_interfaceNodes_iff.1 hu).1] at heq
    cases heq

theorem resume (hh : A.IsClean h) (hpost : A.IsClean post) (params : List String)
    (args : List Node) {result? : Option String} (hresult : ∀ x ∈ result?, isReserved x = false) :
    A.IsClean ((Call.enter h params args).2.resume post result?) := by
  have hfrag := isFragment_fragment hh.inRange args
  have hframe := inRange_frame hh.inRange params args
  have hN : IsNaming ((Call.enter h params args).2.named post) (fragment h args) :=
    hpost.interface.isNaming (nodup_interfaceNodes hfrag _).1 fun u hu =>
      (mem_interfaceNodes_iff.1 hu).1
  have G := isGlued_glued hfrag hh.inRange hpost.inRange hh.null hpost.null rfl hN
  have hglued : A.IsClean ((Call.enter h params args).2.glued post) := by
    refine ⟨G.inRange hh.inRange hpost.inRange, fun w => Heap.not_leads_null (fun sel => ?_)
      fun e he hsource => ?_, G.isLink hh.links hpost.links,
      G.isDeterministic hh.inRange hpost.inRange hh.null hpost.null hh.det hpost.det,
      hh.interface.congr fun x _ _ _ hv => (G.var x).symm.trans hv⟩
    · have hnone := G.selector Node.null hpost.inRange.pos sel
      rwa [G.null, hpost.selector?_null, Option.map_none] at hnone
    · rw [G.summaries.mem_iff, mem_append] at he
      rcases he with he | he
      · exact hh.source_ne_null (mem_of_mem_filter he) hsource
      · -- only null is renamed to null
        obtain ⟨e', he', rfl⟩ := mem_map.1 he
        rw [Summary.source?_map, Option.map_eq_some_iff] at hsource
        obtain ⟨v, hv, hnull⟩ := hsource
        have hlt := hpost.inRange.ends e' he' v (Summary.mem_ends_iff.2 (.inl hv))
        obtain rfl := G.inj v hlt _ hpost.inRange.pos (hnull.trans G.null.symm)
        exact hpost.source_ne_null he' hv
  rw [Frame.resume_eq]
  cases result? with
  | none => exact hglued.collect
  | some x =>
    exact (hglued.setVar (hframe.result_lt hpost.inRange) (.inl (hresult x rfl))).collect

end Abstraction.IsClean

end ShapeCheck
