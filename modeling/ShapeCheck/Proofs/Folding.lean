import ShapeCheck.Proofs.Realization

/-!
# Folding keeps the concretizations

Folding a node merges the two steps of a chain around it: the step into the node is the only
reference to it, and the step out of it is the only one that leaves it. So every heap that the shape
stood for is still described after each fold, and after all of them. The nodes that were folded have
no connection left, and dropping them and numbering canonically loses nothing.
-/

namespace ShapeCheck

open List

variable {A : Abstraction} {h c : Heap} {chain : Chain} {u v w : Node} {sel : String} {i : Nat}
  {e : Summary} {link : Link}

theorem Summary.mem_ends_iff : v ∈ e.ends ↔ e.source? = some v ∨ v ∈ e.targets := by
  obtain ⟨label, _ | ⟨a, ends⟩⟩ := e
  · simp [source?, targets]
  · simp [source?, targets, eq_comm]

namespace Heap

theorem mem_selectorsInto_iff : (u, sel) ∈ h.selectorsInto v ↔ h.selector? u sel = some v := by
  have hread : h.selector? u sel = some v ↔
      ∃ cell, h.cells[u]? = some cell ∧ cell.find? sel = some v := by
    rw [selector?, cell]
    cases h.cells[u]? <;> simp
  rw [hread, selectorsInto]
  simp only [mem_flatMap, mem_zipIdx_iff_getElem?, Prod.exists, mem_map,
    mem_filter, decide_eq_true_eq, Prod.mk.injEq, SortedMap.mem_toList_iff]
  constructor
  · rintro ⟨cell, _, hcell, _, _, ⟨hfind, rfl⟩, rfl, rfl⟩
    exact ⟨cell, hcell, hfind⟩
  · rintro ⟨cell, hcell, hfind⟩
    exact ⟨cell, u, hcell, sel, v, ⟨hfind, rfl⟩, rfl, rfl⟩

theorem mem_summariesInto_iff :
    i ∈ h.summariesInto v ↔ ∃ e, h.summaries[i]? = some e ∧ v ∈ e.targets := by
  simp only [summariesInto, mem_flatMap, mem_zipIdx_iff_getElem?, Prod.exists,
    mem_replicate, ne_eq, count_eq_zero, not_not]
  constructor
  · rintro ⟨e, _, he, hv, rfl⟩
    exact ⟨e, he, hv⟩
  · rintro ⟨e, he, hv⟩
    exact ⟨e, i, he, hv, rfl⟩

theorem mem_summariesOutOf_iff :
    i ∈ h.summariesOutOf v ↔ ∃ e, h.summaries[i]? = some e ∧ e.source? = some v := by
  simp only [summariesOutOf, mem_map, mem_filter, mem_zipIdx_iff_getElem?,
    decide_eq_true_eq, Prod.exists, exists_eq_right]

theorem linkInto?_eq_some_iff : h.linkInto? chain v = some (link, u) ↔
    (link = .selector u ∧ h.selectorsInto v = [(u, chain.selector)] ∧ h.summariesInto v = []) ∨
      ∃ i, link = .summary i ∧ h.selectorsInto v = [] ∧ h.summariesInto v = [i] ∧
        h.summaries[i]? = some ⟨chain.label, [u, v]⟩ := by
  constructor
  · intro hlink
    rw [linkInto?] at hlink
    split at hlink
    · next u' sel hsel hsum =>
      split at hlink
      · next heq =>
        obtain ⟨rfl, rfl⟩ := Prod.mk.inj (Option.some.inj hlink)
        exact .inl ⟨rfl, heq ▸ hsel, hsum⟩
      · cases hlink
    · next i hsel hsum =>
      obtain ⟨⟨a, b⟩, hbind, heq⟩ := Option.map_eq_some_iff.1 hlink
      obtain ⟨rfl, rfl⟩ := Prod.mk.inj heq
      obtain ⟨e, he, hlink⟩ := Option.bind_eq_some_iff.1 hbind
      obtain rfl := Summary.asLink?_eq_some_iff.1 hlink
      obtain ⟨e', he', hv⟩ := mem_summariesInto_iff.1 (show i ∈ h.summariesInto v by simp [hsum])
      obtain rfl := Option.some.inj (he.symm.trans he')
      obtain rfl : v = b := by simpa [Summary.targets] using hv
      exact .inr ⟨i, rfl, hsel, hsum, he⟩
    · cases hlink
  · rintro (⟨rfl, hsel, hsum⟩ | ⟨i, rfl, hsel, hsum, hi⟩)
    · simp [linkInto?, hsel, hsum]
    · simp [linkInto?, hsel, hsum, hi, Summary.asLink?]

theorem linkOutOf?_eq_some_iff : h.linkOutOf? chain v = some (link, w) ↔
    (link = .selector v ∧ (h.cell v).toList = [(chain.selector, w)] ∧ h.summariesOutOf v = []) ∨
      ∃ i, link = .summary i ∧ (h.cell v).toList = [] ∧ h.summariesOutOf v = [i] ∧
        h.summaries[i]? = some ⟨chain.label, [v, w]⟩ := by
  constructor
  · intro hlink
    rw [linkOutOf?] at hlink
    split at hlink
    · next sel w' hsel hsum =>
      split at hlink
      · next heq =>
        obtain ⟨rfl, rfl⟩ := Prod.mk.inj (Option.some.inj hlink)
        exact .inl ⟨rfl, heq ▸ hsel, hsum⟩
      · cases hlink
    · next i hsel hsum =>
      obtain ⟨⟨a, b⟩, hbind, heq⟩ := Option.map_eq_some_iff.1 hlink
      obtain ⟨rfl, rfl⟩ := Prod.mk.inj heq
      obtain ⟨e, he, hlink⟩ := Option.bind_eq_some_iff.1 hbind
      obtain rfl := Summary.asLink?_eq_some_iff.1 hlink
      obtain ⟨e', he', hv⟩ := mem_summariesOutOf_iff.1 (show i ∈ h.summariesOutOf v by simp [hsum])
      obtain rfl := Option.some.inj (he.symm.trans he')
      obtain rfl : a = v := by simpa [Summary.source?] using hv
      exact .inr ⟨i, rfl, hsel, hsum, he⟩
    · cases hlink
  · rintro (⟨rfl, hsel, hsum⟩ | ⟨i, rfl, hsel, hsum, hi⟩)
    · simp [linkOutOf?, hsel, hsum]
    · simp [linkOutOf?, hsel, hsum, hi, Summary.asLink?]

theorem linkInto?_spec (hlink : h.linkInto? chain v = some (link, u)) :
    (∀ a sel, h.selector? a sel = some v → a = u ∧ sel = chain.selector) ∧
      (link = .selector u ∧ h.selector? u chain.selector = some v ∧
          (∀ (j : Nat) (e : Summary), h.summaries[j]? = some e → v ∉ e.targets) ∨
        ∃ i, link = .summary i ∧ h.summaries[i]? = some ⟨chain.label, [u, v]⟩ ∧
          ∀ (j : Nat) (e : Summary), h.summaries[j]? = some e → v ∈ e.targets → j = i) := by
  rcases linkInto?_eq_some_iff.1 hlink with ⟨rfl, hsel, hsum⟩ | ⟨i, rfl, hsel, hsum, hi⟩
  · refine ⟨fun a sel ha => ?_, .inl ⟨rfl, mem_selectorsInto_iff.1 (by simp [hsel]), ?_⟩⟩
    · simpa [hsel] using mem_selectorsInto_iff.2 ha
    · intro j e he hv
      simpa [hsum] using mem_summariesInto_iff.2 ⟨e, he, hv⟩
  · refine ⟨fun a sel ha => ?_, .inr ⟨i, rfl, hi, fun j e hj hv => ?_⟩⟩
    · simpa [hsel] using mem_selectorsInto_iff.2 ha
    · simpa [hsum] using mem_summariesInto_iff.2 ⟨e, hj, hv⟩

theorem linkOutOf?_spec (hlink : h.linkOutOf? chain v = some (link, w)) :
    (∀ sel, sel ≠ chain.selector → h.selector? v sel = none) ∧
      (link = .selector v ∧ h.selector? v chain.selector = some w ∧
          (∀ (j : Nat) (e : Summary), h.summaries[j]? = some e → e.source? ≠ some v) ∨
        ∃ i, link = .summary i ∧ h.summaries[i]? = some ⟨chain.label, [v, w]⟩ ∧
          h.selector? v chain.selector = none ∧
          ∀ (j : Nat) (e : Summary), h.summaries[j]? = some e → e.source? = some v → j = i) := by
  have hcell {sel : String} {w : Node} : h.selector? v sel = some w ↔ (sel, w) ∈ (h.cell v).toList :=
    SortedMap.mem_toList_iff.symm
  rcases linkOutOf?_eq_some_iff.1 hlink with ⟨rfl, hsel, hsum⟩ | ⟨i, rfl, hsel, hsum, hi⟩
  · refine ⟨fun sel hne => ?_, .inl ⟨rfl, hcell.2 (by simp [hsel]), fun j e he hv => ?_⟩⟩
    · refine Option.eq_none_iff_forall_ne_some.2 fun w hw => hne ?_
      rw [hcell, hsel, mem_singleton, Prod.mk.injEq] at hw
      exact hw.1
    · simpa [hsum] using mem_summariesOutOf_iff.2 ⟨e, he, hv⟩
  · have hnone (sel : String) : h.selector? v sel = none := by
      refine Option.eq_none_iff_forall_ne_some.2 fun w hw => ?_
      simpa [hsel] using hcell.1 hw
    refine ⟨fun sel _ => hnone sel, .inr ⟨i, rfl, hi, hnone _, fun j e hj hv => ?_⟩⟩
    simpa [hsum] using mem_summariesOutOf_iff.2 ⟨e, hj, hv⟩

theorem mem_dropSummaries_iff {positions : List Nat} :
    e ∈ (h.dropSummaries positions).summaries ↔
      ∃ i, h.summaries[i]? = some e ∧ i ∉ positions := by
  simp only [dropSummaries, mem_map, mem_filter, mem_zipIdx_iff_getElem?,
    decide_eq_true_eq, Prod.exists, exists_and_right, exists_eq_right]

theorem dropSummaries_perm (positions : List Nat) (hnodup : positions.Nodup) :
    h.summaries.Perm
      (positions.filterMap (h.summaries[·]?) ++ (h.dropSummaries positions).summaries) := by
  have hzip : h.summaries.zipIdx.Nodup := by
    refine List.Nodup.of_map Prod.snd ?_
    rw [zipIdx_map_snd]
    exact nodup_range' ..
  have htaken : (h.summaries.zipIdx.filter (·.2 ∈ positions)).Perm
      (positions.filterMap fun i => (h.summaries[i]?).map (·, i)) := by
    refine (perm_ext_iff_of_nodup (hzip.filter _) (hnodup.filterMap fun i j b hi hj => ?_)).2 ?_
    · obtain ⟨a, -, rfl⟩ := Option.map_eq_some_iff.1 hi
      obtain ⟨a', -, heq⟩ := Option.map_eq_some_iff.1 hj
      exact (Prod.mk.inj heq).2.symm
    · rintro ⟨e, i⟩
      simp [mem_zipIdx_iff_getElem?, and_comm]
  have hall := (filter_append_perm (·.2 ∈ positions) h.summaries.zipIdx).symm.map Prod.fst
  rw [zipIdx_map_fst, map_append] at hall
  refine hall.trans (.append ((htaken.map _).trans (.of_eq ?_)) (.of_eq ?_))
  · rw [map_filterMap]
    exact filterMap_congr fun i _ => by cases h.summaries[i]? <;> rfl
  · simp [dropSummaries]

end Heap

/-- The summaries of a step of a chain: none for a selector. -/
def Link.summaries (link : Link) (h : Heap) : List Summary :=
  link.position?.toList.filterMap (h.summaries[·]?)

theorem Link.summaries_pair (link link' : Link) :
    ([link, link'].filterMap Link.position?).filterMap (h.summaries[·]?) =
      link.summaries h ++ link'.summaries h := by
  have hpair : [link, link'].filterMap Link.position? =
      link.position?.toList ++ link'.position?.toList := by
    cases link <;> cases link' <;> rfl
  rw [hpair, filterMap_append, Link.summaries, Link.summaries]

namespace Heap

variable {f : Fold}

theorem foldAt?_eq_some (hf : h.foldAt? chain v = some f) :
    f.chain = chain ∧ f.node = v ∧ h.linkInto? chain v = some (f.incoming, f.source) ∧
      h.linkOutOf? chain v = some (f.outgoing, f.target) ∧ f.source ≠ v ∧ f.target ≠ v := by
  rw [foldAt?] at hf
  obtain ⟨⟨incoming, source⟩, hin, hf⟩ := Option.bind_eq_some_iff.1 hf
  obtain ⟨⟨outgoing, target⟩, hout, hf⟩ := Option.bind_eq_some_iff.1 hf
  dsimp only at hf
  split at hf
  · cases hf
  · next hne =>
    obtain rfl := Option.some.inj hf
    simp only [Bool.or_eq_true, decide_eq_true_eq, not_or] at hne
    exact ⟨rfl, rfl, hin, hout, hne⟩

theorem selector?_dropLinkSelector :
    (h.dropLinkSelector chain link).selector? u sel =
      if link = .selector u ∧ sel = chain.selector then none else h.selector? u sel := by
  cases link with
  | selector owner => simp [dropLinkSelector, selector?_dropSelector, eq_comm]
  | summary i => simp [dropLinkSelector]

@[simp]
theorem size_dropLinkSelector : (h.dropLinkSelector chain link).size = h.size := by
  cases link <;> simp [dropLinkSelector]

@[simp]
theorem var?_dropLinkSelector {x : String} :
    (h.dropLinkSelector chain link).var? x = h.var? x := by
  cases link <;> simp [dropLinkSelector]

@[simp]
theorem summaries_dropLinkSelector :
    (h.dropLinkSelector chain link).summaries = h.summaries := by
  cases link <;> simp [dropLinkSelector]

theorem size_apply : (f.apply h).size = h.size := by
  simp [Fold.apply]

theorem summaries_apply : (f.apply h).summaries =
    (h.dropSummaries ([f.incoming, f.outgoing].filterMap Link.position?)).summaries ++
      [⟨f.chain.label, [f.source, f.target]⟩] := by
  simp [Fold.apply, addSummary, dropSummaries]

theorem selector?_apply : (f.apply h).selector? u sel =
    if (f.incoming = .selector u ∨ f.outgoing = .selector u) ∧ sel = f.chain.selector then none
    else h.selector? u sel := by
  rw [Fold.apply, selector?_addSummary, selector?_dropSummaries, selector?_dropLinkSelector,
    selector?_dropLinkSelector]
  by_cases hsel : sel = f.chain.selector <;> by_cases hin : f.incoming = .selector u <;>
    simp [hsel, hin]

theorem isStep_of_linkInto? (hlink : h.linkInto? chain v = some (link, u))
    (hdet : A.IsDeterministic h) (hchain : chain ∈ A.chains) :
    h.IsStep chain u v (link.summaries h) := by
  obtain ⟨-, ⟨rfl, hsel, -⟩ | ⟨i, rfl, hi, -⟩⟩ := linkInto?_spec hlink
  · exact .inl ⟨hsel, rfl⟩
  · refine .inr ⟨hdet.hidden chain hchain u v (mem_of_getElem? hi), ?_⟩
    simp [Link.summaries, Link.position?, hi]

theorem isStep_of_linkOutOf? (hlink : h.linkOutOf? chain v = some (link, w)) :
    h.IsStep chain v w (link.summaries h) := by
  obtain ⟨-, ⟨rfl, hsel, -⟩ | ⟨i, rfl, hi, hsel, -⟩⟩ := linkOutOf?_spec hlink
  · exact .inl ⟨hsel, rfl⟩
  · refine .inr ⟨hsel, ?_⟩
    simp [Link.summaries, Link.position?, hi]

theorem selector?_apply_of_foldAt? (hf : h.foldAt? chain v = some f) (hchain : f.chain ∈ A.chains)
    (hdet : A.IsDeterministic h) : (f.apply h).selector? u sel =
      if sel = f.chain.selector ∧ (u = f.source ∨ u = f.node) then none else h.selector? u sel := by
  obtain ⟨rfl, rfl, hin, hout, -, -⟩ := foldAt?_eq_some hf
  obtain ⟨-, hincoming⟩ := linkInto?_spec hin
  obtain ⟨-, houtgoing⟩ := linkOutOf?_spec hout
  rw [selector?_apply]
  by_cases hsel : sel = f.chain.selector
  · subst hsel
    have hu : f.incoming = .selector u ∨ f.outgoing = .selector u → u = f.source ∨ u = f.node := by
      rintro (hu | hu)
      · rcases hincoming with ⟨hin, -, -⟩ | ⟨i, hin, -, -⟩ <;> simp_all
      · rcases houtgoing with ⟨hout, -, -⟩ | ⟨i, hout, -, -, -⟩ <;> simp_all
    have hnone : u = f.source ∨ u = f.node →
        (f.incoming = .selector u ∨ f.outgoing = .selector u) ∨
          h.selector? u f.chain.selector = none := by
      rintro (rfl | rfl)
      · rcases hincoming with ⟨hin, -, -⟩ | ⟨i, -, hi, -⟩
        · exact .inl (.inl hin)
        · exact .inr (hdet.hidden _ hchain _ _ (mem_of_getElem? hi))
      · rcases houtgoing with ⟨hout, -, -⟩ | ⟨i, -, -, hnone, -⟩
        · exact .inl (.inr hout)
        · exact .inr hnone
    split_ifs with hleft hright hright
    · rfl
    · exact absurd ⟨rfl, hu hleft.1⟩ hright
    · exact (hnone hright.2).resolve_left fun hlink => hleft ⟨hlink, rfl⟩
    · rfl
  · rw [if_neg fun hand => hsel hand.2, if_neg fun hand => hsel hand.1]

/-- No summary is both steps of a fold: it would start and end in the node. -/
theorem nodup_positions_of_foldAt? (hf : h.foldAt? chain v = some f) :
    ([f.incoming, f.outgoing].filterMap Link.position?).Nodup := by
  obtain ⟨rfl, rfl, hin, hout, hsource, htarget⟩ := foldAt?_eq_some hf
  obtain ⟨-, hincoming⟩ := linkInto?_spec hin
  obtain ⟨-, houtgoing⟩ := linkOutOf?_spec hout
  rcases hincoming with ⟨hin, -, -⟩ | ⟨i, hin, hi, -⟩ <;>
    rcases houtgoing with ⟨hout, -, -⟩ | ⟨j, hout, hj, -, -⟩ <;>
    simp only [hin, hout, Link.position?, filterMap_cons, filterMap_nil,
      nodup_nil, nodup_cons, not_mem_nil, not_false_eq_true, and_true,
      mem_singleton]
  rintro rfl
  rw [hi] at hj
  simp_all

theorem not_mem_ends_of_foldAt? (hf : h.foldAt? chain v = some f)
    (he : e ∈ (h.dropSummaries ([f.incoming, f.outgoing].filterMap Link.position?)).summaries) :
    v ∉ e.ends := by
  obtain ⟨rfl, rfl, hin, hout, -, -⟩ := foldAt?_eq_some hf
  obtain ⟨-, hincoming⟩ := linkInto?_spec hin
  obtain ⟨-, houtgoing⟩ := linkOutOf?_spec hout
  intro hmem
  obtain ⟨j, hj, hpos⟩ := mem_dropSummaries_iff.1 he
  rcases Summary.mem_ends_iff.1 hmem with hsrc | htgt
  · rcases houtgoing with ⟨-, -, hnone⟩ | ⟨i, hout, -, -, huniq⟩
    · exact hnone j e hj hsrc
    · exact hpos (by simp [hout, Link.position?, huniq j e hj hsrc])
  · rcases hincoming with ⟨-, -, hnone⟩ | ⟨i, hin, -, huniq⟩
    · exact hnone j e hj htgt
    · exact hpos (by simp [hin, Link.position?, huniq j e hj htgt])

theorem exists_merge_of_foldAt? (hf : h.foldAt? chain v = some f) (hchain : chain ∈ A.chains)
    (hdet : A.IsDeterministic h) (hnull : v ≠ Node.null) (hvar : ∀ x, h.var? x ≠ some v) :
    ∃ m : Merge A h (f.apply h), m.node = v := by
  obtain ⟨rfl, rfl, hin, hout, hsource, htarget⟩ := foldAt?_eq_some hf
  obtain ⟨hinto, -⟩ := linkInto?_spec hin
  obtain ⟨houtof, -⟩ := linkOutOf?_spec hout
  have hstep := isStep_of_linkInto? hin hdet hchain
  refine ⟨{ chain := f.chain, source := f.source, node := f.node, target := f.target,
            into := f.incoming.summaries h, out := f.outgoing.summaries h
            rest := (h.dropSummaries ([f.incoming, f.outgoing].filterMap Link.position?)).summaries
            mem := hchain, node_ne_null := hnull, source_ne := hsource, target_ne := htarget
            isStep_into := hstep, isStep_out := isStep_of_linkOutOf? hout
            var_ne := hvar, selector_into := hinto, selector_out := houtof
            summaries := ?summaries, summaries_coarse := ?coarse, selector_coarse := ?selector
            var := ?var, not_mem_ends := fun e => not_mem_ends_of_foldAt? hf }, rfl⟩
  case summaries =>
    rw [← Link.summaries_pair]
    exact dropSummaries_perm _ (nodup_positions_of_foldAt? hf)
  case coarse =>
    rw [summaries_apply]
    exact perm_append_singleton _ _
  case selector => exact fun u sel => selector?_apply_of_foldAt? hf hchain hdet
  case var => simp [Fold.apply]

theorem mem_tail_nodes_iff : v ∈ h.nodes.tail ↔ v < h.size ∧ v ≠ Node.null := by
  cases hsize : h.size with
  | zero => simp [nodes, hsize]
  | succ k => cases v <;> simp [nodes, hsize, range_succ_eq_map, Node.null]

theorem subset_layersFrom {depth : Nat} {seen layer : List Node} :
    seen ⊆ h.layersFrom depth seen layer := by
  induction depth generalizing seen layer with
  | zero => exact List.Subset.refl _
  | succ depth ih =>
    rw [layersFrom]
    split
    · exact List.Subset.refl _
    · exact List.Subset.trans (subset_append_left _ _) ih

theorem mem_near_of_var? {x : String} (hx : h.var? x = some v) (depth : Nat) :
    v ∈ h.near depth :=
  subset_layersFrom (mem_visitAll.2 (.inr (mem_values_vars.2 ⟨x, hx⟩)))

end Heap

namespace Abstraction

variable {g g' : Heap} {f : Fold} {depth steps : Nat} {folded : List Node}

theorem findFold?_eq_some (hf : A.findFold? h depth folded = some f) :
    ∃ chain ∈ A.chains, h.foldAt? chain f.node = some f ∧ f.node < h.size ∧ f.node ≠ Node.null ∧
      f.node ∉ folded ∧ f.node ∉ h.near depth := by
  rw [findFold?] at hf
  obtain ⟨chain, hchain, hf⟩ := exists_of_findSome?_eq_some hf
  obtain ⟨v, hv, hf⟩ := exists_of_findSome?_eq_some hf
  split at hf
  · cases hf
  · next hkept =>
    simp only [Bool.or_eq_true, decide_eq_true_eq, not_or] at hkept
    obtain ⟨-, rfl, -⟩ := Heap.foldAt?_eq_some hf
    obtain ⟨hlt, hnull⟩ := Heap.mem_tail_nodes_iff.1 hv
    exact ⟨chain, hchain, hf, hlt, hnull, hkept⟩

/-- The state of folding: the nodes folded so far have no connection left. -/
structure IsFolding (A : Abstraction) (n : Nat) (g : Heap) (folded : List Node) : Prop where
  inRange : g.InRange
  det : A.IsDeterministic g
  size : g.size = n
  null : Node.null ∉ folded
  bare : ∀ v ∈ folded, ∀ sel, g.selector? v sel = none
  selector_ne : ∀ v ∈ folded, ∀ u sel, g.selector? u sel ≠ some v
  not_mem_ends : ∀ v ∈ folded, ∀ e ∈ g.summaries, v ∉ e.ends
  var_ne : ∀ v ∈ folded, ∀ x, g.var? x ≠ some v

namespace IsFolding

variable {n : Nat}

theorem start (hh : h.InRange) (hdet : A.IsDeterministic h) : A.IsFolding h.size h [] :=
  ⟨hh, hdet, rfl, by simp, by simp, by simp, by simp, by simp⟩

theorem not_mem_of_arrow (hfolding : A.IsFolding n g folded) (hw : A.Arrow g u sel w) :
    u ∉ folded ∧ w ∉ folded := by
  rcases hw with hw | ⟨chain, -, -, hw⟩
  · refine ⟨fun hu => ?_, fun hmem => hfolding.selector_ne w hmem u sel hw⟩
    rw [hfolding.bare u hu] at hw
    cases hw
  · exact ⟨fun hu => hfolding.not_mem_ends u hu _ hw (by simp),
      fun hmem => hfolding.not_mem_ends w hmem _ hw (by simp)⟩

theorem merge (hfolding : A.IsFolding n g folded) (m : Merge A g g') (hA : A.IsDistinct)
    (hsize : g'.size = g.size) : A.IsFolding n g' (m.node :: folded) := by
  have hsource := (hfolding.not_mem_of_arrow m.arrow_into).1
  have htarget := (hfolding.not_mem_of_arrow m.arrow_out).2
  constructor
  case inRange => exact m.inRange_coarse hfolding.inRange hsize
  case det => exact m.isDeterministic_coarse hA hfolding.det
  case size => exact hsize.trans hfolding.size
  case null =>
    rw [mem_cons, not_or]
    exact ⟨fun heq => m.node_ne_null heq.symm, hfolding.null⟩
  case bare =>
    intro v hv sel
    rcases mem_cons.1 hv with rfl | hv
    · exact Option.eq_none_iff_forall_ne_some.2 fun w hw => m.not_arrow_node (.inl hw)
    · rw [m.selector_coarse, hfolding.bare v hv sel, ite_self]
  case selector_ne =>
    intro v hv u sel hu
    rcases mem_cons.1 hv with rfl | hv
    · exact m.ne_node_of_arrow (.inl hu) rfl
    · rw [m.selector_coarse] at hu
      split at hu
      · cases hu
      · exact hfolding.selector_ne v hv u sel hu
  case not_mem_ends =>
    intro v hv e he hmem
    rcases m.mem_summaries_coarse_iff.1 he with rfl | he
    · have hcases : v = m.source ∨ v = m.target := by simpa using hmem
      rcases mem_cons.1 hv with rfl | hv
      · exact hcases.elim (fun heq => m.source_ne heq.symm) fun heq => m.target_ne heq.symm
      · exact hcases.elim (fun heq => hsource (heq ▸ hv)) fun heq => htarget (heq ▸ hv)
    · rcases mem_cons.1 hv with rfl | hv
      · exact m.not_mem_ends e he hmem
      · exact hfolding.not_mem_ends v hv e (m.mem_summaries_iff.2 (.inr (.inr he))) hmem
  case var_ne =>
    intro v hv x hx
    rw [m.var] at hx
    rcases mem_cons.1 hv with rfl | hv
    · exact m.var_ne x hx
    · exact hfolding.var_ne v hv x hx

theorem isPart_dropNodes (hfolding : A.IsFolding n g folded) :
    ∃ f, Heap.IsPart f (g.dropNodes ((List.range n).map (· ∈ folded))) g ∧
      ∀ v, (∃ u < (g.dropNodes ((List.range n).map (· ∈ folded))).size, f u = v) ↔
        v < n ∧ v ∉ folded := by
  have hdead : ∀ v, ((List.range n).map (decide <| · ∈ folded))[v]?.getD false = false ↔
      (v < n → v ∉ folded) := by
    intro v
    by_cases hv : v < n <;> simp [hv]
  have hclosed : ∀ v, ∀ w ∈ g.successors v,
      ((List.range n).map (decide <| · ∈ folded))[w]?.getD false = false := by
    intro v w hw
    refine (hdead w).2 fun _ hmem => ?_
    rcases Heap.mem_successors_iff.1 hw with ⟨sel, hsel⟩ | ⟨e, he, -, hw⟩
    · exact hfolding.selector_ne w hmem v sel hsel
    · exact hfolding.not_mem_ends w hmem e he (mem_of_mem_tail hw)
  obtain ⟨f, hf, himage⟩ := hfolding.inRange.isPart_dropNodes hclosed fun x v hv =>
    (hdead v).2 fun _ hmem => hfolding.var_ne v hmem x hv
  refine ⟨f, hf, fun v => (himage v).trans ?_⟩
  rw [hfolding.size, hdead]
  refine and_congr_right fun hv => ⟨?_, fun hmem => .inr fun _ => hmem⟩
  rintro (rfl | hmem)
  · exact hfolding.null
  · exact hmem hv

end IsFolding

theorem foldAll_induction (depth steps : Nat) {P : Heap → List Node → Prop} (hA : A.IsDistinct)
    {n : Nat}
    (hstep : ∀ g g' folded (m : Merge A g g'), A.IsFolding n g folded → g'.size = g.size →
      P g folded → P g' (m.node :: folded))
    (hfolding : A.IsFolding n g folded) (hstart : P g folded) :
    A.IsFolding n (A.foldAll depth steps g folded).1 (A.foldAll depth steps g folded).2 ∧
      P (A.foldAll depth steps g folded).1 (A.foldAll depth steps g folded).2 := by
  induction steps generalizing g folded with
  | zero => exact ⟨hfolding, hstart⟩
  | succ steps ih =>
    rw [foldAll]
    split
    · exact ⟨hfolding, hstart⟩
    · next f hf =>
      obtain ⟨chain, hchain, hfold, -, hnull, -, hnear⟩ := findFold?_eq_some hf
      obtain ⟨m, hnode⟩ := Heap.exists_merge_of_foldAt? hfold hchain hfolding.det hnull fun x hx =>
        hnear (Heap.mem_near_of_var? hx depth)
      rw [← hnode]
      exact ih (hfolding.merge m hA Heap.size_apply)
        (hstep g _ folded m hfolding Heap.size_apply hstart)

/-- The nodes that are not folded yet. -/
def unfolded (n : Nat) (folded : List Node) : Set Node :=
  {v | v < n ∧ v ∉ folded}

theorem unfolded_diff {n : Nat} : unfolded n folded \ {v} = unfolded n (v :: folded) := by
  ext u
  simp only [unfolded, Set.mem_sdiff, Set.mem_ofPred_eq, Set.mem_singleton_iff, mem_cons,
    not_or]
  tauto

theorem unfolded_nil : unfolded h.size [] = h.nodeSet := by
  simp [unfolded, Heap.nodeSet]

theorem IsFolding.isRealization_merge {n : Nat} (hfolding : A.IsFolding n g folded) {φ : Node → Node}
    {inner : Node → String → List Node} (R : IsRealization A (unfolded n folded) g c φ inner)
    (m : Merge A g g') (hA : A.IsDistinct) (hsize : g'.size = g.size) :
    IsRealization A (unfolded n (m.node :: folded)) g' c φ (m.join φ inner) := by
  rw [← unfolded_diff]
  refine R.merge m hA hfolding.det (fun v hv _ => hsize.symm ▸ hv) ⟨?_, ?_⟩
  · exact hfolding.size ▸ m.source_lt hfolding.inRange
  · exact (hfolding.not_mem_of_arrow m.arrow_into).1

theorem isConcretization_shapeAt (hA : A.IsDistinct) (hh : h.InRange) (hdet : A.IsDeterministic h)
    (hc : A.IsConcretization c h) (depth : Nat) : A.IsConcretization c (A.shapeAt depth h) := by
  have hstart : ∃ φ inner, IsRealization A (unfolded h.size []) h c φ inner :=
    unfolded_nil ▸ (isConcretization_iff_exists_isRealization hA hh hdet).1 hc
  obtain ⟨hfolding, φ, inner, R⟩ := foldAll_induction depth h.size
    (P := fun g folded => ∃ φ inner, IsRealization A (unfolded h.size folded) g c φ inner) hA
    (fun g g' folded m hfolding hsize ⟨φ, inner, R⟩ =>
      ⟨φ, _, hfolding.isRealization_merge R m hA hsize⟩)
    (.start hh hdet) hstart
  obtain ⟨f, hf, himage⟩ := hfolding.isPart_dropNodes
  have hrange := hfolding.inRange.inRange_dropNodes
    ((List.range h.size).map (· ∈ (A.foldAll depth h.size h []).2))
  have R' := R.comp hf hrange fun v hv => (himage v).2 hv
  have hS : {u | u < ((A.foldAll depth h.size h []).1.dropNodes
      ((List.range h.size).map (· ∈ (A.foldAll depth h.size h []).2))).size ∧
      f u ∈ unfolded h.size (A.foldAll depth h.size h []).2} = Heap.nodeSet _ :=
    Set.ext fun u => ⟨And.left, fun hu => ⟨hu, (himage _).1 ⟨u, hu, rfl⟩⟩⟩
  rw [hS] at R'
  have hdet' := hf.isDeterministic hrange hfolding.det
  exact (hrange.isomorphic_normalize.isConcretization_iff hA hrange hdet').1
    (R'.isConcretization hA hrange hdet')

/-- Every heap that a heap stands for is described by its canonical shape, by its most general shape,
and by each shape that is recognised as describing it. -/
theorem isConcretization_of_shapes (hA : A.IsDistinct) (hh : h.InRange) (hdet : A.IsDeterministic h)
    (hc : A.IsConcretization c h) :
    A.IsConcretization c (A.canonical h) ∧ A.IsConcretization c (A.coarsest h) ∧
      ∀ shape, A.subsumes shape h → A.IsConcretization c shape := by
  have hcanonical := isConcretization_shapeAt hA hh hdet hc A.depth
  have hcoarsest := isConcretization_shapeAt hA hh hdet hc 0
  refine ⟨hcanonical, hcoarsest, fun shape hshape => ?_⟩
  rw [subsumes, decide_eq_true_eq, views] at hshape
  simp only [mem_cons, not_mem_nil, or_false] at hshape
  rcases hshape with rfl | rfl | rfl | rfl
  · exact hc
  · exact (hh.isomorphic_normalize.isConcretization_iff hA hh hdet).1 hc
  · exact hcanonical
  · exact hcoarsest

/-- A list of three nodes that closes to a ring. -/
def ring : Heap :=
  ⟨[∅, .ofList [("next", 2)], .ofList [("next", 3)], .ofList [("next", 1)]], .ofList [("x", 1)], []⟩

/-- The ring with a summary from its second node back to its first. -/
def ringShape : Heap :=
  ⟨[∅, .ofList [("next", 2)], ∅], .ofList [("x", 1)], [⟨"SLL", [2, 1]⟩]⟩

theorem isConcretization_ring : IsConcretization {} ring ringShape := by
  have hchain : Chain.list ∈ ({} : Abstraction).chains := by decide
  refine ⟨_, .single (.short hchain (x := 2) (y := 1) (l := []) (r := []) rfl), ?_, id, ?_⟩
  · decide
  · have heq : ((ringShape.stepFrom 2 Chain.list.selector ([] ++ [])).modifyCell ringShape.size
        (·.insert Chain.list.selector 1)) = ring := by decide +kernel
    exact heq ▸ Heap.isRenumbering_id _

/-- Folded up to the variable, the ring is one summary from its first node to itself. -/
theorem isConcretization_of_shapes_ring :
    IsDistinct {} ∧ ringShape.InRange ∧ IsDeterministic {} ringShape ∧
      IsConcretization {} ring ringShape ∧
      IsConcretization {} ring ⟨[∅, ∅], .ofList [("x", 1)], [⟨"SLL", [1, 1]⟩]⟩ := by
  have hA : IsDistinct {} := by decide
  have hh : ringShape.InRange := by decide +kernel
  have hdet : IsDeterministic {} ringShape := by decide +kernel
  have hshape : coarsest {} ringShape = ⟨[∅, ∅], .ofList [("x", 1)], [⟨"SLL", [1, 1]⟩]⟩ := by
    decide +kernel
  refine ⟨hA, hh, hdet, isConcretization_ring, ?_⟩
  exact hshape ▸ (isConcretization_of_shapes hA hh hdet isConcretization_ring).2.1

end Abstraction

end ShapeCheck
