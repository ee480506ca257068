import ShapeCheck.Proofs.CanonicalShape
import Mathlib.Combinatorics.Enumerative.DoubleCounting

/-!
# The size of shapes along one chain

In the heaps of this file all connections are steps of one chain, and every node has one step at most.
Such a heap without garbage in which no node can be folded is small: a node that no variable names
either ends a chain, or two nodes lead to it. Since every node leads to one node at most, there are not
more of them than of named nodes.

A fold puts one step in the place of two, so it gives no node a second step, and neither does leaving
nodes out. The canonical shape of what garbage collection leaves is therefore such a heap, and its
size is bounded by the number of nodes with a name.
-/

namespace ShapeCheck

open List

variable {A : Abstraction} {f : Node → Node} {g h h' : Heap} {chain : Chain} {u v w w' s t : Node}

namespace Heap

theorem successors_perm (h : Heap) (v : Node) : (h.successors v).Perm
    ((h.connections.filter (·.ends.head? = some v)).flatMap (·.ends.tail)) := by
  have hselectors : (h.selectors.filter (·.ends.head? = some v)).Perm
      ((h.cell v).toList.map fun e => .selector v e.1 e.2) := by
    refine (perm_ext_iff_of_nodup (nodup_selectors.filter _)
      ((nodup_toList_cell _).map fun a b heq => ?_)).2 fun k => ?_
    · obtain ⟨-, hname, htarget⟩ := Connection.selector.inj heq
      exact Prod.ext hname htarget
    · rw [mem_filter, mem_selectors_iff, decide_eq_true_eq, mem_map]
      constructor
      · rintro ⟨⟨u, sel, w, hw, rfl⟩, hu⟩
        obtain rfl := Option.some.inj hu
        exact ⟨(sel, w), SortedMap.mem_toList_iff.2 hw, rfl⟩
      · rintro ⟨e, he, rfl⟩
        exact ⟨⟨v, e.1, e.2, SortedMap.mem_toList_iff.1 he, rfl⟩, rfl⟩
  rw [connections, filter_append, flatMap_append, filter_map, flatMap_map]
  refine .append (.trans (.of_eq ?_) (hselectors.symm.flatMap_right _)) (.refl _)
  rw [flatMap_map]
  exact map_eq_flatMap

theorem length_successors_eq (hstep : ∀ k ∈ h.connections, ∃ u w, chain.IsStep u w k) :
    (h.successors v).length = h.connections.countP (·.ends.head? = some v) := by
  rw [(h.successors_perm v).length_eq, length_flatMap, countP_eq_length_filter]
  have hone : (h.connections.filter (·.ends.head? = some v)).map (·.ends.tail.length) =
      (h.connections.filter (·.ends.head? = some v)).map fun _ => 1 := by
    refine map_congr_left fun k hk => ?_
    obtain ⟨u, w, hk⟩ := hstep k (mem_of_mem_filter hk)
    rw [hk.ends_eq]
    rfl
  rw [hone, map_const', sum_replicate_nat, Nat.mul_one]

theorem InRange.successors_eq_nil (hh : h.InRange) (hv : ¬v < h.size) : h.successors v = [] :=
  eq_nil_iff_forall_not_mem.2 fun _ hw => hv (hh.lt_of_leads hw)

theorem IsPart.length_successors (hf : IsPart f g h) (hg : g.InRange) (hv : v < g.size) :
    (g.successors v).length = (h.successors (f v)).length := by
  have htargets : ((g.summaries.filter (·.source? = some v)).flatMap Summary.targets).length =
      ((h.summaries.filter (·.source? = some (f v))).flatMap Summary.targets).length := by
    rw [← ((hf.filter_source?_perm hg hv).flatMap_right _).length_eq, flatMap_map,
      length_flatMap, length_flatMap]
    simp [Summary.targets, Summary.map]
  rw [successors, successors, length_append, length_append, htargets, hf.cell_eq hv,
    values_filterMap, length_map]

theorem IsPart.map_mem_connections (hf : IsPart f g h) {k : Connection} (hk : k ∈ g.connections) :
    k.map f ∈ h.connections := by
  cases k with
  | selector u sel w =>
    rw [selector_mem_connections] at hk
    refine selector_mem_connections.2 ?_
    rw [hf.selector u (lt_size_of_selector? hk), hk]
    rfl
  | summary e =>
    exact summary_mem_connections.2 (hf.map_mem_summaries (summary_mem_connections.1 hk))

/-- All connections are steps of the chain, no step starts at null, and no node has two. -/
structure IsChainHeap (chain : Chain) (h : Heap) : Prop where
  step : ∀ k ∈ h.connections, ∃ u w, chain.IsStep u w k
  null : h.successors Node.null = []
  one : ∀ v, (h.successors v).length ≤ 1

theorem IsContraction.length_successors_le (hc : IsContraction chain s v t h h')
    (hstep : ∀ k ∈ h.connections, ∃ u w, chain.IsStep u w k)
    (hstep' : ∀ k ∈ h'.connections, ∃ u w, chain.IsStep u w k) (u : Node) :
    (h'.successors u).length ≤ (h.successors u).length := by
  obtain ⟨-, -, into, out, hinto, -, haround⟩ := hc.isInside
  have hnew : (Connection.summary ⟨chain.label, [s, t]⟩).ends.head? = into.ends.head? := by
    rw [hinto.ends_eq]
    rfl
  -- the connections around the folded node are counted apart from the others, which stay
  have hsplit := countP_eq_countP_filter_add h.connections (·.ends.head? = some u) (v ∈ ·.ends)
  have hpair := haround.countP_eq (·.ends.head? = some u)
  have hperm := hc.connections.countP_eq (·.ends.head? = some u)
  simp only [decide_not] at hperm
  rw [around, countP_cons] at hpair
  rw [countP_cons, hnew] at hperm
  rw [length_successors_eq hstep, length_successors_eq hstep']
  omega

namespace IsChainHeap

theorem ofPart (hh : h.IsChainHeap chain) (hf : IsPart f g h) (hg : g.InRange) :
    g.IsChainHeap chain where
  step k hk := by
    obtain ⟨u, w, hstep⟩ := hh.step _ (hf.map_mem_connections hk)
    cases k with
    | selector a sel b =>
      rcases hstep with heq | heq
      · obtain ⟨-, rfl, -⟩ := Connection.selector.inj heq
        exact ⟨a, b, .inl rfl⟩
      · cases heq
    | summary e =>
      rcases hstep with heq | heq
      · cases heq
      · obtain ⟨label, ends⟩ := e
        obtain ⟨rfl, hends⟩ := Summary.mk.inj (Connection.summary.inj heq)
        obtain ⟨a, b, rfl⟩ := length_eq_two.1 ((length_map f).symm.trans (congrArg _ hends))
        exact ⟨a, b, .inr rfl⟩
  null := by
    refine length_eq_zero_iff.1 ?_
    rw [hf.length_successors (v := Node.null) hg hg.pos, hf.null, hh.null]
    rfl
  one v := by
    by_cases hv : v < g.size
    · exact hf.length_successors hg hv ▸ hh.one (f v)
    · rw [hg.successors_eq_nil hv]
      exact Nat.zero_le 1

theorem contract (hh : h.IsChainHeap chain) (hc : IsContraction chain s v t h h') :
    h'.IsChainHeap chain := by
  have hstep (k : Connection) (hk : k ∈ h'.connections) : ∃ u w, chain.IsStep u w k := by
    rcases hc.mem_connections_iff.1 hk with rfl | ⟨hk, -⟩
    · exact ⟨s, t, .inr rfl⟩
    · exact hh.step k hk
  have hle := hc.length_successors_le hh.step hstep
  refine ⟨hstep, length_eq_zero_iff.1 ?_, fun u => (hle u).trans (hh.one u)⟩
  exact Nat.le_zero.1 ((hle Node.null).trans (Nat.le_of_eq (congrArg List.length hh.null)))

theorem collect (hh : h.IsChainHeap chain) (hrange : h.InRange) : h.collect.IsChainHeap chain := by
  obtain ⟨f, hf, -⟩ := hrange.isPart_collect
  exact hh.ofPart hf hrange.inRange_collect

theorem shapeAt (hh : h.IsChainHeap chain) (hrange : h.InRange) (hA : A.chains = [chain])
    (depth : Nat) : (A.shapeAt depth h).IsChainHeap chain := by
  obtain ⟨-, hfolded⟩ := Abstraction.IsReducing.foldAll_induction A depth h.size
    (P := fun g _ => g.IsChainHeap chain)
    (fun _ _ _ chain' hchain _ _ _ _ hc _ _ _ _ _ hg => by
      obtain rfl : chain' = chain := mem_singleton.1 (hA ▸ hchain)
      exact hg.contract hc)
    (.start hrange) hh
  obtain ⟨f, hf, -⟩ := hrange.exists_isCore_shapeAt A depth
  exact hfolded.ofPart hf.toIsPart (hrange.inRange_shapeAt A depth)

section

variable (hh : h.IsChainHeap chain)
include hh

theorem leads_unique (hw : h.Leads v w) (hw' : h.Leads v w') : w = w' := by
  obtain ⟨a, ha⟩ := length_eq_one_iff.1
    (Nat.le_antisymm (hh.one v) (length_pos_of_mem hw))
  rw [Leads, ha, mem_singleton] at hw hw'
  exact hw.trans hw'.symm

theorem ne_null_of_leads (hw : h.Leads v w) : v ≠ Node.null := by
  rintro rfl
  rw [Leads, hh.null] at hw
  cases hw

theorem eq_of_head? {k k' : Connection} (hk : k ∈ h.connections) (hk' : k' ∈ h.connections)
    (hu : k.ends.head? = some u) (hu' : k'.ends.head? = some u) : k = k' := by
  have hone := (length_successors_eq hh.step).symm.trans_le (hh.one u)
  have hmem : k ∈ h.connections.filter (·.ends.head? = some u) :=
    mem_filter.2 ⟨hk, decide_eq_true hu⟩
  have hmem' : k' ∈ h.connections.filter (·.ends.head? = some u) :=
    mem_filter.2 ⟨hk', decide_eq_true hu'⟩
  rw [countP_eq_length_filter] at hone
  obtain ⟨a, ha⟩ := length_eq_one_iff.1 (Nat.le_antisymm hone (length_pos_of_mem hmem))
  rw [ha, mem_singleton] at hmem hmem'
  exact hmem.trans hmem'.symm

theorem nodup_connections : h.connections.Nodup := by
  refine nodup_iff_count_le_one.2 fun k => ?_
  by_cases hk : k ∈ h.connections
  · obtain ⟨u, w, hstep⟩ := hh.step k hk
    refine Nat.le_trans (countP_mono_left fun k' _ heq => ?_)
      ((length_successors_eq hh.step).symm.trans_le (hh.one u))
    rw [eq_of_beq heq, hstep.ends_eq]
    exact decide_eq_true rfl
  · exact (count_eq_zero_of_not_mem hk).trans_le (Nat.zero_le 1)

theorem exists_isStep (huv : h.Leads u v) : ∃ k ∈ h.connections, chain.IsStep u v k := by
  obtain ⟨k, hk, hhead, htail⟩ := leads_iff_connections.1 huv
  obtain ⟨a, b, hstep⟩ := hh.step k hk
  rw [hstep.ends_eq] at hhead htail
  obtain rfl := Option.some.inj hhead
  obtain rfl := mem_singleton.1 htail
  exact ⟨k, hk, hstep⟩

theorem isInside (huv : h.Leads u v) (hvw : h.Leads v w) (hu : u ≠ v) (hw : w ≠ v)
    (honly : ∀ u', h.Leads u' v → u' = u) : h.IsInside chain u v w := by
  obtain ⟨into, hinto, hstep⟩ := hh.exists_isStep huv
  obtain ⟨out, hout, hstep'⟩ := hh.exists_isStep hvw
  have hhead : into.ends.head? = some u := congrArg List.head? hstep.ends_eq
  have hhead' : out.ends.head? = some v := congrArg List.head? hstep'.ends_eq
  have hne : into ≠ out := by
    rintro rfl
    exact hu (Option.some.inj (hhead.symm.trans hhead'))
  have haround : (h.around v).Nodup := hh.nodup_connections.filter _
  refine ⟨hu, hw, into, out, hstep, hstep',
    (perm_ext_iff_of_nodup haround (by simpa using hne)).2 fun k => ?_⟩
  rw [mem_around_iff, mem_cons, mem_singleton]
  constructor
  · rintro ⟨hk, hv⟩
    obtain ⟨a, b, hk'⟩ := hh.step k hk
    have hstart : k.ends.head? = some a := congrArg List.head? hk'.ends_eq
    have hcases : v = a ∨ v = b := by simpa [hk'.ends_eq] using hv
    -- a connection that ends at the node starts at its only predecessor
    rcases hcases with rfl | rfl
    · exact .inr (hh.eq_of_head? hk hout hstart hhead')
    · obtain rfl := honly a (leads_iff_connections.2 ⟨k, hk, hstart, by simp [hk'.ends_eq]⟩)
      exact .inl (hh.eq_of_head? hk hinto hstart hhead)
  · rintro (rfl | rfl)
    · exact ⟨hinto, by simp [hstep.ends_eq]⟩
    · exact ⟨hout, by simp [hstep'.ends_eq]⟩

end

end IsChainHeap

instance (h : Heap) : DecidableRel h.Leads :=
  fun u v => inferInstanceAs (Decidable (v ∈ h.successors u))

/-- The nodes that lead to a node. -/
def predecessors (h : Heap) (v : Node) : Finset Node :=
  (Finset.range h.size).filter (h.Leads · v)

/-- The nodes that a variable names, null excepted. -/
def named (h : Heap) : Finset Node :=
  (Finset.range h.size).filter fun v => v ≠ Node.null ∧ v ∈ h.vars.values

/-- The nodes that no variable names, null excepted. -/
def unnamed (h : Heap) : Finset Node :=
  (Finset.range h.size).filter fun v => v ≠ Node.null ∧ v ∉ h.vars.values

/-- The nodes at which a step starts. -/
def movers (h : Heap) : Finset Node :=
  (Finset.range h.size).filter fun v => h.successors v ≠ []

theorem InRange.mem_predecessors (hh : h.InRange) : u ∈ h.predecessors v ↔ h.Leads u v :=
  ⟨fun hu => (Finset.mem_filter.1 hu).2, fun huv =>
    Finset.mem_filter.2 ⟨Finset.mem_range.2 (hh.lt_of_leads huv), huv⟩⟩

theorem exists_leads_of_isLive (hv : h.IsLive v) (hnull : v ≠ Node.null)
    (hvar : ∀ x, h.var? x ≠ some v) : ∃ u, u ≠ v ∧ h.Leads u v := by
  by_contra! hnone
  refine hv.induction (P := (· ≠ v)) hnull.symm (fun x w hx heq => hvar x (heq ▸ hx)) ?_ rfl
  rintro u _ hu hleads rfl
  exact hnone u hu hleads

theorem size_le_card (h : Heap) : h.size ≤ 1 + (h.named.card + h.unnamed.card) := by
  have hall : Finset.range h.size ⊆ {Node.null} ∪ (h.named ∪ h.unnamed) := by
    intro v hv
    by_cases hnull : v = Node.null
    · exact Finset.mem_union_left _ (Finset.mem_singleton.2 hnull)
    · refine Finset.mem_union_right _ ?_
      by_cases hname : v ∈ h.vars.values
      · exact Finset.mem_union_left _ (Finset.mem_filter.2 ⟨hv, hnull, hname⟩)
      · exact Finset.mem_union_right _ (Finset.mem_filter.2 ⟨hv, hnull, hname⟩)
  calc h.size = (Finset.range h.size).card := (Finset.card_range _).symm
    _ ≤ ({Node.null} ∪ (h.named ∪ h.unnamed)).card := Finset.card_le_card hall
    _ ≤ 1 + (h.named ∪ h.unnamed).card := Finset.card_union_le _ _
    _ ≤ 1 + (h.named.card + h.unnamed.card) := Nat.add_le_add_left (Finset.card_union_le _ _) 1

theorem card_named_le (hh : h.InRange) (hg : g.InRange) (hnull : f Node.null = Node.null)
    (hinj : ∀ u < g.size, ∀ v < g.size, f u = f v → u = v)
    (hvar : ∀ x, h.var? x = (g.var? x).map f) : g.named.card ≤ h.named.card := by
  refine Finset.card_le_card_of_injOn f (fun v hv => ?_) fun u hu v hv => ?_
  · obtain ⟨hlt, hne, hname⟩ := Finset.mem_filter.1 (Finset.mem_coe.1 hv)
    obtain ⟨x, hx⟩ := mem_values_vars.1 hname
    have hfx : h.var? x = some (f v) := by rw [hvar, hx, Option.map_some]
    refine Finset.mem_coe.2 (Finset.mem_filter.2 ⟨Finset.mem_range.2 (hh.var x (f v) hfx),
      fun heq => hne ?_, mem_values_vars.2 ⟨x, hfx⟩⟩)
    exact hinj v (Finset.mem_range.1 hlt) Node.null hg.pos (heq.trans hnull.symm)
  · exact hinj u (Finset.mem_range.1 (Finset.mem_filter.1 (Finset.mem_coe.1 hu)).1) v
      (Finset.mem_range.1 (Finset.mem_filter.1 (Finset.mem_coe.1 hv)).1)

theorem InRange.card_named_shapeAt_collect_le (hh : h.InRange) (A : Abstraction) (depth : Nat) :
    (A.shapeAt depth h.collect).named.card ≤ h.named.card := by
  obtain ⟨f, hf, -⟩ := hh.isPart_collect
  have hcollect := hh.inRange_collect
  obtain ⟨g, f', hf', -, hvar, -⟩ := hcollect.exists_isPart_shapeAt A depth
  calc (A.shapeAt depth h.collect).named.card
    _ ≤ h.collect.named.card := card_named_le hcollect (hcollect.inRange_shapeAt A depth) hf'.null
      hf'.inj fun x => (hvar x).symm.trans (hf'.var x)
    _ ≤ h.named.card := card_named_le hh hcollect hf.null hf.inj hf.var

namespace IsChainHeap

variable (hh : h.IsChainHeap chain)
include hh

theorem two_le_card_predecessors (hrange : h.InRange) (hchain : chain ∈ A.chains)
    (hnone : A.findFold? h 0 [] = none) (hv : v ∈ h.unnamed) (hlive : h.IsLive v)
    (hvw : h.Leads v w) : 2 ≤ (h.predecessors v).card := by
  obtain ⟨hlt, hnull, hname⟩ := Finset.mem_filter.1 hv
  have hvar : ∀ x, h.var? x ≠ some v := fun x hx => hname (mem_values_vars.2 ⟨x, hx⟩)
  obtain ⟨u, hne, huv⟩ := exists_leads_of_isLive hlive hnull hvar
  by_contra! hcard
  have honly : ∀ u', h.Leads u' v → u' = u := fun u' hu' =>
    Finset.card_le_one.1 (Nat.le_of_lt_succ hcard) u' (hrange.mem_predecessors.2 hu') u
      (hrange.mem_predecessors.2 huv)
  have hw : w ≠ v := by
    rintro rfl
    exact hne (honly w hvw).symm
  obtain ⟨f, hsome, -⟩ := (hh.isInside huv hvw hne hw honly).exists_foldAt?
  have hfold := Abstraction.findFold?_eq_none_iff.1 hnone chain hchain v
    (Finset.mem_range.1 hlt) hnull not_mem_nil fun hnear =>
      (Abstraction.mem_near_zero_iff.1 hnear).elim hvar
  rw [hfold] at hsome
  cases hsome

theorem sum_bipartiteAbove_le :
    ∑ u ∈ Finset.range h.size, (h.unnamed.bipartiteAbove h.Leads u).card ≤ h.movers.card := by
  rw [movers, Finset.card_filter]
  refine Finset.sum_le_sum fun u _ => ?_
  split
  · refine Finset.card_le_one.2 fun v hv w hw => ?_
    exact hh.leads_unique (Finset.mem_filter.1 hv).2 (Finset.mem_filter.1 hw).2
  · next hnil =>
    rw [not_not] at hnil
    refine Nat.le_of_eq (Finset.card_eq_zero.2 (Finset.filter_eq_empty_iff.2 fun v _ hv => ?_))
    rw [Leads, hnil] at hv
    cases hv

/-- The steps to nodes without a name, by where they end: there is one to each, and a second one to
those that lead on, which would be folded otherwise. -/
theorem le_sum_bipartiteBelow (hrange : h.InRange) (hchain : chain ∈ A.chains) (htrim : h.IsTrim)
    (hnone : A.findFold? h 0 [] = none) :
    h.unnamed.card + (h.unnamed.filter fun v => h.successors v ≠ []).card ≤
      ∑ v ∈ h.unnamed, ((Finset.range h.size).bipartiteBelow h.Leads v).card := by
  rw [Finset.card_eq_sum_ones, Finset.card_filter, ← Finset.sum_add_distrib]
  refine Finset.sum_le_sum fun v hv => ?_
  obtain ⟨hlt, hnull, hname⟩ := Finset.mem_filter.1 hv
  have hlive := htrim v (Finset.mem_range.1 hlt)
  split
  · next hmoves =>
    obtain ⟨w, hw⟩ := exists_mem_of_ne_nil _ hmoves
    exact hh.two_le_card_predecessors hrange hchain hnone hv hlive hw
  · obtain ⟨u, -, huv⟩ := exists_leads_of_isLive hlive hnull fun x hx =>
      hname (mem_values_vars.2 ⟨x, hx⟩)
    exact Finset.card_pos.2 ⟨u, hrange.mem_predecessors.2 huv⟩

theorem card_movers_le : h.movers.card ≤
    h.named.card + (h.unnamed.filter fun v => h.successors v ≠ []).card := by
  refine (Finset.card_le_card fun v hv => ?_).trans (Finset.card_union_le _ _)
  obtain ⟨hlt, hmoves⟩ := Finset.mem_filter.1 hv
  obtain ⟨w, hw⟩ := exists_mem_of_ne_nil _ hmoves
  have hnull := hh.ne_null_of_leads hw
  by_cases hname : v ∈ h.vars.values
  · exact Finset.mem_union_left _ (Finset.mem_filter.2 ⟨hlt, hnull, hname⟩)
  · exact Finset.mem_union_right _ (Finset.mem_filter.2 ⟨Finset.mem_filter.2 ⟨hlt, hnull, hname⟩,
      hmoves⟩)

/-- There are not more nodes without a name than with one. The steps to nodes without a name are
counted twice, by where they start and by where they end. -/
theorem card_unnamed_le (hrange : h.InRange) (hchain : chain ∈ A.chains) (htrim : h.IsTrim)
    (hnone : A.findFold? h 0 [] = none) : h.unnamed.card ≤ h.named.card := by
  refine Nat.le_of_add_le_add_right (b := (h.unnamed.filter fun v => h.successors v ≠ []).card) ?_
  calc h.unnamed.card + (h.unnamed.filter fun v => h.successors v ≠ []).card
    _ ≤ ∑ v ∈ h.unnamed, ((Finset.range h.size).bipartiteBelow h.Leads v).card :=
      hh.le_sum_bipartiteBelow hrange hchain htrim hnone
    _ = ∑ u ∈ Finset.range h.size, (h.unnamed.bipartiteAbove h.Leads u).card :=
      (Finset.sum_card_bipartiteAbove_eq_sum_card_bipartiteBelow h.Leads).symm
    _ ≤ h.movers.card := hh.sum_bipartiteAbove_le
    _ ≤ h.named.card + (h.unnamed.filter fun v => h.successors v ≠ []).card := hh.card_movers_le

/-- The size of the most general shape of what garbage collection leaves is bounded by the number of
nodes with a name. -/
theorem size_shapeAt_collect (hrange : h.InRange) (hA : A.chains = [chain]) :
    (A.shapeAt 0 h.collect).size ≤ 2 * h.named.card + 1 := by
  have hcollect := hrange.inRange_collect
  have hshape := (hh.collect hrange).shapeAt hcollect hA 0
  have hunnamed := hshape.card_unnamed_le (hcollect.inRange_shapeAt A 0)
    (hA ▸ mem_singleton_self chain)
    (hcollect.isTrim_shapeAt A hrange.isTrim_collect 0) (hcollect.findFold?_shapeAt A 0)
  have hnamed := hrange.card_named_shapeAt_collect_le A 0
  have hsize := (A.shapeAt 0 h.collect).size_le_card
  omega

end IsChainHeap

end Heap

namespace Abstraction

open Heap

/-- The only selector of the heap and the only label of its summaries are those of one rule, null has
no step, and no node has two. When garbage has been collected and chains have been folded right up to
the variables, there are at most twice as many nodes as variables name, and null. -/
theorem size_canonical_collect_le (sel label : String) (h : Heap) (hh : h.InRange)
    (hsel : ∀ v name w, h.selector? v name = some w → name = sel)
    (hsum : ∀ e ∈ h.summaries, e.label = label ∧ e.ends.length = 2)
    (hnull : h.successors Node.null = []) (hone : ∀ v < h.size, (h.successors v).length ≤ 1) :
    (canonical { chains := [⟨sel, label⟩], depth := 0 } h.collect).size ≤ 2 * h.named.card + 1 := by
  have hchain : h.IsChainHeap ⟨sel, label⟩ := by
    refine ⟨fun k hk => ?_, hnull, fun v => ?_⟩
    · cases k with
      | selector u name w =>
        obtain rfl := hsel u name w (selector_mem_connections.1 hk)
        exact ⟨u, w, .inl rfl⟩
      | summary e =>
        obtain ⟨label', ends⟩ := e
        obtain ⟨rfl, hends⟩ := hsum _ (summary_mem_connections.1 hk)
        obtain ⟨u, w, rfl⟩ := length_eq_two.1 hends
        exact ⟨u, w, .inr rfl⟩
    · by_cases hv : v < h.size
      · exact hone v hv
      · rw [hh.successors_eq_nil hv]
        exact Nat.zero_le 1
  exact hchain.size_shapeAt_collect hh rfl

/-- From `x` one step leads into a ring of three nodes, one of whose steps is a summary. A node that
nothing leads to points at the same place. -/
def ringed : Heap :=
  ⟨[∅, .ofList [("up", 2)], ∅, .ofList [("up", 4)], .ofList [("up", 2)], .ofList [("up", 2)]],
    .ofList [("x", 1)], [⟨"path", [2, 3]⟩]⟩

theorem size_canonical_collect_le_ringed : ringed.InRange ∧
    (∀ v name w, ringed.selector? v name = some w → name = "up") ∧
    (∀ e ∈ ringed.summaries, e.label = "path" ∧ e.ends.length = 2) ∧
    ringed.successors Node.null = [] ∧ (∀ v < ringed.size, (ringed.successors v).length ≤ 1) ∧
    ringed.size = 6 ∧ ringed.named.card = 1 ∧
    (canonical { chains := [⟨"up", "path"⟩], depth := 0 } ringed.collect).size = 3 ∧
    (canonical { chains := [⟨"up", "path"⟩], depth := 0 } ringed.collect).size ≤
      2 * ringed.named.card + 1 := by
  have hh : ringed.InRange := by decide +kernel
  have hsel (v : Node) (name : String) (w : Node) (hw : ringed.selector? v name = some w) :
      name = "up" := by
    have hall : ∀ v < ringed.size, ∀ e ∈ (ringed.cell v).toList, e.1 = "up" := by decide +kernel
    exact hall v (lt_size_of_selector? hw) (name, w) (SortedMap.mem_toList_iff.2 hw)
  have hsum : ∀ e ∈ ringed.summaries, e.label = "path" ∧ e.ends.length = 2 := by decide +kernel
  have hnull : ringed.successors Node.null = [] := by decide +kernel
  have hone : ∀ v < ringed.size, (ringed.successors v).length ≤ 1 := by decide +kernel
  exact ⟨hh, hsel, hsum, hnull, hone, rfl, by decide +kernel, by decide +kernel,
    size_canonical_collect_le "up" "path" ringed hh hsel hsum hnull hone⟩

end Abstraction

end ShapeCheck
