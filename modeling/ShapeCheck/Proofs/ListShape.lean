import ShapeCheck.Proofs.ChainShape
import ShapeCheck.Proofs.ListHeap

/-!
# The size of list shapes

A list heap is a heap of one chain: its connections are links and segments, and since no node has both a
link and a segment, or two segments, every node has one step at most. The most general shape of what
garbage collection leaves is therefore bounded by the number of variables.
-/

namespace ShapeCheck

open Abstraction (lists)
open List

namespace Heap

variable {h : Heap} {u v : Node}

namespace IsListHeap

variable (hh : h.IsListHeap)
include hh

theorem nodup_sources : (h.summaries.map fun e => e.source?.getD Node.null).Nodup := by
  have hmap : h.summaries.filterMap (·.linkSource? Chain.list) =
      h.summaries.map fun e => e.source?.getD Node.null := by
    rw [← filterMap_eq_map]
    refine filterMap_congr fun e he => ?_
    obtain ⟨chain, hchain, v, w, rfl⟩ := Abstraction.isLink_iff.1 (hh.links e he)
    obtain rfl := mem_singleton.1 hchain
    simp [Summary.source?]
  exact hmap ▸ hh.det.sources Chain.list mem_cons_self

theorem nodup_summaries : h.summaries.Nodup :=
  hh.nodup_sources.of_map _

theorem eq_of_mem_summaries {e : Summary} (he : e ∈ h.summaries) :
    ∃ u v, e = ⟨Chain.list.label, [u, v]⟩ ∧ h.Leads u v := by
  obtain ⟨chain, hchain, u, v, rfl⟩ := Abstraction.isLink_iff.1 (hh.links e he)
  obtain rfl := mem_singleton.1 hchain
  exact ⟨u, v, rfl, mem_successors_iff.2 (.inr ⟨_, he, rfl, mem_singleton_self v⟩)⟩

theorem exists_isStep {k : Connection} (hk : k ∈ h.connections) :
    ∃ u v, Chain.list.IsStep u v k ∧ h.Leads u v := by
  cases k with
  | selector u sel v =>
    rw [selector_mem_connections] at hk
    obtain ⟨-, rfl⟩ := hh.selector u sel v hk
    exact ⟨u, v, .inl rfl, mem_successors_iff.2 (.inl ⟨_, hk⟩)⟩
  | summary e =>
    obtain ⟨u, v, rfl, huv⟩ := hh.eq_of_mem_summaries (summary_mem_connections.1 hk)
    exact ⟨u, v, .inr rfl, huv⟩

theorem existsUnique_isStep (huv : h.Leads u v) : ∃ k ∈ h.connections, Chain.list.IsStep u v k ∧
      ∀ k' ∈ h.connections, Chain.list.IsStep u v k' → k' = k := by
  have hhidden (hsum : (⟨Chain.list.label, [u, v]⟩ : Summary) ∈ h.summaries) :
      h.selector? u Chain.list.selector ≠ some v := by
    rw [hh.det.hidden Chain.list mem_cons_self u v hsum]
    simp
  rcases hh.leads_iff.1 huv with hsel | ⟨chain, hchain, -, hsum⟩
  · refine ⟨_, selector_mem_connections.2 hsel, .inl rfl, ?_⟩
    rintro k' hk' (rfl | rfl)
    · rfl
    · exact absurd hsel (hhidden (summary_mem_connections.1 hk'))
  · obtain rfl := mem_singleton.1 hchain
    refine ⟨_, summary_mem_connections.2 hsum, .inr rfl, ?_⟩
    rintro k' hk' (rfl | rfl)
    · exact absurd (selector_mem_connections.1 hk') (hhidden hsum)
    · rfl

theorem nodup_connections : h.connections.Nodup := by
  refine nodup_append'.2 ⟨nodup_selectors, hh.nodup_summaries.map fun e e' heq => ?_, ?_⟩
  · exact Connection.summary.inj heq
  · refine disjoint_left.2 fun k hk hk' => ?_
    obtain ⟨u, sel, w, -, rfl⟩ := mem_selectors_iff.1 hk
    obtain ⟨e, -, heq⟩ := mem_map.1 hk'
    cases heq

/-- A node has one step at most: two would lead to one node, and would be one connection. -/
theorem isChainHeap : h.IsChainHeap Chain.list := by
  have hstep (k : Connection) (hk : k ∈ h.connections) : ∃ u v, Chain.list.IsStep u v k := by
    obtain ⟨u, v, hk, -⟩ := hh.exists_isStep hk
    exact ⟨u, v, hk⟩
  refine ⟨hstep, eq_nil_iff_forall_not_mem.2 fun w hw => hh.ne_null_of_leads hw rfl, fun u => ?_⟩
  have hsame {k k' : Connection} (hk : k ∈ h.connections ∧ k.ends.head? = some u)
      (hk' : k' ∈ h.connections ∧ k'.ends.head? = some u) : k' = k := by
    obtain ⟨a, b, hab, hleads⟩ := hh.exists_isStep hk.1
    obtain ⟨a', b', hab', hleads'⟩ := hh.exists_isStep hk'.1
    obtain rfl : a = u := by simpa [hab.ends_eq] using hk.2
    obtain rfl : a' = a := by simpa [hab'.ends_eq] using hk'.2
    obtain rfl := hh.leads_unique hleads hleads'
    obtain ⟨k₀, -, -, huniq⟩ := hh.existsUnique_isStep hleads
    exact (huniq k' hk'.1 hab').trans (huniq k hk.1 hab).symm
  rw [length_successors_eq hstep, countP_eq_length_filter]
  by_cases hnil : h.connections.filter (·.ends.head? = some u) = []
  · rw [hnil]
    exact Nat.zero_le 1
  · obtain ⟨k, hk⟩ := exists_mem_of_ne_nil _ hnil
    rw [eq_singleton_of_nodup (hh.nodup_connections.filter _) hk fun k' hk' =>
      hsame (by simpa using hk) (by simpa using hk')]
    exact Nat.le_refl 1

/-- The size of the most general shape of what garbage collection leaves is bounded by the number of
variables. -/
theorem size_coarsest_collect {names : List String} (hnames : ∀ x, (h.var? x).isSome → x ∈ names) :
    (lists.shapeAt 0 h.collect).size ≤ 2 * names.length + 1 := by
  have hnamed : h.named.card ≤ names.length := by
    refine (Finset.card_le_card fun v hv => ?_).trans
      ((names.filterMap h.var?).toFinset_card_le.trans (length_filterMap_le _ _))
    obtain ⟨x, hx⟩ := mem_values_vars.1 (Finset.mem_filter.1 hv).2.2
    exact mem_toFinset.2 (mem_filterMap.2 ⟨x, hnames x (hx ▸ rfl), hx⟩)
  have hsize := hh.isChainHeap.size_shapeAt_collect hh.inRange (A := lists) rfl
  omega

end IsListHeap

end Heap

end ShapeCheck
