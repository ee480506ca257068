import ShapeCheck.Proofs.Confluence

/-!
# Garbage collection

Garbage collection keeps the nodes that can be accessed from null and the variables, with all that
starts at them. What it drops may lead into the part that is kept, and may share summaries with it, but
no canonical number of a kept node depends on that: the sweep that numbers the nodes never meets a
dropped one. So it does not matter whether garbage is collected before or after the nodes are numbered;
either way the nodes of the result are the live nodes in canonical order.
-/

namespace ShapeCheck

open List

namespace Heap

variable {f : Node → Node} {g h : Heap} {v w : Node}

/-- Null, the nodes that variables name, and what they lead to: along a selector, or along a summary
from its first end to one of the others. -/
inductive Accessible (h : Heap) : Node → Prop
  | null : Accessible h Node.null
  | var {x : String} {v : Node} (hx : h.var? x = some v) : Accessible h v
  | selector {v w : Node} {sel : String} (hv : Accessible h v) (hw : h.selector? v sel = some w) :
      Accessible h w
  | summary {e : Summary} {v w : Node} {rest : List Node} (hv : Accessible h v)
      (he : e ∈ h.summaries) (hends : e.ends = v :: rest) (hw : w ∈ rest) : Accessible h w

theorem accessible_iff_isLive : h.Accessible v ↔ h.IsLive v := by
  constructor
  · intro hv
    induction hv with
    | null => exact .null
    | var hx => exact .var hx
    | selector _ hw ih => exact ih.tail (mem_successors_iff.2 (.inl ⟨_, hw⟩))
    | @summary e v w rest _ he hends hw ih =>
      have hsource : e.source? = some v := by rw [Summary.source?, hends, head?_cons]
      have htargets : e.targets = rest := by rw [Summary.targets, hends, tail_cons]
      exact ih.tail (mem_successors_iff.2 (.inr ⟨e, he, hsource, htargets ▸ hw⟩))
  · refine IsLive.induction .null (fun _ _ => .var) fun v w hv hvw => ?_
    rcases mem_successors_iff.1 hvw with ⟨sel, hsel⟩ | ⟨e, he, hsource, hw⟩
    · exact hv.selector hsel
    · obtain ⟨rest, hends⟩ := head?_eq_some_iff.1 hsource
      rw [Summary.targets, hends, tail_cons] at hw
      exact hv.summary he hends hw

/-- `g` is what is left of `h` when garbage is collected, and `f` gives the places of its nodes in `h`.
These are exactly the accessible nodes. They keep their selectors, and the variables name the same
nodes. A summary is kept if and only if its ends are all kept; those of an accessible source are. -/
structure IsCollected (f : Node → Node) (g h : Heap) : Prop extends IsPart f g h where
  accessible : ∀ v, h.Accessible v ↔ ∃ u < g.size, f u = v
  kept : ∀ e ∈ h.summaries, ∀ v rest, e.ends = v :: rest → h.Accessible v →
    ∃ e' ∈ g.summaries, e'.map f = e
  dropped : ∀ e ∈ g.summaries, ∀ v ∈ (e.map f).ends, h.Accessible v

theorem InRange.exists_isCollected (hh : h.InRange) : ∃ f, IsCollected f h.collect h := by
  obtain ⟨f, hf, hlive⟩ := hh.isPart_collect
  refine ⟨f, hf, fun v => accessible_iff_isLive.trans (hlive v), fun e he v rest hends hv => ?_,
    fun e he v hv => ?_⟩
  · have hplaced {w} (hw : h.Accessible w) : ∃ u < h.collect.size, f u = w :=
      (hlive w).1 (accessible_iff_isLive.1 hw)
    obtain ⟨e', he', rfl⟩ := hf.exists_mem_summaries he fun w hw => by
      rw [hends, mem_cons] at hw
      rcases hw with rfl | hw
      · exact hplaced hv
      · exact hplaced (hv.summary he hends hw)
    exact ⟨e', he', rfl⟩
  · obtain ⟨u, hu, rfl⟩ := mem_map.1 hv
    exact accessible_iff_isLive.2 ((hlive _).2 ⟨u, hh.inRange_collect.ends e he u hu, rfl⟩)

theorem IsTrim.collect_eq (htrim : h.IsTrim) (hh : h.InRange) : h.collect = h := by
  rw [collect, if_pos]
  refine all_eq_true.2 fun v hv => decide_eq_true ?_
  exact hh.mem_reach_roots_iff.2 (htrim v (mem_nodes.1 hv))

/-- The live nodes in canonical order. -/
def liveOrder (h : Heap) : List Node :=
  sweep h.numberFrom h.size 0 (visitAll [] h.roots)

theorem liveOrder_prefix (h : Heap) : h.liveOrder <+: h.canonicalOrder :=
  prefix_visitAll _ _

theorem InRange.mem_liveOrder_iff (hh : h.InRange) : v ∈ h.liveOrder ↔ h.IsLive v := by
  rw [liveOrder, hh.isSwept_numberFrom.mem_iff]
  simp only [mem_visitAll, not_mem_nil, false_or]
  rfl

theorem IsTrim.canonicalOrder_eq (htrim : h.IsTrim) (hh : h.InRange) :
    h.canonicalOrder = h.liveOrder :=
  visitAll_eq_self fun v hv => hh.mem_liveOrder_iff.2 (htrim v (mem_nodes.1 hv))

/-- What garbage collection leaves is numbered like the live nodes of the heap. -/
theorem InRange.normalize_collect (hh : h.InRange) (hlabels : h.IsLabelled) :
    h.collect.normalize = h.relabel h.liveOrder := by
  obtain ⟨f, hf, -⟩ := hh.isPart_collect
  have hg := hh.inRange_collect
  have horder : h.liveOrder = h.collect.liveOrder.map f :=
    hf.sweep_roots_eq hg (hf.isApart hg hlabels.isApart)
  rw [normalize, hh.isTrim_collect.canonicalOrder_eq hg, horder, hf.relabel_map hg]
  exact fun v hv => hg.isSwept_numberFrom.lt v hv

theorem map_nodeAt_range_of_prefix {l order : List Node} (hpre : l <+: order) :
    (List.range l.length).map (nodeAt order) = l := by
  obtain ⟨rest, rfl⟩ := hpre
  refine Eq.trans (map_congr_left fun i hi => ?_) map_nodeAt_range
  rw [nodeAt, nodeAt, getD_eq_getElem?_getD, getD_eq_getElem?_getD,
    getElem?_append_left (mem_range.1 hi)]

theorem filter_range_eq {n k : Nat} {p : Nat → Bool} (hk : k ≤ n) (hp : ∀ i < n, p i ↔ i < k) :
    (List.range n).filter p = List.range k := by
  obtain ⟨m, rfl⟩ := Nat.exists_eq_add_of_le hk
  rw [range_add, filter_append, filter_eq_self.2 fun i hi => ?below,
    filter_eq_nil_iff.2 fun i hi => ?above, append_nil]
  case below =>
    have hi := mem_range.1 hi
    exact (hp i (by omega)).2 hi
  case above =>
    obtain ⟨j, hj, rfl⟩ := mem_map.1 hi
    have hj := mem_range.1 hj
    rw [hp (k + j) (by omega)]
    omega

theorem InRange.isLive_normalize_iff (hh : h.InRange) (hv : v < h.size) :
    h.normalize.IsLive v ↔ v < h.liveOrder.length := by
  have hf := hh.isRenumbering_normalize
  have hlength : h.canonicalOrder.length = h.size := by
    rw [← hf.size, normalize, size_relabel]
  have hpart := (hf.isPart hh).isLive_iff hh.inRange_normalize (hf.size.symm ▸ hv)
  rw [← hpart, ← hh.mem_liveOrder_iff]
  have hmap := map_nodeAt_range_of_prefix h.liveOrder_prefix
  constructor
  · intro hmem
    rw [← hmap] at hmem
    obtain ⟨i, hi, heq⟩ := mem_map.1 hmem
    have hi := mem_range.1 hi
    have hlt := Nat.lt_of_lt_of_le hi h.liveOrder_prefix.length_le
    exact nodeAt_inj hh.nodup_canonicalOrder hlt (hlength.symm ▸ hv) heq ▸ hi
  · intro hlt
    rw [← hmap]
    exact mem_map_of_mem (mem_range.2 hlt)

theorem InRange.collect_normalize (hh : h.InRange) : h.normalize.collect = h.relabel h.liveOrder := by
  have hf := hh.isRenumbering_normalize
  have hg := hh.inRange_normalize
  have hle : h.liveOrder.length ≤ h.size :=
    length_le_of_nodup hh.isSwept_numberFrom.nodup hh.isSwept_numberFrom.lt
  have hlive {v} (hv : v < h.size) :
      v ∈ h.normalize.reach h.normalize.roots ↔ v < h.liveOrder.length :=
    hg.mem_reach_roots_iff.trans (hh.isLive_normalize_iff hv)
  have hfirst : h.normalize.collect = h.normalize.relabel (List.range h.liveOrder.length) := by
    rw [collect]
    split
    · next hall =>
      have hsize : h.liveOrder.length = h.normalize.size := by
        refine Nat.le_antisymm (hf.size ▸ hle) (Nat.le_of_not_lt fun hlt => ?_)
        have hmem := all_eq_true.1 hall _ (mem_nodes.2 hlt)
        exact Nat.lt_irrefl _ ((hlive (hf.size ▸ hlt)).1 (of_decide_eq_true hmem))
      rw [hsize, relabel_range hg (sortBy_pairwise compare _)]
    · have hfilter : h.normalize.nodes.filter (· ∈ h.normalize.reach h.normalize.roots) =
          List.range h.liveOrder.length := by
        refine filter_range_eq (hf.size.symm ▸ hle) fun v hv => ?_
        rw [decide_eq_true_iff, hlive (hf.size ▸ hv)]
      rw [hfilter]
  rw [hfirst, ← (hf.isPart hh).relabel_map hg, map_nodeAt_range_of_prefix h.liveOrder_prefix]
  exact fun v hv => hf.size.symm ▸ Nat.lt_of_lt_of_le (mem_range.1 hv) hle

/-- Garbage collection keeps exactly the accessible nodes, with all that starts at them, and drops every
summary that touches another node. A second collection changes nothing. If labels tell the summaries of
a node apart, garbage can be collected before or after the nodes are numbered. -/
theorem collect_exact (h : Heap) (hh : h.InRange) :
    (∃ f, IsCollected f h.collect h) ∧ h.collect.collect = h.collect ∧
      (h.IsLabelled → h.normalize.collect = h.collect.normalize) :=
  ⟨hh.exists_isCollected, hh.isTrim_collect.collect_eq hh.inRange_collect, fun hlabels =>
    hh.collect_normalize.trans (hh.normalize_collect hlabels).symm⟩

/-- A selector and a list segment make a ring of two nodes, one of which `x` names. Three nodes are
garbage: they refer to each other and to the ring, and summaries lead from them to the ring and to
null. -/
def entangled : Heap :=
  ⟨[∅, .ofList [("next", 5)], .ofList [("left", 5), ("next", 4)], .ofList [("next", 5)],
      .ofList [("next", 2)], ∅],
    .ofList [("x", 3), ("z", 0)],
    [⟨"SLL", [5, 3]⟩, ⟨"Tree", [2, 5, 3]⟩, ⟨"Tree", [3, 0, 5]⟩, ⟨"SLL", [4, 0]⟩]⟩

theorem collect_exact_entangled : entangled.InRange ∧ entangled.IsLabelled ∧ entangled.size = 6 ∧
    entangled.collect.size = 3 ∧ entangled.collect.summaries.length = 2 ∧
    (∃ f, IsCollected f entangled.collect entangled) ∧
    entangled.collect.collect = entangled.collect ∧
    entangled.normalize.collect = entangled.collect.normalize := by
  have hh : entangled.InRange := by decide +kernel
  have hlabels : entangled.IsLabelled := by decide +kernel
  obtain ⟨hcollected, hagain, hnumbered⟩ := collect_exact entangled hh
  exact ⟨hh, hlabels, rfl, by decide +kernel, by decide +kernel, hcollected, hagain,
    hnumbered hlabels⟩

end Heap

end ShapeCheck
