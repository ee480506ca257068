import ShapeCheck.Proofs.Folding

/-!
# The connections of a heap

Selectors and summaries are the *connections* of a heap: each is attached to some nodes and starts
from the first of them. Listing both together says in one way what folding does. A node can be folded
if two connections are around it, a step of a chain into it and a step of the same chain out of it.
The fold takes these two away and adds one summary. So whether a node can be folded, and what comes of
it, is seen from the list of connections alone, in whatever order they are listed.

## Main results

* `isInside_of_foldAt?`, `IsInside.exists_foldAt?`: which nodes can be folded.
* `isContraction_apply`: what a fold does.
-/

namespace ShapeCheck

open List

/-- A selector with its owner and its target, or a summary. -/
inductive Connection where
  | selector (owner : Node) (name : String) (target : Node)
  | summary (e : Summary)
  deriving DecidableEq

namespace Connection

/-- The nodes that a connection is attached to; it starts from the first. -/
def ends : Connection → List Node
  | .selector owner _ target => [owner, target]
  | .summary e => e.ends

/-- A connection with its ends renamed. -/
def map (f : Node → Node) : Connection → Connection
  | .selector owner name target => .selector (f owner) name (f target)
  | .summary e => .summary (e.map f)

/-- The summary that a connection is. -/
def summary? : Connection → Option Summary
  | .selector .. => none
  | .summary e => some e

variable {f : Node → Node} {k : Connection} {v : Node}

@[simp]
theorem ends_map : (k.map f).ends = k.ends.map f := by
  cases k <;> rfl

theorem map_congr {f' : Node → Node} (hf : ∀ u ∈ k.ends, f u = f' u) : k.map f = k.map f' := by
  cases k with
  | selector u sel w =>
    rw [map, map, hf u mem_cons_self, hf w (mem_cons_of_mem _ mem_cons_self)]
  | summary e => exact congrArg _ (Summary.map_congr hf)

theorem map_eq_self (hf : ∀ u ∈ k.ends, f u = u) : k.map f = k := by
  rw [@map_congr f k id hf]
  cases k with
  | selector u sel w => rfl
  | summary e => exact congrArg _ (Summary.map_eq_self fun _ _ => rfl)

theorem mem_ends_map (hf : ∀ u ∈ k.ends, f u = f v → u = v) : f v ∈ (k.map f).ends ↔ v ∈ k.ends := by
  rw [ends_map, mem_map]
  constructor
  · rintro ⟨u, hu, heq⟩
    exact hf u hu heq ▸ hu
  · exact fun hv => ⟨v, hv, rfl⟩

end Connection

/-- A step of a chain: its selector, or a summary of its label. -/
def Chain.IsStep (chain : Chain) (u w : Node) (k : Connection) : Prop :=
  k = .selector u chain.selector w ∨ k = .summary ⟨chain.label, [u, w]⟩

namespace Chain.IsStep

variable {chain : Chain} {u w : Node} {k : Connection}

theorem ends_eq (hk : chain.IsStep u w k) : k.ends = [u, w] := by
  rcases hk with rfl | rfl <;> rfl

theorem map (hk : chain.IsStep u w k) (f : Node → Node) : chain.IsStep (f u) (f w) (k.map f) := by
  rcases hk with rfl | rfl
  · exact .inl rfl
  · exact .inr rfl

end Chain.IsStep

section Positions

variable {α : Type} (l : List α) (p : α → Bool) {a : α}

theorem map_fst_positions : (l.zipIdx.filter (p ·.1)).map Prod.fst = l.filter p := by
  conv_rhs => rw [← zipIdx_map_fst 0 l, filter_map]
  rfl

theorem positions_eq_nil_iff : (l.zipIdx.filter (p ·.1)).map Prod.snd = [] ↔ l.filter p = [] := by
  rw [← map_fst_positions l p, map_eq_nil_iff, map_eq_nil_iff]

theorem exists_positions_eq_singleton_iff :
    (∃ i, (l.zipIdx.filter (p ·.1)).map Prod.snd = [i] ∧ l[i]? = some a) ↔ l.filter p = [a] := by
  have hmem : ∀ e ∈ l.zipIdx.filter (p ·.1), l[e.2]? = some e.1 := fun e he =>
    mem_zipIdx_iff_getElem?.1 (mem_of_mem_filter he)
  rw [← map_fst_positions l p]
  constructor
  · rintro ⟨i, hi, ha⟩
    obtain ⟨⟨b, _⟩, hb, rfl⟩ := map_eq_singleton_iff.1 hi
    obtain rfl := Option.some.inj ((hmem _ (hb ▸ mem_singleton_self _)).symm.trans ha)
    rw [hb, map_singleton]
  · intro hl
    obtain ⟨⟨_, i⟩, hb, rfl⟩ := map_eq_singleton_iff.1 hl
    exact ⟨i, by rw [hb, map_singleton], hmem _ (hb ▸ mem_singleton_self _)⟩

end Positions

/-- A list without repetitions whose members are all the same. -/
theorem eq_singleton_of_nodup {α : Type} {l : List α} {a : α} (hnodup : l.Nodup) (ha : a ∈ l)
    (hall : ∀ b ∈ l, b = a) : l = [a] := by
  refine perm_singleton.1 ((perm_ext_iff_of_nodup hnodup (nodup_singleton a)).2 ?_)
  refine fun b => ⟨fun hb => mem_singleton.2 (hall b hb), fun hb => ?_⟩
  exact mem_singleton.1 hb ▸ ha

namespace Heap

variable {g h h' : Heap} {chain : Chain} {u v w s t : Node} {k : Connection} {e : Summary}
  {sel : String} {link : Link} {i : Nat}

/-! ### Listing connections -/

/-- The selectors of all nodes. -/
def selectors (h : Heap) : List Connection :=
  h.nodes.flatMap fun u => (h.cell u).toList.map fun e => .selector u e.1 e.2

/-- The selectors of all nodes, then the summaries. -/
def connections (h : Heap) : List Connection :=
  h.selectors ++ h.summaries.map .summary

/-- The connections that are attached to a node. -/
def around (h : Heap) (v : Node) : List Connection :=
  h.connections.filter (v ∈ ·.ends)

theorem mem_selectors_iff :
    k ∈ h.selectors ↔ ∃ u sel w, h.selector? u sel = some w ∧ k = .selector u sel w := by
  simp only [selectors, mem_flatMap, mem_map, Prod.exists, mem_nodes]
  constructor
  · rintro ⟨u, -, sel, w, hw, rfl⟩
    exact ⟨u, sel, w, SortedMap.mem_toList_iff.1 hw, rfl⟩
  · rintro ⟨u, sel, w, hw, rfl⟩
    exact ⟨u, lt_size_of_selector? hw, sel, w, SortedMap.mem_toList_iff.2 hw, rfl⟩

theorem nodup_toList_cell (cell : Cell) : cell.toList.Nodup :=
  cell.sorted.imp fun {a b} hlt heq => by simp [heq] at hlt

theorem nodup_selectors : h.selectors.Nodup := by
  rw [selectors, nodup_flatMap]
  refine ⟨fun u _ => (nodup_toList_cell _).map ?_, nodup_range.imp fun {a b} hab => ?_⟩
  · rintro ⟨sel, w⟩ ⟨sel', w'⟩ heq
    cases heq
    rfl
  · refine disjoint_left.2 fun k ha hb => hab ?_
    obtain ⟨_, -, rfl⟩ := mem_map.1 ha
    obtain ⟨_, -, heq⟩ := mem_map.1 hb
    exact (Connection.selector.inj heq).1.symm

@[simp]
theorem selector_mem_connections :
    .selector u sel w ∈ h.connections ↔ h.selector? u sel = some w := by
  simp [connections, mem_selectors_iff]

@[simp]
theorem summary_mem_connections : .summary e ∈ h.connections ↔ e ∈ h.summaries := by
  simp [connections, mem_selectors_iff]

/-- The summaries are read off the connections. -/
theorem filterMap_connections : h.connections.filterMap Connection.summary? = h.summaries := by
  have hselectors : h.selectors.filterMap Connection.summary? = [] := by
    refine filterMap_eq_nil_iff.2 fun k hk => ?_
    obtain ⟨u, sel, w, -, rfl⟩ := mem_selectors_iff.1 hk
    rfl
  have hsummaries : (h.summaries.map Connection.summary).filterMap Connection.summary? =
      h.summaries := by
    rw [filterMap_map]
    exact filterMap_some
  rw [connections, filterMap_append, hselectors, hsummaries, nil_append]

theorem leads_iff_connections :
    h.Leads u w ↔ ∃ k ∈ h.connections, k.ends.head? = some u ∧ w ∈ k.ends.tail := by
  rw [Leads, mem_successors_iff]
  constructor
  · rintro (⟨sel, hsel⟩ | ⟨e, he, hsource, hw⟩)
    · exact ⟨.selector u sel w, selector_mem_connections.2 hsel, rfl, mem_singleton_self w⟩
    · exact ⟨.summary e, summary_mem_connections.2 he, hsource, hw⟩
  · rintro ⟨_ | e, hk, hsource, hw⟩
    · obtain rfl := Option.some.inj hsource
      obtain rfl := mem_singleton.1 hw
      exact .inl ⟨_, selector_mem_connections.1 hk⟩
    · exact .inr ⟨e, summary_mem_connections.1 hk, hsource, hw⟩

theorem InRange.lt_of_mem_connections (hh : h.InRange) (hk : k ∈ h.connections) (hv : v ∈ k.ends) :
    v < h.size := by
  cases k with
  | selector u sel w =>
    have hsel := selector_mem_connections.1 hk
    rcases mem_cons.1 hv with rfl | hv
    · exact lt_size_of_selector? hsel
    · exact mem_singleton.1 hv ▸ hh.selector u sel w hsel
  | summary e => exact hh.ends e (summary_mem_connections.1 hk) v hv

theorem inRange_of_connections (hpos : 0 < h.size) (hvar : ∀ x v, h.var? x = some v → v < h.size)
    (hends : ∀ k ∈ h.connections, ∀ v ∈ k.ends, v < h.size) : h.InRange where
  pos := hpos
  selector v sel w hw := hends _ (selector_mem_connections.2 hw) w (by simp [Connection.ends])
  var := hvar
  ends e he v hv := hends _ (summary_mem_connections.2 he) v hv

/-- Lists of connections are permutations if they have the same selectors and their summaries are
permutations. -/
theorem connections_perm {f : Node → Node}
    (hinj : ∀ u sel w u' w', g.selector? u sel = some w → g.selector? u' sel = some w' →
      f u = f u' → f w = f w' → u = u' ∧ w = w')
    (hselector : ∀ u sel w, h.selector? u sel = some w ↔
      ∃ u' w', g.selector? u' sel = some w' ∧ f u' = u ∧ f w' = w)
    (hsummaries : (g.summaries.map (Summary.map f)).Perm h.summaries) :
    (g.connections.map (Connection.map f)).Perm h.connections := by
  rw [connections, connections, map_append, List.map_map]
  refine .append ((perm_ext_iff_of_nodup ?_ nodup_selectors).2 fun k => ?_) ?_
  · refine nodup_selectors.map_on fun k hk k' hk' heq => ?_
    obtain ⟨u, sel, w, hw, rfl⟩ := mem_selectors_iff.1 hk
    obtain ⟨u', sel', w', hw', rfl⟩ := mem_selectors_iff.1 hk'
    obtain ⟨hu, rfl, ht⟩ := Connection.selector.inj heq
    obtain ⟨rfl, rfl⟩ := hinj u sel w u' w' hw hw' hu ht
    rfl
  · simp only [mem_map, mem_selectors_iff, hselector]
    constructor
    · rintro ⟨_, ⟨u, sel, w, hw, rfl⟩, rfl⟩
      exact ⟨f u, sel, f w, ⟨u, w, hw, rfl, rfl⟩, rfl⟩
    · rintro ⟨_, sel, _, ⟨u, w, hw, rfl, rfl⟩, rfl⟩
      exact ⟨_, ⟨u, sel, w, hw, rfl⟩, rfl⟩
  · have hmap := hsummaries.map Connection.summary
    rw [List.map_map] at hmap
    exact hmap

theorem IsRenumbering.connections_perm {f : Node → Node} (hf : IsRenumbering f g h) (hg : g.InRange) :
    (g.connections.map (Connection.map f)).Perm h.connections := by
  refine Heap.connections_perm (fun u sel w u' w' hw hw' hu ht => ?_) (fun u sel w => ?_) hf.summaries
  · exact ⟨hf.inj u (lt_size_of_selector? hw) u' (lt_size_of_selector? hw') hu,
      hf.inj w (hg.selector u sel w hw) w' (hg.selector u' sel w' hw') ht⟩
  · constructor
    · intro hw
      obtain ⟨u, hu, rfl⟩ := hf.surj (lt_size_of_selector? hw)
      rw [hf.selector u hu, Option.map_eq_some_iff] at hw
      obtain ⟨w, hw, rfl⟩ := hw
      exact ⟨u, w, hw, rfl, rfl⟩
    · rintro ⟨u, w, hw, rfl, rfl⟩
      rw [hf.selector u (lt_size_of_selector? hw), hw, Option.map_some]

/-- A heap is renumbered if its connections are. -/
theorem isRenumbering_of_connections {f : Node → Node} (hsize : g.size = h.size)
    (hnull : f Node.null = Node.null) (hlt : ∀ v < g.size, f v < h.size)
    (hinj : ∀ v < g.size, ∀ w < g.size, f v = f w → v = w)
    (hvar : ∀ x, h.var? x = (g.var? x).map f)
    (hperm : (g.connections.map (Connection.map f)).Perm h.connections) : IsRenumbering f g h where
  size := hsize
  null := hnull
  lt := hlt
  inj := hinj
  selector v hv sel := by
    refine Option.ext fun w => ?_
    rw [← selector_mem_connections, ← hperm.mem_iff, mem_map, Option.map_eq_some_iff]
    constructor
    · rintro ⟨_ | e, hk, heq⟩
      · obtain ⟨hu, rfl, rfl⟩ := Connection.selector.inj heq
        have hk := selector_mem_connections.1 hk
        obtain rfl := hinj _ (lt_size_of_selector? hk) v hv hu
        exact ⟨_, hk, rfl⟩
      · cases heq
    · rintro ⟨u, hu, rfl⟩
      exact ⟨_, selector_mem_connections.2 hu, rfl⟩
  var := hvar
  summaries := by
    have hsummary := hperm.filterMap Connection.summary?
    rw [filterMap_connections, filterMap_map] at hsummary
    refine .trans (.of_eq ?_) hsummary
    rw [← filterMap_connections (h := g), map_filterMap]
    refine filterMap_congr fun k _ => ?_
    cases k <;> rfl

theorem nodup_selectorsInto : (h.selectorsInto v).Nodup := by
  rw [selectorsInto, nodup_flatMap]
  refine ⟨?_, ?_⟩
  · rintro ⟨cell, u⟩ -
    refine List.Nodup.map_on ?_ ((nodup_toList_cell cell).filter _)
    rintro ⟨sel, w⟩ hw ⟨sel', w'⟩ hw' heq
    simp_all
  · have hzip : (h.cells.zipIdx.map Prod.snd).Nodup := by
      rw [zipIdx_map_snd]
      exact nodup_range' ..
    refine (pairwise_map.1 hzip).imp fun {a b} hne => disjoint_left.2 fun e he he' => hne ?_
    obtain ⟨_, -, rfl⟩ := mem_map.1 he
    obtain ⟨_, -, heq⟩ := mem_map.1 he'
    exact (congrArg Prod.fst heq).symm

/-- Where each summary leads to a node at most once, the node is counted once for each of them. -/
theorem summariesInto_eq_of_count_le (hcount : ∀ e ∈ h.summaries, e.targets.count v ≤ 1) :
    h.summariesInto v = (h.summaries.zipIdx.filter (v ∈ ·.1.targets)).map Prod.snd := by
  have hlisted : ∀ e ∈ h.summaries.zipIdx, e.1.targets.count v ≤ 1 := fun e he =>
    hcount e.1 (mem_of_getElem? (mem_zipIdx_iff_getElem?.1 he))
  rw [summariesInto]
  generalize h.summaries.zipIdx = listed at hlisted ⊢
  induction listed with
  | nil => rfl
  | cons e listed ih =>
    obtain ⟨he, hlisted⟩ := forall_mem_cons.1 hlisted
    rw [flatMap_cons, ih hlisted]
    by_cases hv : v ∈ e.1.targets
    · have hone : e.1.targets.count v = 1 := Nat.le_antisymm he (count_pos_iff.2 hv)
      simp [hone, hv]
    · simp [count_eq_zero.2 hv, hv]

theorem summariesInto_eq_nil_iff :
    h.summariesInto v = [] ↔ ∀ e ∈ h.summaries, v ∉ e.targets := by
  rw [eq_nil_iff_forall_not_mem]
  constructor
  · intro hnone e he hv
    obtain ⟨i, hi⟩ := mem_iff_getElem?.1 he
    exact hnone i (mem_summariesInto_iff.2 ⟨e, hi, hv⟩)
  · intro hnone i hi
    obtain ⟨e, he, hv⟩ := mem_summariesInto_iff.1 hi
    exact hnone e (mem_of_getElem? he) hv

theorem summariesOutOf_eq_nil_iff :
    h.summariesOutOf v = [] ↔ h.summaries.filter (·.source? = some v) = [] :=
  positions_eq_nil_iff h.summaries (·.source? = some v)

theorem exists_summariesOutOf_iff {e : Summary} :
    (∃ i, h.summariesOutOf v = [i] ∧ h.summaries[i]? = some e) ↔
      h.summaries.filter (·.source? = some v) = [e] :=
  exists_positions_eq_singleton_iff h.summaries (·.source? = some v)

/-! ### Nodes inside a chain -/

/-- The connections around a node are a step of the chain from `s` into it, and one out of it to
`t`. -/
structure IsInside (h : Heap) (chain : Chain) (s v t : Node) : Prop where
  source_ne : s ≠ v
  target_ne : t ≠ v
  around : ∃ into out, chain.IsStep s v into ∧ chain.IsStep v t out ∧ (h.around v).Perm [into, out]

theorem mem_around_iff : k ∈ h.around v ↔ k ∈ h.connections ∧ v ∈ k.ends := by
  rw [around, mem_filter, decide_eq_true_eq]

theorem filterMap_filter_connections (p : List Node → Bool) :
    (h.connections.filter (p ·.ends)).filterMap Connection.summary? = h.summaries.filter (p ·.ends) := by
  rw [← filterMap_connections (h := h), filter_filterMap, filterMap_filter]
  refine filterMap_congr fun k _ => ?_
  cases k with
  | selector u sel w => simp [Connection.summary?]
  | summary e => cases hp : p e.ends <;> simp [Connection.summary?, Connection.ends, Option.filter, hp]

theorem filterMap_around :
    (h.around v).filterMap Connection.summary? = h.summaries.filter (v ∈ ·.ends) :=
  filterMap_filter_connections (v ∈ ·)

theorem filter_summaries_perm {l : List Connection} (hl : (h.around v).Perm l) {p : Summary → Bool}
    (hp : ∀ e, p e → v ∈ e.ends) :
    (h.summaries.filter p).Perm ((l.filterMap Connection.summary?).filter p) := by
  refine .trans (.of_eq ?_) ((hl.filterMap Connection.summary?).filter p)
  rw [filterMap_around, filter_filter]
  refine filter_congr fun e _ => ?_
  by_cases hpe : p e
  · simp [hpe, hp e hpe]
  · simp [hpe]

namespace IsInside

theorem exists_linkInto? (hin : h.IsInside chain s v t) :
    ∃ link, h.linkInto? chain v = some (link, s) := by
  obtain ⟨-, ht, into, out, hinto, hout, hperm⟩ := hin
  have honly (k : Connection) (hk : k ∈ h.connections) (hv : v ∈ k.ends.tail) : k = into := by
    have hmem := hperm.mem_iff.1 (mem_around_iff.2 ⟨hk, mem_of_mem_tail hv⟩)
    rcases mem_cons.1 hmem with rfl | hmem
    · rfl
    · rw [mem_singleton.1 hmem, hout.ends_eq] at hv
      exact absurd (mem_singleton.1 hv).symm ht
  have hmem : into ∈ h.connections :=
    (mem_around_iff.1 (hperm.mem_iff.2 mem_cons_self)).1
  rcases hinto with rfl | rfl
  · refine ⟨_, linkInto?_eq_some_iff.2 (.inl ⟨rfl, ?_, summariesInto_eq_nil_iff.2 fun e he hv => ?_⟩)⟩
    · refine eq_singleton_of_nodup nodup_selectorsInto
        (mem_selectorsInto_iff.2 (selector_mem_connections.1 hmem)) ?_
      rintro ⟨a, sel⟩ ha
      have ha := selector_mem_connections.2 (mem_selectorsInto_iff.1 ha)
      obtain ⟨rfl, rfl, -⟩ := Connection.selector.inj (honly _ ha (mem_singleton_self v))
      rfl
    · cases honly _ (summary_mem_connections.2 he) hv
  · have hcount (e : Summary) (he : e ∈ h.summaries) : e.targets.count v ≤ 1 := by
      by_cases hv : v ∈ e.targets
      · rw [Connection.summary.inj (honly _ (summary_mem_connections.2 he) hv)]
        simp [Summary.targets]
      · rw [count_eq_zero.2 hv]
        exact Nat.zero_le 1
    have hfilter : h.summaries.filter (v ∈ ·.targets) = [⟨chain.label, [s, v]⟩] := by
      refine perm_singleton.1 ((filter_summaries_perm hperm fun e he => ?_).trans (.of_eq ?_))
      · exact mem_of_mem_tail (of_decide_eq_true he)
      · rcases hout with rfl | rfl <;> simp [Connection.summary?, Summary.targets, ht.symm]
    obtain ⟨i, hi, he⟩ := (exists_positions_eq_singleton_iff h.summaries (v ∈ ·.targets)).2 hfilter
    rw [← summariesInto_eq_of_count_le hcount] at hi
    refine ⟨_, linkInto?_eq_some_iff.2 (.inr ⟨i, rfl, ?_, hi, he⟩)⟩
    refine eq_nil_iff_forall_not_mem.2 ?_
    rintro ⟨a, sel⟩ ha
    have ha := selector_mem_connections.2 (mem_selectorsInto_iff.1 ha)
    cases honly _ ha (mem_singleton_self v)

theorem exists_linkOutOf? (hin : h.IsInside chain s v t) :
    ∃ link, h.linkOutOf? chain v = some (link, t) := by
  obtain ⟨hs, -, into, out, hinto, hout, hperm⟩ := hin
  have honly (k : Connection) (hk : k ∈ h.connections) (hv : k.ends.head? = some v) : k = out := by
    have hmem := hperm.mem_iff.1 (mem_around_iff.2 ⟨hk, mem_of_mem_head? hv⟩)
    rcases mem_cons.1 hmem with rfl | hmem
    · rw [hinto.ends_eq] at hv
      exact absurd (Option.some.inj hv) hs
    · exact mem_singleton.1 hmem
  have hmem : out ∈ h.connections :=
    (mem_around_iff.1 (hperm.mem_iff.2 (mem_cons_of_mem _ mem_cons_self))).1
  rcases hout with rfl | rfl
  · refine ⟨_, linkOutOf?_eq_some_iff.2 (.inl ⟨rfl, ?_, ?_⟩)⟩
    · refine eq_singleton_of_nodup (nodup_toList_cell _)
        (SortedMap.mem_toList_iff.2 (selector_mem_connections.1 hmem)) ?_
      rintro ⟨sel, w⟩ hw
      have hw := selector_mem_connections.2 (SortedMap.mem_toList_iff.1 hw)
      obtain ⟨-, rfl, rfl⟩ := Connection.selector.inj (honly _ hw rfl)
      rfl
    · refine summariesOutOf_eq_nil_iff.2 (filter_eq_nil_iff.2 fun e he hv => ?_)
      cases honly _ (summary_mem_connections.2 he) (of_decide_eq_true hv)
  · have hfilter : h.summaries.filter (·.source? = some v) = [⟨chain.label, [v, t]⟩] := by
      refine perm_singleton.1 ((filter_summaries_perm hperm fun e he => ?_).trans (.of_eq ?_))
      · exact mem_of_mem_head? (of_decide_eq_true he)
      · rcases hinto with rfl | rfl <;>
          simp [filterMap_cons, Connection.summary?, Summary.source?, hs]
    obtain ⟨i, hi, he⟩ := exists_summariesOutOf_iff.2 hfilter
    refine ⟨_, linkOutOf?_eq_some_iff.2 (.inr ⟨i, rfl, ?_, hi, he⟩)⟩
    refine eq_nil_iff_forall_not_mem.2 ?_
    rintro ⟨sel, w⟩ hw
    have hw := selector_mem_connections.2 (SortedMap.mem_toList_iff.1 hw)
    cases honly _ hw rfl

/-- A node that a chain passes through can be folded. -/
theorem exists_foldAt? (hin : h.IsInside chain s v t) :
    ∃ f, h.foldAt? chain v = some f ∧ f.source = s ∧ f.target = t := by
  obtain ⟨link, hlink⟩ := hin.exists_linkInto?
  obtain ⟨link', hlink'⟩ := hin.exists_linkOutOf?
  refine ⟨⟨chain, v, s, t, link, link'⟩, ?_, rfl, rfl⟩
  simp [foldAt?, hlink, hlink', hin.source_ne, hin.target_ne]

end IsInside

/-! ### Connections of a heap that is changed -/

theorem filter_connections : (h.connections.filter fun k => k.summary?.isNone) = h.selectors := by
  have hselectors : (h.selectors.filter fun k => k.summary?.isNone) = h.selectors := by
    refine filter_eq_self.2 fun k hk => ?_
    obtain ⟨u, sel, w, -, rfl⟩ := mem_selectors_iff.1 hk
    rfl
  have hsummaries : ((h.summaries.map Connection.summary).filter fun k => k.summary?.isNone) = [] := by
    refine filter_eq_nil_iff.2 fun k hk => ?_
    obtain ⟨e, -, rfl⟩ := mem_map.1 hk
    exact Bool.false_ne_true
  rw [connections, filter_append, hselectors, hsummaries, append_nil]

theorem nodup_filter_connections (p : Connection → Bool) :
    ((h.connections.filter p).filter fun k => k.summary?.isNone).Nodup := by
  have hsub : ((h.connections.filter p).filter fun k => k.summary?.isNone).Sublist h.selectors :=
    filter_connections (h := h) ▸ filter_sublist.filter _
  exact nodup_selectors.sublist hsub

/-- Two lists of connections are permutations if their selectors and their summaries are. -/
theorem perm_of_parts {l l' : List Connection}
    (hselector : (l.filter fun k => k.summary?.isNone).Perm (l'.filter fun k => k.summary?.isNone))
    (hsummary : (l.filterMap Connection.summary?).Perm (l'.filterMap Connection.summary?)) :
    l.Perm l' := by
  have hparts (l : List Connection) : ((l.filter fun k => k.summary?.isNone) ++
      (l.filterMap Connection.summary?).map Connection.summary).Perm l := by
    induction l with
    | nil => exact .refl _
    | cons k l ih =>
      cases k with
      | selector u sel w => exact ih.cons _
      | summary e => exact perm_middle.trans (ih.cons _)
  exact (hparts l).symm.trans ((hselector.append (hsummary.map _)).trans (hparts l'))

/-- The selectors and the summaries tell the connections, whatever the number of nodes. -/
theorem connections_perm_of_selector? (hselector : ∀ u sel, g.selector? u sel = h.selector? u sel)
    (hsummaries : g.summaries.Perm h.summaries) : g.connections.Perm h.connections := by
  refine .append ((perm_ext_iff_of_nodup nodup_selectors nodup_selectors).2 fun k => ?_)
    (hsummaries.map _)
  simp only [mem_selectors_iff, hselector]

theorem connections_grow : h.grow.connections.Perm h.connections :=
  connections_perm_of_selector? (fun _ _ => selector?_grow) (.refl _)

theorem connections_setSelector (hnull : v ≠ Node.null) (hlt : v < h.size)
    (hnone : h.selector? v sel = none) :
    (h.setSelector v sel t).connections.Perm (.selector v sel t :: h.connections) := by
  rw [connections, connections, ← cons_append, summaries_setSelector]
  refine .append_right _ ((perm_ext_iff_of_nodup nodup_selectors ?_).2 fun k => ?_)
  · refine nodup_cons.2 ⟨fun hmem => ?_, nodup_selectors⟩
    obtain ⟨u, s, w, hw, heq⟩ := mem_selectors_iff.1 hmem
    obtain ⟨rfl, rfl, rfl⟩ := Connection.selector.inj heq
    cases hnone.symm.trans hw
  · rw [mem_cons, mem_selectors_iff, mem_selectors_iff]
    constructor
    · rintro ⟨u, s, w, hw, rfl⟩
      rw [selector?_setSelector hnull] at hw
      split at hw
      · next heq =>
        obtain ⟨rfl, -, rfl⟩ := heq
        exact .inl (Option.some.inj hw ▸ rfl)
      · exact .inr ⟨u, s, w, hw, rfl⟩
    · rintro (rfl | ⟨u, s, w, hw, rfl⟩)
      · exact ⟨v, sel, t, by rw [selector?_setSelector hnull, if_pos ⟨rfl, hlt, rfl⟩], rfl⟩
      · refine ⟨u, s, w, ?_, rfl⟩
        rw [selector?_setSelector hnull, if_neg, hw]
        rintro ⟨rfl, -, rfl⟩
        cases hnone.symm.trans hw

theorem connections_addSummary (label : String) (ends : List Node) :
    (h.addSummary label ends).connections.Perm (.summary ⟨label, ends⟩ :: h.connections) := by
  have hsummaries : (h.addSummary label ends).summaries = h.summaries ++ [⟨label, ends⟩] := rfl
  have hselectors : (h.addSummary label ends).selectors = h.selectors := rfl
  rw [connections, hselectors, hsummaries, map_append, ← append_assoc]
  exact perm_append_singleton _ _

theorem connections_dropSummaries (hi : h.summaries[i]? = some e) :
    h.connections.Perm (.summary e :: (h.dropSummaries [i]).connections) := by
  have hsummaries := dropSummaries_perm (h := h) [i] (nodup_singleton i)
  simp only [filterMap_cons, hi, filterMap_nil, singleton_append] at hsummaries
  have hselectors : (h.dropSummaries [i]).selectors = h.selectors := rfl
  rw [connections, connections, hselectors]
  exact ((hsummaries.map Connection.summary).append_left _).trans perm_middle

/-! ### Folds -/

/-- The connection that a step of a chain is. -/
def connectionOf (chain : Chain) (u w : Node) : Link → Connection
  | .selector _ => .selector u chain.selector w
  | .summary _ => .summary ⟨chain.label, [u, w]⟩

theorem isStep_connectionOf (link : Link) : chain.IsStep u w (connectionOf chain u w link) := by
  cases link
  · exact .inl rfl
  · exact .inr rfl

theorem selector?_into_iff (hlink : h.linkInto? chain v = some (link, u)) {a : Node} :
    h.selector? a sel = some v ↔ connectionOf chain u v link = .selector a sel v := by
  rw [← mem_selectorsInto_iff]
  rcases linkInto?_eq_some_iff.1 hlink with ⟨rfl, hone, -⟩ | ⟨i, rfl, hnil, -, -⟩
  · rw [hone, mem_singleton, Prod.mk.injEq, connectionOf, Connection.selector.injEq]
    exact ⟨fun heq => ⟨heq.1.symm, heq.2.symm, rfl⟩, fun heq => ⟨heq.1.symm, heq.2.1.symm⟩⟩
  · rw [hnil, connectionOf]
    exact ⟨fun hmem => absurd hmem not_mem_nil, fun heq => by cases heq⟩

theorem selector?_outOf_iff (hlink : h.linkOutOf? chain v = some (link, w)) {b : Node} :
    h.selector? v sel = some b ↔ connectionOf chain v w link = .selector v sel b := by
  rw [selector?, ← SortedMap.mem_toList_iff]
  rcases linkOutOf?_eq_some_iff.1 hlink with ⟨rfl, hone, -⟩ | ⟨i, rfl, hnil, -, -⟩
  · rw [hone, mem_singleton, Prod.mk.injEq, connectionOf, Connection.selector.injEq]
    exact ⟨fun heq => ⟨rfl, heq.1.symm, heq.2.symm⟩, fun heq => ⟨heq.2.1.symm, heq.2.2.symm⟩⟩
  · rw [hnil, connectionOf]
    exact ⟨fun hmem => absurd hmem not_mem_nil, fun heq => by cases heq⟩

theorem summary?_connectionOf_into (hlink : h.linkInto? chain v = some (link, u)) :
    (connectionOf chain u v link).summary?.toList = link.summaries h := by
  rcases linkInto?_eq_some_iff.1 hlink with ⟨rfl, -, -⟩ | ⟨i, rfl, -, -, hi⟩
  · rfl
  · simp [connectionOf, Connection.summary?, Link.summaries, Link.position?, hi]

theorem summary?_connectionOf_outOf (hlink : h.linkOutOf? chain v = some (link, w)) :
    (connectionOf chain v w link).summary?.toList = link.summaries h := by
  rcases linkOutOf?_eq_some_iff.1 hlink with ⟨rfl, -, -⟩ | ⟨i, rfl, -, -, hi⟩
  · rfl
  · simp [connectionOf, Connection.summary?, Link.summaries, Link.position?, hi]

section Steps

variable {f : Fold}

theorem summaries_perm_of_foldAt? (hf : h.foldAt? chain v = some f) :
    h.summaries.Perm ((f.incoming.summaries h ++ f.outgoing.summaries h) ++
      (h.dropSummaries ([f.incoming, f.outgoing].filterMap Link.position?)).summaries) := by
  rw [← Link.summaries_pair]
  exact dropSummaries_perm _ (nodup_positions_of_foldAt? hf)

theorem mem_ends_of_mem_steps (hf : h.foldAt? chain v = some f)
    (he : e ∈ f.incoming.summaries h ++ f.outgoing.summaries h) : v ∈ e.ends := by
  obtain ⟨-, -, hin, hout, -, -⟩ := foldAt?_eq_some hf
  rw [← summary?_connectionOf_into hin, ← summary?_connectionOf_outOf hout] at he
  rcases mem_append.1 he with he | he
  · cases hlink : f.incoming with
    | selector a => simp [hlink, connectionOf, Connection.summary?] at he
    | summary i =>
      obtain rfl : e = ⟨chain.label, [f.source, v]⟩ := by
        simpa [hlink, connectionOf, Connection.summary?] using he
      simp
  · cases hlink : f.outgoing with
    | selector a => simp [hlink, connectionOf, Connection.summary?] at he
    | summary i =>
      obtain rfl : e = ⟨chain.label, [v, f.target]⟩ := by
        simpa [hlink, connectionOf, Connection.summary?] using he
      simp

end Steps

/-- A node that is folded is inside a chain. -/
theorem isInside_of_foldAt? {f : Fold} (hf : h.foldAt? chain v = some f) :
    h.IsInside chain f.source v f.target := by
  obtain ⟨-, -, hin, hout, hsource, htarget⟩ := foldAt?_eq_some hf
  have hinto : chain.IsStep f.source v (connectionOf chain f.source v f.incoming) :=
    isStep_connectionOf _
  have houtof : chain.IsStep v f.target (connectionOf chain v f.target f.outgoing) :=
    isStep_connectionOf _
  refine ⟨hsource, htarget, _, _, hinto, houtof, perm_of_parts ?_ ?_⟩
  · refine (perm_ext_iff_of_nodup (nodup_filter_connections _) (.filter _ ?_)).2 fun k => ?_
    · refine nodup_cons.2 ⟨fun hmem => hsource ?_, nodup_singleton _⟩
      have hends := congrArg Connection.ends (mem_singleton.1 hmem)
      rw [hinto.ends_eq, houtof.ends_eq] at hends
      exact (cons_eq_cons.1 hends).1
    · rw [mem_filter, mem_filter, mem_filter, decide_eq_true_eq]
      refine and_congr_left fun hk => ?_
      cases k with
      | summary e => cases hk
      | selector a sel b =>
        rw [selector_mem_connections, mem_cons, mem_singleton]
        constructor
        · rintro ⟨hsel, hv⟩
          rcases mem_cons.1 hv with rfl | hv
          · exact .inr ((selector?_outOf_iff hout).1 hsel).symm
          · obtain rfl := mem_singleton.1 hv
            exact .inl ((selector?_into_iff hin).1 hsel).symm
        · rintro (heq | heq)
          · have hends : [a, b] = [f.source, v] := (congrArg Connection.ends heq).trans hinto.ends_eq
            obtain rfl : b = v := by simpa using congrArg List.getLast? hends
            exact ⟨(selector?_into_iff hin).2 heq.symm, by simp [Connection.ends]⟩
          · have hends : [a, b] = [v, f.target] := (congrArg Connection.ends heq).trans houtof.ends_eq
            obtain rfl := (cons_eq_cons.1 hends).1
            exact ⟨(selector?_outOf_iff hout).2 heq.symm, by simp [Connection.ends]⟩
  · have hpair (k k' : Connection) : [k, k'].filterMap Connection.summary? =
        k.summary?.toList ++ k'.summary?.toList := by
      cases k <;> cases k' <;> rfl
    rw [hpair, summary?_connectionOf_into hin, summary?_connectionOf_outOf hout, filterMap_around]
    refine ((summaries_perm_of_foldAt? hf).filter _).trans (.of_eq ?_)
    rw [filter_append, filter_eq_self.2 fun e he => ?steps,
      filter_eq_nil_iff.2 fun e he hv => ?others, append_nil]
    case steps => exact decide_eq_true (mem_ends_of_mem_steps hf he)
    case others => exact not_mem_ends_of_foldAt? hf he (of_decide_eq_true hv)

section Renumbered

variable {f : Node → Node}

/-- The connections around corresponding nodes correspond. -/
theorem around_perm (hinj : ∀ k ∈ g.connections, ∀ u ∈ k.ends, f u = f v → u = v)
    (hperm : (g.connections.map (Connection.map f)).Perm h.connections) :
    (h.around (f v)).Perm ((g.around v).map (Connection.map f)) := by
  refine (hperm.symm.filter _).trans (.of_eq ?_)
  rw [filter_map]
  refine congrArg _ (filter_congr fun k hk => decide_eq_decide.2 ?_)
  exact Connection.mem_ends_map (hinj k hk)

/-- Renumbering carries a chain through a node to a chain through the corresponding node. -/
theorem IsInside.map (hin : g.IsInside chain s v t)
    (hinj : ∀ k ∈ g.connections, ∀ u ∈ k.ends, f u = f v → u = v)
    (hperm : (g.connections.map (Connection.map f)).Perm h.connections) :
    h.IsInside chain (f s) (f v) (f t) := by
  obtain ⟨hs, ht, into, out, hinto, hout, haround⟩ := hin
  have hmem {k} (hk : k ∈ [into, out]) : k ∈ g.connections :=
    (mem_around_iff.1 (haround.mem_iff.2 hk)).1
  refine ⟨fun heq => hs ?_, fun heq => ht ?_, into.map f, out.map f, hinto.map f, hout.map f,
    (around_perm hinj hperm).trans (haround.map _)⟩
  · exact hinj into (hmem (by simp)) s (by simp [hinto.ends_eq]) heq
  · exact hinj out (hmem (by simp)) t (by simp [hout.ends_eq]) heq

end Renumbered

/-! ### Contractions -/

/-- The heap `h'` is `h` with the node `v` folded: the two steps around it are one summary. -/
structure IsContraction (chain : Chain) (s v t : Node) (h h' : Heap) : Prop where
  isInside : h.IsInside chain s v t
  var : ∀ x, h'.var? x = h.var? x
  connections : h'.connections.Perm
    (.summary ⟨chain.label, [s, t]⟩ :: h.connections.filter (v ∉ ·.ends))

namespace IsContraction

variable (hc : IsContraction chain s v t h h')
include hc

theorem mem_connections_iff :
    k ∈ h'.connections ↔ k = .summary ⟨chain.label, [s, t]⟩ ∨ k ∈ h.connections ∧ v ∉ k.ends := by
  rw [hc.connections.mem_iff, mem_cons, mem_filter, decide_eq_true_eq]

/-- The two connections around the node. -/
theorem ends_of_mem (hk : k ∈ h.connections) (hv : v ∈ k.ends) :
    k.ends = [s, v] ∨ k.ends = [v, t] := by
  obtain ⟨-, -, into, out, hinto, hout, hperm⟩ := hc.isInside
  have hmem := hperm.mem_iff.1 (mem_around_iff.2 ⟨hk, hv⟩)
  rw [mem_cons, mem_singleton] at hmem
  rcases hmem with rfl | rfl
  · exact .inl hinto.ends_eq
  · exact .inr hout.ends_eq

theorem mem_summaries_iff :
    e ∈ h'.summaries ↔ e = ⟨chain.label, [s, t]⟩ ∨ e ∈ h.summaries ∧ v ∉ e.ends := by
  rw [← summary_mem_connections, hc.mem_connections_iff, summary_mem_connections,
    Connection.summary.injEq]
  rfl

/-- The folded node has no connection left. -/
theorem not_mem_ends (hk : k ∈ h'.connections) : v ∉ k.ends := by
  rcases hc.mem_connections_iff.1 hk with rfl | ⟨-, hv⟩
  · simp [Connection.ends, hc.isInside.source_ne.symm, hc.isInside.target_ne.symm]
  · exact hv

end IsContraction

section Apply

variable {f : Fold}

/-- A fold keeps the selectors that are not attached to the node. -/
theorem selector?_apply_eq_some_iff (hf : h.foldAt? chain v = some f) :
    (f.apply h).selector? u sel = some w ↔ h.selector? u sel = some w ∧ v ∉ [u, w] := by
  obtain ⟨rfl, rfl, hin, hout, -, -⟩ := foldAt?_eq_some hf
  rw [selector?_apply]
  split
  · next hstep =>
    obtain ⟨hlink, rfl⟩ := hstep
    refine iff_of_false (by simp) ?_
    rintro ⟨hw, hne⟩
    refine hne ?_
    rcases hlink with hlink | hlink
    · rcases linkInto?_eq_some_iff.1 hin with ⟨heq, hone, -⟩ | ⟨i, heq, -, -, -⟩
      · obtain rfl := Link.selector.inj (hlink.symm.trans heq)
        have hv := mem_selectorsInto_iff.1 (hone ▸ mem_singleton_self _)
        rw [hv, Option.some.injEq] at hw
        simp [hw]
      · cases hlink.symm.trans heq
    · rcases linkOutOf?_eq_some_iff.1 hout with ⟨heq, -, -⟩ | ⟨i, heq, -, -, -⟩
      · obtain rfl := Link.selector.inj (hlink.symm.trans heq)
        exact mem_cons_self
      · cases hlink.symm.trans heq
  · next hstep =>
    refine ⟨fun hw => ⟨hw, fun hmem => hstep ?_⟩, And.left⟩
    rcases mem_cons.1 hmem with rfl | hmem
    · rcases linkOutOf?_eq_some_iff.1 hout with ⟨heq, hone, -⟩ | ⟨i, -, hnil, -, -⟩
      · have hmem := SortedMap.mem_toList_iff.2 hw
        rw [hone, mem_singleton, Prod.mk.injEq] at hmem
        exact ⟨.inr heq, hmem.1⟩
      · exact absurd (SortedMap.mem_toList_iff.2 hw) (hnil ▸ not_mem_nil)
    · obtain rfl := mem_singleton.1 hmem
      rcases linkInto?_eq_some_iff.1 hin with ⟨heq, hone, -⟩ | ⟨i, -, hnil, -, -⟩
      · have hmem := mem_selectorsInto_iff.2 hw
        rw [hone, mem_singleton, Prod.mk.injEq] at hmem
        exact ⟨.inl (heq.trans (congrArg _ hmem.1.symm)), hmem.2⟩
      · exact absurd (mem_selectorsInto_iff.2 hw) (hnil ▸ not_mem_nil)

theorem isContraction_apply (hf : h.foldAt? chain v = some f) :
    IsContraction chain f.source v f.target h (f.apply h) where
  isInside := isInside_of_foldAt? hf
  var x := by simp [Fold.apply]
  connections := by
    refine perm_of_parts ?_ ?_
    · rw [filter_connections]
      refine (perm_ext_iff_of_nodup nodup_selectors (nodup_filter_connections _)).2 fun k => ?_
      rw [mem_filter, mem_filter, mem_selectors_iff]
      cases k with
      | selector a sel b => simp [selector?_apply_eq_some_iff hf, Connection.ends, Connection.summary?]
      | summary e => simp [Connection.summary?]
    · have hdropped : (h.dropSummaries ([f.incoming, f.outgoing].filterMap Link.position?)).summaries.Perm
          (h.summaries.filter (v ∉ ·.ends)) := by
        refine .symm (((summaries_perm_of_foldAt? hf).filter _).trans (.of_eq ?_))
        rw [filter_append, filter_eq_nil_iff.2 fun e he hv => ?steps,
          filter_eq_self.2 fun e he => ?others, nil_append]
        case steps => exact of_decide_eq_true hv (mem_ends_of_mem_steps hf he)
        case others => exact decide_eq_true (not_mem_ends_of_foldAt? hf he)
      rw [filterMap_connections, summaries_apply]
      refine (perm_append_singleton _ _).trans ?_
      obtain ⟨hchain, -⟩ := foldAt?_eq_some hf
      rw [hchain]
      refine (hdropped.cons _).trans (.of_eq ?_)
      rw [← filterMap_filter_connections (v ∉ ·)]
      rfl

end Apply

end Heap

end ShapeCheck
