import ShapeCheck.Proofs.Connections

/-!
# Paths through parts and folded heaps

A part of a heap has all the paths that begin in it. A heap with a node folded has the paths of the
heap that do not begin or end in the node: a path over the node is now one over the summary that took
its place. So both have the same live nodes, and the same nodes near the variables, as the heap.
-/

namespace ShapeCheck

open Relation List

namespace Heap

variable {g h h' : Heap} {chain : Chain} {u v w s t : Node} {depth : Nat}

theorem InRange.lt_of_leads (hh : h.InRange) (huw : h.Leads u w) : u < h.size := by
  obtain ⟨k, hk, hu, -⟩ := leads_iff_connections.1 huw
  exact hh.lt_of_mem_connections hk (mem_of_mem_head? hu)

namespace IsPart

variable {f : Node → Node}

theorem leads (hf : IsPart f g h) (huw : g.Leads u w) : h.Leads (f u) (f w) := by
  rcases mem_successors_iff.1 huw with ⟨sel, hsel⟩ | ⟨e, he, hsource, hw⟩
  · refine mem_successors_iff.2 (.inl ⟨sel, ?_⟩)
    rw [hf.selector u (lt_size_of_selector? hsel), hsel, Option.map_some]
  · refine mem_successors_iff.2 (.inr ⟨e.map f, hf.map_mem_summaries he, ?_, ?_⟩)
    · rw [Summary.source?_map, hsource, Option.map_some]
    · rw [Summary.targets, Summary.map, ← map_tail]
      exact mem_map_of_mem hw

section

variable (hf : IsPart f g h) (hg : g.InRange) (hu : u < g.size)
include hf hg hu

theorem exists_leads (huw : h.Leads (f u) w) : ∃ w', f w' = w ∧ g.Leads u w' := by
  rcases mem_successors_iff.1 huw with ⟨sel, hsel⟩ | ⟨e, he, hsource, hw⟩
  · rw [hf.selector u hu, Option.map_eq_some_iff] at hsel
    obtain ⟨w', hw', rfl⟩ := hsel
    exact ⟨w', rfl, mem_successors_iff.2 (.inl ⟨sel, hw'⟩)⟩
  · obtain ⟨e, he', rfl⟩ := hf.exists_mem_summaries he fun a ha => by
      rcases Summary.mem_ends_iff.1 ha with ha | ha
      · exact ⟨u, hu, Option.some.inj (hsource.symm.trans ha)⟩
      · exact hf.closed u hu a (mem_successors_iff.2 (.inr ⟨e, he, hsource, ha⟩))
    rw [Summary.source?_map, Option.map_eq_some_iff] at hsource
    obtain ⟨a, ha, heq⟩ := hsource
    obtain rfl := hf.inj a (hg.ends e he' a (Summary.mem_ends_iff.2 (.inl ha))) u hu heq
    rw [Summary.targets, Summary.map, ← map_tail] at hw
    obtain ⟨w', hw', rfl⟩ := mem_map.1 hw
    exact ⟨w', rfl, mem_successors_iff.2 (.inr ⟨e, he', ha, hw'⟩)⟩

theorem exists_transGen (huw : TransGen h.Leads (f u) w) :
    ∃ w' < g.size, f w' = w ∧ TransGen g.Leads u w' := by
  induction huw with
  | single hstep =>
    obtain ⟨w', rfl, hw'⟩ := hf.exists_leads hg hu hstep
    exact ⟨w', hg.lt_of_mem_successors hw', rfl, .single hw'⟩
  | tail _ hstep ih =>
    obtain ⟨a, ha, rfl, hua⟩ := ih
    obtain ⟨w', rfl, hw'⟩ := hf.exists_leads hg ha hstep
    exact ⟨w', hg.lt_of_mem_successors hw', rfl, hua.tail hw'⟩

theorem transGen_iff (hw : w < g.size) : TransGen h.Leads (f u) (f w) ↔ TransGen g.Leads u w := by
  constructor
  · intro huw
    obtain ⟨w', hw', heq, huw⟩ := hf.exists_transGen hg hu huw
    exact hf.inj w' hw' w hw heq ▸ huw
  · exact fun huw => TransGen.lift f (fun _ _ => hf.leads) u w huw

/-- A part has all variables and all paths from them, so its live nodes are those of the heap. -/
theorem isLive_iff : h.IsLive (f u) ↔ g.IsLive u := by
  constructor
  · intro hlive
    obtain ⟨v, hv, heq, hlive⟩ : ∃ v < g.size, f v = f u ∧ g.IsLive v := by
      refine hlive.induction (P := fun w => ∃ v < g.size, f v = w ∧ g.IsLive v)
        ⟨Node.null, hg.pos, hf.null, .null⟩ (fun x w hx => ?_) ?_
      · rw [hf.var, Option.map_eq_some_iff] at hx
        obtain ⟨v, hv, heq⟩ := hx
        exact ⟨v, hg.var x v hv, heq, .var hv⟩
      · rintro _ w ⟨v, hv, rfl, hlive⟩ hvw
        obtain ⟨w', rfl, hw'⟩ := hf.exists_leads hg hv hvw
        exact ⟨w', hg.lt_of_mem_successors hw', rfl, hlive.tail hw'⟩
    exact hf.inj v hv u hu heq ▸ hlive
  · refine IsLive.induction (P := fun v => h.IsLive (f v)) ?_ (fun x v hx => ?_)
      fun v w hv hvw => hv.tail (hf.leads hvw)
    · rw [hf.null]
      exact .null
    · exact .var (x := x) (by rw [hf.var, hx, Option.map_some])

end

end IsPart

namespace IsContraction

variable (hc : IsContraction chain s v t h h')
include hc

theorem source_leads : h.Leads s v := by
  obtain ⟨-, -, into, out, hinto, -, hperm⟩ := hc.isInside
  refine leads_iff_connections.2 ⟨into, (mem_around_iff.1 (hperm.mem_iff.2 (by simp))).1, ?_⟩
  simp [hinto.ends_eq]

theorem leads_target : h.Leads v t := by
  obtain ⟨-, -, into, out, -, hout, hperm⟩ := hc.isInside
  refine leads_iff_connections.2 ⟨out, (mem_around_iff.1 (hperm.mem_iff.2 (by simp))).1, ?_⟩
  simp [hout.ends_eq]

theorem eq_source (huv : h.Leads u v) : u = s := by
  obtain ⟨k, hk, hu, hv⟩ := leads_iff_connections.1 huv
  rcases hc.ends_of_mem hk (mem_of_mem_tail hv) with hends | hends
  · rw [hends] at hu
    exact (Option.some.inj hu).symm
  · rw [hends] at hv
    exact absurd (mem_singleton.1 hv).symm hc.isInside.target_ne

theorem eq_target (hvw : h.Leads v w) : w = t := by
  obtain ⟨k, hk, hv, hw⟩ := leads_iff_connections.1 hvw
  rcases hc.ends_of_mem hk (mem_of_mem_head? hv) with hends | hends
  · rw [hends] at hv
    exact absurd (Option.some.inj hv) hc.isInside.source_ne
  · rw [hends] at hw
    exact mem_singleton.1 hw

theorem leads_iff : h'.Leads u w ↔ u = s ∧ w = t ∨ h.Leads u w ∧ u ≠ v ∧ w ≠ v := by
  rw [leads_iff_connections]
  constructor
  · rintro ⟨k, hk, hu, hw⟩
    rcases hc.mem_connections_iff.1 hk with rfl | ⟨hk, hv⟩
    · exact .inl ⟨(Option.some.inj hu).symm, mem_singleton.1 hw⟩
    · refine .inr ⟨leads_iff_connections.2 ⟨k, hk, hu, hw⟩, ?_, ?_⟩
      · rintro rfl
        exact hv (mem_of_mem_head? hu)
      · rintro rfl
        exact hv (mem_of_mem_tail hw)
  · rintro (⟨rfl, rfl⟩ | ⟨huw, hu, hw⟩)
    · exact ⟨_, hc.mem_connections_iff.2 (.inl rfl), rfl, mem_singleton_self w⟩
    · obtain ⟨k, hk, hhead, htail⟩ := leads_iff_connections.1 huw
      refine ⟨k, hc.mem_connections_iff.2 (.inr ⟨hk, fun hv => ?_⟩), hhead, htail⟩
      rcases hc.ends_of_mem hk hv with hends | hends
      · rw [hends] at htail
        exact hw (mem_singleton.1 htail)
      · rw [hends] at hhead
        exact hu (Option.some.inj hhead).symm

theorem leads_new : h'.Leads s t :=
  hc.leads_iff.2 (.inl ⟨rfl, rfl⟩)

/-- A step of the folded heap is a path of the heap: the new one leads over the node. -/
theorem transGen_of_leads (huw : h'.Leads u w) : TransGen h.Leads u w := by
  rcases hc.leads_iff.1 huw with ⟨rfl, rfl⟩ | ⟨huw, -, -⟩
  · exact .tail (.single hc.source_leads) hc.leads_target
  · exact .single huw

/-- A path that does not begin in the node can be followed in the folded heap; where it meets the
node, it is followed up to the source. -/
theorem transGen_of_transGen (hu : u ≠ v) (huw : TransGen h.Leads u w) :
    (w ≠ v → TransGen h'.Leads u w) ∧ (w = v → ReflTransGen h'.Leads u s) := by
  induction huw with
  | single hstep =>
    refine ⟨fun hw => .single (hc.leads_iff.2 (.inr ⟨hstep, hu, hw⟩)), ?_⟩
    rintro rfl
    exact hc.eq_source hstep ▸ .refl
  | @tail a b _ hstep ih =>
    refine ⟨fun hb => ?_, ?_⟩
    · by_cases ha : a = v
      · subst ha
        exact hc.eq_target hstep ▸ TransGen.tail' (ih.2 rfl) hc.leads_new
      · exact (ih.1 ha).tail (hc.leads_iff.2 (.inr ⟨hstep, ha, hb⟩))
    · rintro rfl
      obtain rfl := hc.eq_source hstep
      exact (ih.1 hc.isInside.source_ne).to_reflTransGen

theorem transGen_iff (hu : u ≠ v) (hw : w ≠ v) : TransGen h'.Leads u w ↔ TransGen h.Leads u w := by
  refine ⟨fun huw => ?_, fun huw => (hc.transGen_of_transGen hu huw).1 hw⟩
  induction huw with
  | single hstep => exact hc.transGen_of_leads hstep
  | @tail a b _ hstep ih =>
    have ha : a ≠ v := by
      rcases hc.leads_iff.1 hstep with ⟨rfl, -⟩ | ⟨-, ha, -⟩
      · exact hc.isInside.source_ne
      · exact ha
    exact (ih ha).trans (hc.transGen_of_leads hstep)

theorem mem_roots_iff : u ∈ h'.roots ↔ u ∈ h.roots := by
  simp only [roots, mem_cons, mem_values_vars, hc.var]

theorem isLive_iff (hroot : v ∉ h.roots) (hu : u ≠ v) : h'.IsLive u ↔ h.IsLive u := by
  refine exists_congr fun r => ?_
  rw [hc.mem_roots_iff, and_congr_right_iff]
  intro hr
  have hne : r ≠ v := by
    rintro rfl
    exact hroot hr
  rw [reflTransGen_iff_eq_or_transGen, reflTransGen_iff_eq_or_transGen, hc.transGen_iff hne hu]

end IsContraction

/-- The nodes of a set, and those that they lead to. -/
def spread (h : Heap) (S : Node → Prop) (w : Node) : Prop :=
  S w ∨ ∃ u, S u ∧ h.Leads u w

/-- A variable names the node. -/
def IsNamed (h : Heap) (v : Node) : Prop :=
  ∃ x, h.var? x = some v

theorem iterate_spread_of {S : Node → Prop} (hv : S v) (depth : Nat) : h.spread^[depth] S v := by
  induction depth generalizing S with
  | zero => exact hv
  | succ depth ih =>
    rw [Function.iterate_succ_apply]
    exact ih (.inl hv)

/-- Each layer is found from the one before: what the nodes seen earlier lead to has been seen. -/
theorem mem_layersFrom_iff {S : Node → Prop} {seen layer : List Node} (hseen : ∀ w, w ∈ seen ↔ S w)
    (hlayer : layer ⊆ seen)
    (hclosed : ∀ u ∈ seen, u ∉ layer → ∀ w, h.Leads u w → w ∈ seen) :
    v ∈ h.layersFrom depth seen layer ↔ h.spread^[depth] S v := by
  induction depth generalizing seen layer S with
  | zero => exact hseen v
  | succ depth ih =>
    obtain ⟨next, hnext⟩ := prefix_visitAll seen (layer.flatMap h.successors)
    have hspread (w : Node) : w ∈ seen ++ next ↔ h.spread S w := by
      rw [hnext, mem_visitAll, spread, ← hseen]
      refine ⟨Or.imp_right fun hw => ?_, ?_⟩
      · obtain ⟨u, hu, hw⟩ := mem_flatMap.1 hw
        exact ⟨u, (hseen u).1 (hlayer hu), hw⟩
      · rintro (hw | ⟨u, hu, hw⟩)
        · exact .inl hw
        · by_cases hmem : u ∈ layer
          · exact .inr (mem_flatMap.2 ⟨u, hmem, hw⟩)
          · exact .inl (hclosed u ((hseen u).2 hu) hmem w hw)
    rw [layersFrom, ← hnext, drop_left, Function.iterate_succ_apply]
    split
    · next hempty =>
      have hfix : h.spread S = S := by
        funext w
        rw [← propext (hspread w), ← propext (hseen w), List.isEmpty_iff.1 hempty, append_nil]
      rw [hfix, Function.iterate_fixed hfix, hseen]
    · refine ih hspread (subset_append_right seen next) fun u hu hmem w hw => ?_
      rw [hspread]
      exact .inr ⟨u, (hseen u).1 ((mem_append.1 hu).resolve_right hmem), hw⟩

theorem mem_near_iff : v ∈ h.near depth ↔ h.spread^[depth] h.IsNamed v :=
  mem_layersFrom_iff (fun w => by simp [mem_visitAll, IsNamed, mem_values_vars])
    (List.Subset.refl _) fun _ hu hmem => absurd hu hmem

theorem not_mem_roots (hnull : v ≠ Node.null) (hnear : v ∉ h.near depth) : v ∉ h.roots := by
  rw [roots, mem_cons, not_or]
  refine ⟨hnull, fun hv => hnear ?_⟩
  obtain ⟨x, hx⟩ := mem_values_vars.1 hv
  exact mem_near_of_var? hx depth

theorem IsPart.iterate_spread {f : Node → Node} (hf : IsPart f g h) (hg : g.InRange)
    {S T : Node → Prop} (hS : ∀ w, S w ↔ ∃ u < g.size, f u = w ∧ T u) (hv : v < g.size) :
    h.spread^[depth] S (f v) ↔ g.spread^[depth] T v := by
  induction depth generalizing S T with
  | zero =>
    refine (hS (f v)).trans ⟨?_, fun hT => ⟨v, hv, rfl, hT⟩⟩
    rintro ⟨u, hu, heq, hT⟩
    exact hf.inj u hu v hv heq ▸ hT
  | succ depth ih =>
    rw [Function.iterate_succ_apply, Function.iterate_succ_apply]
    refine ih fun w => ⟨?_, ?_⟩
    · rintro (hw | ⟨a, ha, haw⟩)
      · obtain ⟨u, hu, rfl, hT⟩ := (hS w).1 hw
        exact ⟨u, hu, rfl, .inl hT⟩
      · obtain ⟨u, hu, rfl, hT⟩ := (hS a).1 ha
        obtain ⟨w', rfl, hw'⟩ := hf.exists_leads hg hu haw
        exact ⟨w', hg.lt_of_mem_successors hw', rfl, .inr ⟨u, hT, hw'⟩⟩
    · rintro ⟨w, hw, rfl, hT | ⟨u, hT, huw⟩⟩
      · exact .inl ((hS _).2 ⟨w, hw, rfl, hT⟩)
      · exact .inr ⟨f u, (hS _).2 ⟨u, hg.lt_of_leads huw, rfl, hT⟩, hf.leads huw⟩

theorem IsPart.mem_near_iff {f : Node → Node} (hf : IsPart f g h) (hg : g.InRange) (hv : v < g.size) :
    f v ∈ h.near depth ↔ v ∈ g.near depth := by
  rw [Heap.mem_near_iff, Heap.mem_near_iff]
  refine hf.iterate_spread hg (fun w => ?_) hv
  constructor
  · rintro ⟨x, hx⟩
    rw [hf.var, Option.map_eq_some_iff] at hx
    obtain ⟨u, hu, rfl⟩ := hx
    exact ⟨u, hg.var x u hu, rfl, x, hu⟩
  · rintro ⟨u, -, rfl, x, hx⟩
    exact ⟨x, by rw [hf.var, hx, Option.map_some]⟩

theorem IsContraction.iterate_spread (hc : IsContraction chain s v t h h') {S : Node → Prop}
    (hv : ¬h.spread^[depth] S v) : h'.spread^[depth] S = h.spread^[depth] S := by
  induction depth generalizing S with
  | zero => rfl
  | succ depth ih =>
    rw [Function.iterate_succ_apply] at hv
    have hnext : ¬h.spread S v := fun hmem => hv (iterate_spread_of hmem depth)
    -- The source is not in the set, so no member of the set has gained or lost a step.
    have hsame : h'.spread S = h.spread S := by
      funext w
      refine propext (or_congr_right (exists_congr fun u => and_congr_right fun hu => ?_))
      have hne : u ≠ v := by
        rintro rfl
        exact hnext (.inl hu)
      have hsource : u ≠ s := by
        rintro rfl
        exact hnext (.inr ⟨u, hu, hc.source_leads⟩)
      rw [hc.leads_iff]
      refine ⟨fun huw => (huw.resolve_left fun heq => hsource heq.1).1, fun huw => .inr ⟨huw, hne, ?_⟩⟩
      rintro rfl
      exact hnext (.inr ⟨u, hu, huw⟩)
    rw [Function.iterate_succ_apply, Function.iterate_succ_apply, hsame, ih hv]

theorem IsContraction.mem_near_iff (hc : IsContraction chain s v t h h') (hv : v ∉ h.near depth) :
    u ∈ h'.near depth ↔ u ∈ h.near depth := by
  rw [Heap.mem_near_iff] at hv
  have hnamed : h'.IsNamed = h.IsNamed := by
    funext w
    simp only [IsNamed, hc.var]
  rw [Heap.mem_near_iff, Heap.mem_near_iff, hnamed, hc.iterate_spread hv]

end Heap

end ShapeCheck
