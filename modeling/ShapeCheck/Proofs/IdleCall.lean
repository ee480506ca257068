import ShapeCheck.Proofs.FrameRule
import ShapeCheck.Proofs.Precondition

/-!
# A callee that changes nothing

If a callee leaves the heap that it started with, without its own variables, the caller has its old
heap again, up to garbage and the numbers of the nodes. The caller's heap is itself glued from the
caller's part and the result; the heap that `resume` computes is glued from the same two with other
names for the nodes that only the callee knows. Nothing outside refers to these, so the two heaps
agree as soon as garbage is collected.
-/

namespace ShapeCheck

open List

namespace Heap

variable {f p : Node → Node} {S : Set Node} {g h k : Heap} {v w : Node}

theorem IsPart.isLive_iff_exists (hf : IsPart f g h) (hg : g.InRange) (htrim : g.IsTrim) :
    h.IsLive v ↔ ∃ u < g.size, f u = v := by
  constructor
  · intro hv
    refine hv.induction (P := fun v => ∃ u < g.size, f u = v) ⟨Node.null, hg.pos, hf.null⟩ ?_ ?_
    · intro x v hx
      rw [hf.var, Option.map_eq_some_iff] at hx
      obtain ⟨u, hu, heq⟩ := hx
      exact ⟨u, hg.var x u hu, heq⟩
    · rintro _ w ⟨u, hu, rfl⟩ huw
      exact hf.closed u hu w huw
  · rintro ⟨u, hu, rfl⟩
    exact (hf.isLive_iff hg hu).2 (htrim u hu)

theorem IsPart.isomorphic_collect (hf : IsPart f g h) (hg : g.InRange) (htrim : g.IsTrim)
    (hh : h.InRange) : Isomorphic g h.collect := by
  obtain ⟨q, hq, hlive⟩ := hh.isPart_collect
  have himage (v : Node) : (∃ u < g.size, f u = v) ↔ ∃ u < h.collect.size, q u = v := by
    rw [← hf.isLive_iff_exists hg htrim, hlive]
  refine isomorphic_of_placements hh.inRange_collect hf.inj hq.inj himage
    (hf.null.trans hq.null.symm) (fun v hv w hw heq sel => ?_) (fun x => ?_) ?_
  · rw [← hf.selector v hv, ← hq.selector w hw, heq]
  · rw [← hf.var, ← hq.var]
  · have hmem (v : Node) : v ∈ g.nodes.map f ↔ v ∈ h.collect.nodes.map q := by
      simpa only [mem_map, mem_nodes] using himage v
    have hkept := hf.summaries
    simp only [hmem] at hkept
    exact hkept.trans hq.summaries.symm

/-- `f` carries the nodes of `S`, among them all that a variable or an end of a summary refers to,
from `g` to `h` together with their selectors, the variables and the summaries. -/
structure IsTransfer (f : Node → Node) (S : Set Node) (g h : Heap) : Prop where
  null_mem : Node.null ∈ S
  var_mem : ∀ x v, g.var? x = some v → v ∈ S
  selector_mem : ∀ v ∈ S, ∀ sel w, g.selector? v sel = some w → w ∈ S
  ends_mem : ∀ e ∈ g.summaries, ∀ v ∈ e.ends, v ∈ S
  null : f Node.null = Node.null
  lt : ∀ v ∈ S, f v < h.size
  inj : ∀ v ∈ S, ∀ w ∈ S, f v = f w → v = w
  selector : ∀ v ∈ S, ∀ sel, h.selector? (f v) sel = (g.selector? v sel).map f
  var : ∀ x, h.var? x = (g.var? x).map f
  summaries : (g.summaries.map (Summary.map f)).Perm h.summaries

namespace IsTransfer

variable (hf : IsTransfer f S g h)

include hf

theorem mem_of_isLive (hv : g.IsLive v) : v ∈ S := by
  refine hv.induction hf.null_mem hf.var_mem fun v w hv hvw => ?_
  rcases mem_successors_iff.1 hvw with ⟨sel, hsel⟩ | ⟨e, he, -, hw⟩
  · exact hf.selector_mem v hv sel w hsel
  · exact hf.ends_mem e he w (mem_of_mem_tail hw)

theorem exists_leads (hv : v ∈ S) (hvw : h.Leads (f v) w) : ∃ t, g.Leads v t ∧ f t = w := by
  rcases mem_successors_iff.1 hvw with ⟨sel, hsel⟩ | ⟨e', he', hsource, hw⟩
  · rw [hf.selector v hv, Option.map_eq_some_iff] at hsel
    obtain ⟨t, ht, rfl⟩ := hsel
    exact ⟨t, mem_successors_iff.2 (.inl ⟨sel, ht⟩), rfl⟩
  · obtain ⟨e, he, rfl⟩ := mem_map.1 (hf.summaries.mem_iff.2 he')
    rw [Summary.source?_map, Option.map_eq_some_iff] at hsource
    obtain ⟨s, hs, heq⟩ := hsource
    obtain rfl := hf.inj s (hf.ends_mem e he s (mem_of_mem_head? hs)) v hv heq
    rw [Summary.targets, Summary.map, ← map_tail, mem_map] at hw
    obtain ⟨t, ht, rfl⟩ := hw
    exact ⟨t, mem_successors_iff.2 (.inr ⟨e, he, hs, ht⟩), rfl⟩

theorem isPart_comp (hp : IsPart p k g) (hmem : ∀ u < k.size, p u ∈ S) : IsPart (f ∘ p) k h where
  null := (congrArg f hp.null).trans hf.null
  lt u hu := hf.lt _ (hmem u hu)
  inj u hu w hw heq := hp.inj u hu w hw (hf.inj _ (hmem u hu) _ (hmem w hw) heq)
  closed u hu w hw := by
    obtain ⟨t, ht, rfl⟩ := hf.exists_leads (hmem u hu) hw
    obtain ⟨t, hlt, rfl⟩ := hp.closed u hu t ht
    exact ⟨t, hlt, rfl⟩
  selector u hu sel := by
    rw [Function.comp, hf.selector _ (hmem u hu), hp.selector u hu, Option.map_map]
  var x := by rw [hf.var, hp.var, Option.map_map]
  summaries := by
    -- an end is carried to a node of the part only if it is one
    have hends {v} (hv : v ∈ S) : f v ∈ k.nodes.map (f ∘ p) ↔ v ∈ k.nodes.map p := by
      simp only [mem_map, mem_nodes]
      constructor
      · rintro ⟨u, hu, heq⟩
        exact ⟨u, hu, hf.inj _ (hmem u hu) v hv heq⟩
      · rintro ⟨u, hu, rfl⟩
        exact ⟨u, hu, rfl⟩
    have hleft : k.summaries.map (Summary.map (f ∘ p)) =
        (k.summaries.map (Summary.map p)).map (Summary.map f) := by
      rw [List.map_map]
      exact map_congr_left fun e _ => Summary.map_map.symm
    rw [hleft]
    refine (hp.summaries.map _).trans (.trans (.of_eq ?_) (hf.summaries.filter _))
    rw [filter_map]
    refine congrArg _ (filter_congr fun e he => Bool.eq_iff_iff.2 ?_)
    simp only [Function.comp, Summary.map, all_map, all_eq_true, decide_eq_true_eq]
    exact forall₂_congr fun v hv => (hends (hf.ends_mem e he v hv)).symm

theorem isomorphic_collect (hg : g.InRange) (hh : h.InRange) : Isomorphic g.collect h.collect := by
  obtain ⟨p, hp, hlive⟩ := hg.isPart_collect
  have hpart := hf.isPart_comp hp fun u hu => hf.mem_of_isLive ((hlive _).2 ⟨u, hu, rfl⟩)
  exact hpart.isomorphic_collect hg.inRange_collect hg.isTrim_collect hh

end IsTransfer

end Heap

namespace Call

/-- The node under the second renaming for a node under the first; a node that is not renamed stays
as it is. -/
noncomputable def carry (post : Heap) (r₁ r₂ : Node → Node) : Node → Node :=
  glue {v | v < post.size} r₁ r₂ id

section Renamings

variable {h post h₁ h₂ : Heap} {inside : List Node} {r₁ r₂ : Node → Node} {u v w : Node}
  (G₁ : IsGlued h post h₁ inside r₁)

include G₁

theorem carry_of_lt (hv : v < post.size) : carry post r₁ r₂ (r₁ v) = r₂ v :=
  glue_of_mem G₁.inj hv

theorem carry_of_outer (hu : u < h.size) (hin : u ∉ inside) (hne : u ≠ Node.null) :
    carry post r₁ r₂ u = u :=
  glue_of_forall_ne fun _ hv => G₁.ne_of_outer hv hu hin hne

variable (G₂ : IsGlued h post h₂ inside r₂) (hpost : post.InRange)
  (hagree : ∀ u ∈ inside, u ∈ referenced h inside → ∃ v < post.size, r₁ v = u ∧ r₂ v = u)

include G₂ hpost

theorem carry_null : carry post r₁ r₂ Node.null = Node.null := by
  have heq : carry post r₁ r₂ (r₁ Node.null) = r₂ Node.null := carry_of_lt G₁ hpost.pos
  rwa [G₁.null, G₂.null] at heq

include hagree

theorem carry_of_referenced (hu : u < h.size) (href : u ∈ referenced h inside) :
    carry post r₁ r₂ u = u := by
  by_cases hin : u ∈ inside
  · obtain ⟨v, hv, heq, heq'⟩ := hagree u hin href
    rw [← heq, carry_of_lt G₁ hv, heq', heq]
  · by_cases hne : u = Node.null
    · rw [hne, carry_null G₁ G₂ hpost]
    · exact carry_of_outer G₁ hu hin hne

theorem map_carry {o : Option Node} (ho : ∀ w, o = some w → w < h.size ∧ w ∈ referenced h inside) :
    o.map (carry post r₁ r₂) = o := by
  cases o with
  | none => rfl
  | some w =>
    obtain ⟨hw, href⟩ := ho w rfl
    exact congrArg some (carry_of_referenced G₁ G₂ hpost hagree hw href)

theorem map_summaries_carry (hh : h.InRange) :
    (h₁.summaries.map (Summary.map (carry post r₁ r₂))).Perm h₂.summaries := by
  refine ((G₁.summaries.map _).trans (.of_eq ?_)).trans G₂.summaries.symm
  rw [map_append, List.map_map]
  refine congrArg₂ _ ?_ (map_congr_left fun e he => ?_)
  · refine (map_congr_left fun e he => ?_).trans (List.map_id _)
    obtain ⟨he, hout⟩ := mem_filter.1 he
    exact Summary.map_eq_self fun v hv => carry_of_referenced G₁ G₂ hpost hagree
      (hh.ends e he v hv) (mem_referenced_of_summary he (by simpa using hout) hv)
  · refine (Summary.map_map (e := e)).trans (Summary.map_congr fun v hv => ?_)
    exact carry_of_lt G₁ (hpost.ends e he v hv)

/-- Gluing the same result under two renamings gives heaps that differ in their garbage only, if the
renamings agree on the nodes that the caller refers to. -/
theorem IsGlued.isTransfer (hh : h.InRange) : Heap.IsTransfer (carry post r₁ r₂)
    (placed {u | u < h.size} {v | v < post.size} inside r₁) h₁ h₂ := by
  have hinterface : ∀ u ∈ inside, u ∈ referenced h inside → ∃ v < post.size, r₁ v = u := by
    intro u hin href
    obtain ⟨v, hv, heq, -⟩ := hagree u hin href
    exact ⟨v, hv, heq⟩
  constructor
  case null_mem => exact .inr ⟨Node.null, hpost.pos, G₁.null⟩
  case var_mem =>
    intro x v hx
    rw [G₁.var] at hx
    exact G₁.mem_placed_of_referenced hpost hinterface (hh.var x v hx) (mem_referenced_of_var hx)
  case selector_mem =>
    exact fun v hv sel w hw => G₁.mem_placed_of_selector hpost hinterface hh hv hw
  case ends_mem => exact fun e he v hv => G₁.mem_placed_of_mem_ends hpost hinterface hh he hv
  case null => exact carry_null G₁ G₂ hpost
  case lt =>
    rintro u (⟨hu, hin, hu0⟩ | ⟨v, hv, rfl⟩)
    · rw [carry_of_outer G₁ hu hin hu0]
      exact Nat.lt_of_lt_of_le hu G₂.size
    · rw [carry_of_lt G₁ hv]
      exact G₂.lt v hv
  case inj =>
    rintro u (⟨hu, hin, hu0⟩ | ⟨v, hv, rfl⟩) w (⟨hw, hin', hw0⟩ | ⟨t, ht, rfl⟩) heq
    · rwa [carry_of_outer G₁ hu hin hu0, carry_of_outer G₁ hw hin' hw0] at heq
    · rw [carry_of_outer G₁ hu hin hu0, carry_of_lt G₁ ht] at heq
      exact absurd heq.symm (G₂.ne_of_outer ht hu hin hu0)
    · rw [carry_of_lt G₁ hv, carry_of_outer G₁ hw hin' hw0] at heq
      exact absurd heq (G₂.ne_of_outer hv hw hin' hw0)
    · rw [carry_of_lt G₁ hv, carry_of_lt G₁ ht] at heq
      rw [G₂.inj v hv t ht heq]
  case selector =>
    rintro u (⟨hu, hin, hu0⟩ | ⟨v, hv, rfl⟩) sel
    · rw [carry_of_outer G₁ hu hin hu0, G₁.outer u hu hin hu0, G₂.outer u hu hin hu0]
      exact (map_carry G₁ G₂ hpost hagree fun w hw =>
        ⟨hh.selector u sel w hw, mem_referenced_of_selector hin hw⟩).symm
    · rw [carry_of_lt G₁ hv, G₁.selector v hv, G₂.selector v hv, Option.map_map]
      exact Option.map_congr fun t ht => (carry_of_lt G₁ (hpost.selector v sel t ht)).symm
  case var =>
    intro x
    rw [G₁.var, G₂.var]
    exact (map_carry G₁ G₂ hpost hagree fun v hx =>
      ⟨hh.var x v hx, mem_referenced_of_var hx⟩).symm
  case summaries => exact map_summaries_carry G₁ G₂ hpost hagree hh

end Renamings

section Start

variable {h post : Heap} {params : List String} {args : List Node} {q : Node → Node}
  {u w : Node}

theorem var?_keepVars_enter (h : Heap) (args : List Node)
    (hfree : ∀ x ∈ params, isReserved x = false) (x : String) :
    ((enter h params args).1.keepVars isReserved).var? x =
      (interfaceMap (enter h params args).2.interface x).map (calleeNode (fragment h args)) := by
  rw [Heap.var?_keepVars, ← interfaceMap_map]
  by_cases hx : isReserved x
  · have hnone : (callee h (fragment h args) params args).var? x = none := by
      refine Option.eq_none_iff_forall_ne_some.2 fun v hv => ?_
      rw [hfree x (mem_params_of_var?_callee hv)] at hx
      cases hx
    rw [if_pos hx, enter, var?_bindInterface, hnone, Option.or_none]
  · rw [if_neg hx, interfaceMap_eq_none (.inl (by simpa using hx))]

theorem inRange_keepVars_enter (h : Heap) (params : List String) (args : List Node) :
    ((enter h params args).1.keepVars isReserved).InRange := by
  have hstart := inRange_enter h params args
  refine ⟨hstart.pos, hstart.selector, fun x v hx => ?_, hstart.ends⟩
  rw [Heap.var?_keepVars] at hx
  split at hx
  · exact hstart.var x v hx
  · cases hx

theorem not_leads_keepVars_enter :
    ¬((enter h params args).1.keepVars isReserved).Leads Node.null w := by
  intro hw
  rcases Heap.mem_successors_iff.1 hw with ⟨sel, hsel⟩ | ⟨e, he, hsource, -⟩
  · rw [Heap.selector?_keepVars, enter, selector?_bindInterface] at hsel
    cases hsel
  · rw [Heap.summaries_keepVars, enter, summaries_bindInterface] at he
    obtain ⟨e', he', rfl⟩ := mem_map.1 he
    rw [← Summary.map, Summary.source?_map] at hsource
    obtain ⟨a, ha, hnull⟩ := Option.map_eq_some_iff.1 hsource
    have hin : a ∈ fragment h args := by simpa [startsIn, ha] using (mem_filter.1 he').2
    exact calleeNode_ne_null hin hnull

section Renumbered

variable (hq : Heap.IsRenumbering q post ((enter h params args).1.keepVars isReserved))

include hq

theorem exists_var?_interfaceVar (hfree : ∀ x ∈ params, isReserved x = false) {i : Nat}
    (hi : (enter h params args).2.interface[i]? = some u) :
    ∃ v, post.var? (interfaceVar i) = some v ∧ q v = calleeNode (fragment h args) u := by
  have hvar := hq.var (interfaceVar i)
  rw [var?_keepVars_enter h args hfree, interfaceMap_eq_some_iff.2 ⟨i, rfl, hi⟩] at hvar
  exact Option.map_eq_some_iff.1 hvar.symm

theorem isMarked_of_isRenumbering (hh : h.InRange) (hfree : ∀ x ∈ params, isReserved x = false) :
    IsMarked post (enter h params args).2.interface.length := by
  have hin {u} (hu : u ∈ (enter h params args).2.interface) : u ∈ fragment h args :=
    (mem_interfaceNodes_iff.1 hu).1
  constructor
  case bound =>
    intro i hi
    obtain ⟨v, hv, heq⟩ := exists_var?_interfaceVar hq hfree (getElem?_eq_getElem hi)
    refine ⟨v, hv, ?_⟩
    rintro rfl
    exact calleeNode_ne_null (hin (getElem_mem hi)) (heq.symm.trans hq.null)
  case distinct =>
    intro i hi j hj hij
    obtain ⟨v, hv, heq⟩ := exists_var?_interfaceVar hq hfree (getElem?_eq_getElem hi)
    obtain ⟨w, hw, heq'⟩ := exists_var?_interfaceVar hq hfree (getElem?_eq_getElem hj)
    obtain rfl : v = w := Option.some.inj (hv.symm.trans (hij.trans hw))
    have hnode := (isFragment_fragment hh args).calleeNode_inj (.inr (hin (getElem_mem hi)))
      (.inr (hin (getElem_mem hj))) (heq.symm.trans heq')
    exact (nodup_interface h params args).getElem_inj_iff.1 hnode
  case only =>
    intro x hx _
    obtain ⟨v, hv⟩ := Option.isSome_iff_exists.1 hx
    have hvar := hq.var x
    rw [var?_keepVars_enter h args hfree, hv, Option.map_some, Option.map_eq_some_iff] at hvar
    obtain ⟨u, hu, -⟩ := hvar
    obtain ⟨i, rfl, hi⟩ := interfaceMap_eq_some_iff.1 hu
    exact ⟨i, (List.getElem?_eq_some_iff.1 hi).1, rfl⟩

theorem isGlued_self (hh : h.InRange) (hnull : ∀ w, ¬h.Leads Node.null w) :
    IsGlued h post h (fragment h args) (nodeAt (Node.null :: fragment h args) ∘ q) := by
  have hfrag := isFragment_fragment hh args
  have hsize :
      ((enter h params args).1.keepVars isReserved).size = (fragment h args).length + 1 := by
    rw [Heap.size_keepVars, enter, size_bindInterface, size_callee]
  have hlt {v} (hv : v < post.size) : q v < (Node.null :: fragment h args).length := by
    simpa [hsize] using hq.lt v hv
  have hmem {v} (hv : v < post.size) :
      nodeAt (Node.null :: fragment h args) (q v) ∈ Node.null :: fragment h args :=
    nodeAt_mem (hlt hv)
  have hinj : ∀ v < post.size, ∀ w < post.size, nodeAt (Node.null :: fragment h args) (q v) =
      nodeAt (Node.null :: fragment h args) (q w) → v = w := fun v hv w hw heq =>
    hq.inj v hv w hw (nodeAt_inj (nodup_cons.2 ⟨hfrag.null_not_mem, hfrag.nodup⟩) (hlt hv)
      (hlt hw) heq)
  have hnode : nodeAt (Node.null :: fragment h args) (q Node.null) = Node.null := by
    rw [hq.null]
    rfl
  constructor
  case size => exact Nat.le_refl _
  case lt =>
    intro v hv
    rcases mem_cons.1 (hmem hv) with heq | hin
    · rw [Function.comp, heq]
      exact hh.pos
    · exact hfrag.lt _ hin
  case null => exact hnode
  case inj => exact hinj
  case image =>
    intro v hv hne
    refine .inl ((mem_cons.1 (hmem hv)).resolve_left fun heq => hne ?_)
    exact hinj v hv _ (Nat.zero_lt_of_lt hv) (heq.trans hnode.symm)
  case outer => exact fun _ _ _ _ _ => rfl
  case selector =>
    intro v hv sel
    have hi : q v < (callee h (fragment h args) params args).size := by simpa using hlt hv
    have hsel := hq.selector v hv sel
    rw [Heap.selector?_keepVars, enter, selector?_bindInterface] at hsel
    rw [Function.comp, hfrag.selector?_nodeAt hnull hi, hsel, Option.map_map]
  case bare =>
    rintro u (hin | hle) hu sel
    · obtain ⟨v, hv, heq⟩ := hq.surj (w := calleeNode (fragment h args) u) (by
        rw [hsize]
        exact calleeNode_lt)
      refine absurd ?_ (hu v hv)
      rw [Function.comp, heq, hfrag.nodeAt_calleeNode (.inr hin)]
    · refine Option.eq_none_iff_forall_ne_some.2 fun w hw => ?_
      exact Nat.not_lt.2 hle (Heap.lt_size_of_selector? hw)
  case var => exact fun _ => rfl
  case summaries =>
    have hsum := hq.summaries.map (Summary.map (nodeAt (Node.null :: fragment h args)))
    rw [Heap.summaries_keepVars, enter, summaries_bindInterface, hfrag.map_summaries_callee,
      List.map_map] at hsum
    have hsplit := (filter_append_perm (startsIn (fragment h args)) h.summaries).symm
    refine hsplit.trans (perm_append_comm.trans (hsum.symm.append_left _)) |>.trans (.of_eq ?_)
    exact congrArg _ (map_congr_left fun e _ => Summary.map_map)

end Renumbered

end Start

/-- If a callee leaves the heap that it started with, without its own variables and up to the
numbers of the nodes, the caller has its old heap again, up to garbage and the numbers of the
nodes. -/
theorem isomorphic_resume_collect {h post : Heap} (hh : h.InRange)
    (hnull : ∀ w, ¬h.Leads Node.null w) {params : List String}
    (hfree : ∀ x ∈ params, isReserved x = false) (args : List Node)
    (hpost : Heap.Isomorphic ((enter h params args).1.keepVars isReserved) post) :
    Heap.Isomorphic ((enter h params args).2.resume post none) h.collect := by
  have hstart := inRange_keepVars_enter h params args
  have hfrag := isFragment_fragment hh args
  have hrange := hpost.inRange hstart
  obtain ⟨q, hq⟩ := hpost.symm hstart
  have hmarked := isMarked_of_isRenumbering hq hh hfree
  have hnull' : ∀ w, ¬post.Leads Node.null w := fun w hw =>
    not_leads_keepVars_enter (hq.null ▸ (hq.isPart hstart).leads hw)
  refine ((hmarked.isGlued hh hnull hrange hnull').isTransfer (isGlued_self hq hh hnull) hrange
    (fun u hu href => ?_) hh).isomorphic_collect ((inRange_frame hh params args).glued hrange) hh
  -- both renamings carry the node that an interface variable names to the interface node
  have hmem : u ∈ (enter h params args).2.interface := mem_interfaceNodes_iff.2 ⟨hu, href⟩
  obtain ⟨i, hi⟩ := getElem?_of_mem hmem
  obtain ⟨v, hv, heq⟩ := hmarked.callerNode_interface hi
  obtain ⟨v', hv', hqv⟩ := exists_var?_interfaceVar hq hfree hi
  obtain rfl : v = v' := Option.some.inj (hv.symm.trans hv')
  refine ⟨v, hrange.var _ v hv, heq, ?_⟩
  rw [Function.comp, hqv, hfrag.nodeAt_calleeNode (.inr hu)]

/-- A list of two cells and a segment, to whose first node a cell outside refers. The last node is
garbage. -/
def sharedSegment : Heap :=
  ⟨[∅, .ofList [("next", 2)], .ofList [("next", 3)], ∅, .ofList [("next", 3)],
    .ofList [("next", 4)]], .ofList [("x", 1), ("y", 4)], [⟨"SLL", [3, 0]⟩]⟩

/-- The list under other numbers, with its interface. -/
def markedSegment : Heap :=
  ⟨[∅, .ofList [("next", 2)], ∅, .ofList [("next", 1)]], .ofList [("@ext0", 3), ("@ext1", 2)],
    [⟨"SLL", [2, 0]⟩]⟩

/-- The node of the list under other numbers. -/
def markedNode (v : Node) : Node :=
  [0, 3, 1, 2].getD v Node.null

theorem isomorphic_resume_collect_sharedSegment : sharedSegment.InRange ∧
    (∀ w, ¬sharedSegment.Leads Node.null w) ∧ (∀ x ∈ ["p"], isReserved x = false) ∧
    Heap.IsRenumbering markedNode ((enter sharedSegment ["p"] [1]).1.keepVars isReserved)
      markedSegment ∧
    ((enter sharedSegment ["p"] [1]).2.resume markedSegment none).size = 5 ∧
    Heap.Isomorphic ((enter sharedSegment ["p"] [1]).2.resume markedSegment none)
      sharedSegment.collect := by
  have hh : sharedSegment.InRange := by decide +kernel
  have hnull : ∀ w, ¬sharedSegment.Leads Node.null w :=
    eq_nil_iff_forall_not_mem.1 (by decide +kernel)
  have hfree : ∀ x ∈ ["p"], isReserved x = false := by decide +kernel
  have hcells : ∀ v < 4, markedSegment.cell (markedNode v) =
      ((enter sharedSegment ["p"] [1]).1.cell v).filterMap fun t => some (markedNode t) := by
    decide +kernel
  have hpost : Heap.IsRenumbering markedNode ((enter sharedSegment ["p"] [1]).1.keepVars isReserved)
      markedSegment :=
    ⟨by decide +kernel, rfl, by decide +kernel, by decide +kernel,
      fun v hv => Heap.selector?_eq_map_of_cell_eq (hcells v hv),
      Heap.var?_eq_map_of_vars_eq (by decide +kernel), by decide +kernel⟩
  exact ⟨hh, hnull, hfree, hpost, by decide +kernel,
    isomorphic_resume_collect hh hnull hfree [1] ⟨_, hpost⟩⟩

end Call

end ShapeCheck
