import ShapeCheck.Proofs.Containment

/-!
# What a call leaves to its caller

After a call the caller's heap consists of its own nodes outside the fragment and of the nodes of
the result; the interface nodes are among the latter. Seen through the numbering that garbage
collection gives, a node outside has the selectors and summaries that it had, a node of the result
has those of the result, and variables name the nodes that they named, apart from the one that
receives the returned value.
-/

namespace ShapeCheck

open List

namespace Heap

variable {f p q r : Node → Node} {g h k : Heap} {u v w : Node}

/-- The node `u` of `g` and the node `v` of `h` have the same selectors, and the same summaries
start at them, when `p` and `q` say which nodes of the two heaps are the same. -/
structure SameSteps (p : Node → Node) (g : Heap) (u : Node) (q : Node → Node) (h : Heap)
    (v : Node) : Prop where
  selector : ∀ sel, (g.selector? u sel).map p = (h.selector? v sel).map q
  summaries : ((g.summaries.filter (·.source? = some u)).map (Summary.map p)).Perm
    ((h.summaries.filter (·.source? = some v)).map (Summary.map q))

theorem SameSteps.trans (huv : SameSteps p g u q h v) (hvw : SameSteps q h v r k w) :
    SameSteps p g u r k w :=
  ⟨fun sel => (huv.selector sel).trans (hvw.selector sel), huv.summaries.trans hvw.summaries⟩

theorem IsPart.sameSteps (hf : IsPart f g h) (hg : g.InRange) (hv : v < g.size) :
    SameSteps f g v id h (f v) where
  selector sel := by rw [← hf.selector v hv, Option.map_id_fun, id_eq]
  summaries := by
    rw [Summary.map_id, List.map_id]
    exact hf.filter_source?_perm hg hv

end Heap

namespace Call

namespace IsGlued

variable {h post h₁ : Heap} {inside : List Node} {r : Node → Node} {u v w : Node}

section Steps

variable (G : IsGlued h post h₁ inside r)

include G

theorem filter_source?_perm : (h₁.summaries.filter (·.source? = some u)).Perm
    ((h.summaries.filter (!startsIn inside ·)).filter (·.source? = some u) ++
      (post.summaries.map (Summary.map r)).filter (·.source? = some u)) :=
  (G.summaries.filter _).trans (.of_eq (filter_append ..))

/-- Outside, a node keeps its selectors and its summaries. For null this asks that no summary of the
result starts there. -/
theorem sameSteps_outer (hpost : post.InRange) (hnull : ∀ w, ¬h.Leads Node.null w)
    (hnull' : ∀ w, ¬post.Leads Node.null w) (hu : u < h.size) (hin : u ∉ inside)
    (hbare : u = Node.null → ∀ e ∈ post.summaries, e.source? ≠ some Node.null) :
    Heap.SameSteps id h₁ u id h u where
  selector sel := by
    by_cases hne : u = Node.null
    · have hsel := G.selector Node.null hpost.pos sel
      rw [G.null, Heap.selector?_eq_none_of_not_leads hnull', Option.map_none] at hsel
      rw [hne, hsel, Heap.selector?_eq_none_of_not_leads hnull]
    · rw [G.outer u hu hin hne]
  summaries := by
    rw [Summary.map_id, List.map_id, List.map_id]
    refine G.filter_source?_perm.trans (.of_eq ?_)
    have hsecond : (post.summaries.map (Summary.map r)).filter (·.source? = some u) = [] := by
      refine filter_eq_nil_iff.2 fun e' he' hsource => ?_
      obtain ⟨e, he, rfl⟩ := mem_map.1 he'
      have hsource := of_decide_eq_true hsource
      rw [Summary.source?_map, Option.map_eq_some_iff] at hsource
      obtain ⟨s, hs, rfl⟩ := hsource
      have hlt := hpost.ends e he s (mem_of_mem_head? hs)
      by_cases hne : r s = Node.null
      · have hnull := G.inj s hlt Node.null hpost.pos (hne.trans G.null.symm)
        exact hbare hne e he (hnull ▸ hs)
      · exact G.ne_of_outer hlt hu hin hne rfl
    rw [hsecond, append_nil, filter_filter]
    refine filter_congr fun e _ => Bool.and_eq_left_iff_imp.2 fun hsource => ?_
    simpa [startsIn, of_decide_eq_true hsource] using hin

theorem sameSteps_inner (hh : h.InRange) (hpost : post.InRange) (hv : v < post.size)
    (hne : v ≠ Node.null) : Heap.SameSteps id h₁ (r v) r post v where
  selector sel := by rw [G.selector v hv, Option.map_id_fun, id_eq]
  summaries := by
    rw [Summary.map_id, List.map_id]
    refine G.filter_source?_perm.trans (.of_eq ?_)
    have hfirst :
        (h.summaries.filter (!startsIn inside ·)).filter (·.source? = some (r v)) = [] := by
      refine filter_eq_nil_iff.2 fun e he hsource => ?_
      obtain ⟨he, hout⟩ := mem_filter.1 he
      have hsource := of_decide_eq_true hsource
      rcases G.image v hv hne with hmem | hle
      · simp [startsIn, hsource, hmem] at hout
      · exact Nat.not_lt.2 hle (hh.ends e he _ (mem_of_mem_head? hsource))
    rw [hfirst, nil_append]
    exact Summary.filter_source?_map fun e he w hw => G.inj w (hpost.ends e he w hw) v hv

end Steps

section Members

variable (G : IsGlued h post h₁ inside r) (hpost : post.InRange)
  (hinterface : ∀ u ∈ inside, u ∈ referenced h inside → ∃ v < post.size, r v = u)

include G hpost hinterface

theorem mem_placed_of_referenced (hu : u < h.size) (href : u ∈ referenced h inside) :
    u ∈ placed {u | u < h.size} {v | v < post.size} inside r := by
  by_cases hin : u ∈ inside
  · exact .inr (hinterface u hin href)
  · by_cases hne : u = Node.null
    · exact .inr ⟨Node.null, hpost.pos, hne ▸ G.null⟩
    · exact .inl ⟨hu, hin, hne⟩

theorem mem_placed_of_selector (hh : h.InRange)
    (hu : u ∈ placed {u | u < h.size} {v | v < post.size} inside r) {sel : String}
    (hsel : h₁.selector? u sel = some w) :
    w ∈ placed {u | u < h.size} {v | v < post.size} inside r := by
  rcases hu with ⟨hlt, hin, hne⟩ | ⟨v, hv, rfl⟩
  · rw [G.outer u hlt hin hne] at hsel
    exact G.mem_placed_of_referenced hpost hinterface (hh.selector u sel w hsel)
      (mem_referenced_of_selector hin hsel)
  · rw [G.selector v hv, Option.map_eq_some_iff] at hsel
    obtain ⟨t, ht, rfl⟩ := hsel
    exact .inr ⟨t, hpost.selector v sel t ht, rfl⟩

theorem mem_placed_of_mem_ends (hh : h.InRange) {e : Summary} (he : e ∈ h₁.summaries)
    (hw : w ∈ e.ends) : w ∈ placed {u | u < h.size} {v | v < post.size} inside r := by
  rcases mem_append.1 (G.summaries.mem_iff.1 he) with hold | hnew
  · obtain ⟨hold, hout⟩ := mem_filter.1 hold
    exact G.mem_placed_of_referenced hpost hinterface (hh.ends e hold w hw)
      (mem_referenced_of_summary hold (by simpa using hout) hw)
  · obtain ⟨e', he', rfl⟩ := mem_map.1 hnew
    obtain ⟨t, ht, rfl⟩ := mem_map.1 hw
    exact .inr ⟨t, hpost.ends e' he' t ht, rfl⟩

theorem mem_placed_of_leads (hh : h.InRange)
    (hu : u ∈ placed {u | u < h.size} {v | v < post.size} inside r) (huw : h₁.Leads u w) :
    w ∈ placed {u | u < h.size} {v | v < post.size} inside r := by
  rcases Heap.mem_successors_iff.1 huw with ⟨sel, hsel⟩ | ⟨e, he, -, hw⟩
  · exact G.mem_placed_of_selector hpost hinterface hh hu hsel
  · exact G.mem_placed_of_mem_ends hpost hinterface hh he (mem_of_mem_tail hw)

end Members

end IsGlued

/-- The first `k` interface variables name different nodes other than null, and no other variable
has a name that begins like theirs. -/
structure IsMarked (post : Heap) (k : Nat) : Prop where
  bound : ∀ i < k, ∃ v, post.var? (interfaceVar i) = some v ∧ v ≠ Node.null
  distinct : ∀ i < k, ∀ j < k, post.var? (interfaceVar i) = post.var? (interfaceVar j) → i = j
  only : ∀ x, (post.var? x).isSome → interfaceStem.isPrefixOf x.toList → ∃ i < k, x = interfaceVar i

section Marked

variable {frame : Frame} {post : Heap} {u v : Node}

theorem IsMarked.mem_named_iff (hmarked : IsMarked post frame.interface.length) :
    (v, u) ∈ frame.named post ↔
      ∃ i, post.var? (interfaceVar i) = some v ∧ frame.interface[i]? = some u := by
  rw [Frame.mem_named_iff]
  constructor
  · rintro ⟨x, i, hx, hi, hu⟩
    have hstem : interfaceStem.isPrefixOf x.toList := by
      rw [interfaceIndex?] at hi
      split at hi
      · assumption
      · cases hi
    obtain ⟨j, -, rfl⟩ := hmarked.only x (by rw [hx]; rfl) hstem
    obtain rfl : j = i := Option.some.inj ((interfaceIndex?_interfaceVar j).symm.trans hi)
    exact ⟨j, hx, hu⟩
  · rintro ⟨i, hv, hu⟩
    exact ⟨_, i, hv, interfaceIndex?_interfaceVar i, hu⟩

/-- The interface variables relate nodes of the result and nodes of the caller one to one. -/
theorem IsMarked.isNaming (hmarked : IsMarked post frame.interface.length)
    (hnodup : frame.interface.Nodup) : IsNaming (frame.named post) frame.interface := by
  have hlt {i u} (hi : frame.interface[i]? = some u) : i < frame.interface.length :=
    (List.getElem?_eq_some_iff.1 hi).1
  constructor
  case left_unique =>
    intro v w u hv hw
    obtain ⟨i, hv, hi⟩ := hmarked.mem_named_iff.1 hv
    obtain ⟨j, hw, hj⟩ := hmarked.mem_named_iff.1 hw
    obtain rfl := (getElem?_inj (hlt hi) hnodup).1 (hi.trans hj.symm)
    exact Option.some.inj (hv.symm.trans hw)
  case right_unique =>
    intro v u u' hu hu'
    obtain ⟨i, hv, hi⟩ := hmarked.mem_named_iff.1 hu
    obtain ⟨j, hv', hj⟩ := hmarked.mem_named_iff.1 hu'
    obtain rfl := hmarked.distinct i (hlt hi) j (hlt hj) (hv.trans hv'.symm)
    exact Option.some.inj (hi.symm.trans hj)
  case ne_null =>
    intro v u hu
    obtain ⟨i, hv, hi⟩ := hmarked.mem_named_iff.1 hu
    obtain ⟨v', hv', hne⟩ := hmarked.bound i (hlt hi)
    exact Option.some.inj (hv'.symm.trans hv) ▸ hne
  case mem =>
    intro v u hu
    obtain ⟨i, -, hi⟩ := hmarked.mem_named_iff.1 hu
    exact mem_of_getElem? hi

theorem IsNaming.mono {pairs : List (Node × Node)} {inside inside' : List Node}
    (hN : IsNaming pairs inside) (hsub : ∀ u ∈ inside, u ∈ inside') : IsNaming pairs inside' :=
  ⟨hN.left_unique, hN.right_unique, hN.ne_null, fun v u hu => hsub u (hN.mem v u hu)⟩

end Marked

theorem nodup_interface (h : Heap) (params : List String) (args : List Node) :
    (enter h params args).2.interface.Nodup :=
  (sortBy_perm _ _).nodup_iff.2 ((nodup_range.filter _).filter _)

section Enter

variable {h post : Heap} {params : List String} {args : List Node} {u v : Node}
  (hmarked : IsMarked post (enter h params args).2.interface.length)

include hmarked

theorem IsMarked.callerNode_interface {i : Nat}
    (hi : (enter h params args).2.interface[i]? = some u) : ∃ v,
      post.var? (interfaceVar i) = some v ∧ (enter h params args).2.callerNode post v = u := by
  obtain ⟨v, hv, -⟩ := hmarked.bound i (List.getElem?_eq_some_iff.1 hi).1
  have hnaming := hmarked.isNaming (nodup_interface h params args)
  exact ⟨v, hv, Frame.callerNode_of_mem hnaming (hmarked.mem_named_iff.2 ⟨i, hv, hi⟩)⟩

theorem IsMarked.exists_callerNode_eq (hpost : post.InRange) : ∀ u ∈ fragment h args,
    u ∈ referenced h (fragment h args) →
      ∃ v < post.size, (enter h params args).2.callerNode post v = u := by
  intro u hu href
  have hmem : u ∈ (enter h params args).2.interface := mem_interfaceNodes_iff.2 ⟨hu, href⟩
  obtain ⟨i, hi⟩ := getElem?_of_mem hmem
  obtain ⟨v, hv, heq⟩ := hmarked.callerNode_interface hi
  exact ⟨v, hpost.var _ v hv, heq⟩

theorem IsMarked.isGlued (hh : h.InRange) (hnull : ∀ w, ¬h.Leads Node.null w) (hpost : post.InRange)
    (hnull' : ∀ w, ¬post.Leads Node.null w) :
    IsGlued h post ((enter h params args).2.glued post) (fragment h args)
      ((enter h params args).2.callerNode post) :=
  isGlued_glued (isFragment_fragment hh args) hh hpost hnull hnull' rfl
    ((hmarked.isNaming (nodup_interface h params args)).mono fun _ hu =>
      (mem_interfaceNodes_iff.1 hu).1)

end Enter

section Assigned

variable {frame : Frame} {post : Heap} {result? : Option String} {u w : Node} {x : String}

theorem sameSteps_assigned :
    Heap.SameSteps id (frame.assigned post result?) u id (frame.glued post) u := by
  cases result? <;> exact ⟨fun _ => rfl, .refl _⟩

theorem leads_assigned_iff :
    (frame.assigned post result?).Leads u w ↔ (frame.glued post).Leads u w := by
  cases result? <;> exact Iff.rfl

theorem var?_assigned_of_ne (hx : result? ≠ some x) :
    (frame.assigned post result?).var? x = (frame.glued post).var? x := by
  cases result? with
  | none => rfl
  | some y => exact Heap.var?_setVar.trans (if_neg fun hxy => hx (congrArg some hxy.symm))

theorem var?_assigned_self : (frame.assigned post (some x)).var? x =
    some (((post.var? returnVar).map (frame.callerNode post)).getD Node.null) :=
  Heap.var?_setVar.trans (if_pos rfl)

theorem mem_placed_of_isLive_assigned {h : Heap} {inside : List Node}
    (G : IsGlued h post (frame.glued post) inside (frame.callerNode post)) (hh : h.InRange)
    (hpost : post.InRange) (hinterface : ∀ u ∈ inside, u ∈ referenced h inside →
      ∃ v < post.size, frame.callerNode post v = u)
    (hu : (frame.assigned post result?).IsLive u) :
    u ∈ IsGlued.placed {u | u < h.size} {v | v < post.size} inside (frame.callerNode post) := by
  have hrenamed {v} (hv : v < post.size) : frame.callerNode post v ∈
      IsGlued.placed {u | u < h.size} {v | v < post.size} inside (frame.callerNode post) :=
    .inr ⟨v, hv, rfl⟩
  have hnull : Node.null ∈
      IsGlued.placed {u | u < h.size} {v | v < post.size} inside (frame.callerNode post) :=
    .inr ⟨Node.null, hpost.pos, G.null⟩
  refine hu.induction hnull (fun x v hx => ?_) fun u w hu huw =>
    G.mem_placed_of_leads hpost hinterface hh hu (leads_assigned_iff.1 huw)
  by_cases hres : result? = some x
  · rw [hres, var?_assigned_self, Option.some.injEq] at hx
    subst hx
    cases hret : post.var? returnVar with
    | none => exact hnull
    | some t => exact hrenamed (hpost.var _ t hret)
  · rw [var?_assigned_of_ne hres, G.var] at hx
    exact G.mem_placed_of_referenced hpost hinterface (hh.var x v hx) (mem_referenced_of_var hx)

end Assigned

/-- The heap `after` is the caller's heap `h` after a call with the fragment `inside` and the
interface `border`, for which the callee left `post`. A node `u` of it is the node `keep u` of the
caller, and a node `v` of the result is the node `rename v`; nodes from `h.size` on are new. -/
structure IsResumed (h : Heap) (inside border : List Node) (post : Heap) (result? : Option String)
    (after : Heap) (keep rename : Node → Node) : Prop where
  inRange : after.InRange
  keep_null : keep Node.null = Node.null
  keep_inj : ∀ u < after.size, ∀ w < after.size, keep u = keep w → u = w
  rename_null : rename Node.null = Node.null
  rename_inj : ∀ v < post.size, ∀ w < post.size, rename v = rename w → v = w
  /-- An interface node is the node that its variable names in the result. -/
  interface : ∀ i u, border[i]? = some u → (post.var? (interfaceVar i)).map rename = some u
  /-- All other nodes of the result are new. -/
  fresh : ∀ v < post.size, v ≠ Node.null → rename v ∈ border ∨ h.size ≤ rename v
  /-- Every node is a node of the caller outside the fragment or a node of the result. -/
  origin : ∀ u < after.size,
    keep u < h.size ∧ keep u ∉ inside ∨ ∃ v < post.size, keep u = rename v
  /-- The variables are those of the caller, and name what they named. -/
  var : ∀ x, result? ≠ some x → (after.var? x).map keep = h.var? x
  result : ∀ x, result? = some x →
    (after.var? x).map keep = some (((post.var? returnVar).map rename).getD Node.null)
  /-- A node outside the fragment has its own selectors and summaries; and so has null, unless a
  summary of the result starts there. -/
  outer : ∀ u < after.size, keep u < h.size → keep u ∉ inside →
    (keep u = Node.null → ∀ e ∈ post.summaries, e.source? ≠ some Node.null) →
      Heap.SameSteps keep after u id h (keep u)
  /-- A node of the result has the selectors and summaries of the result. -/
  inner : ∀ u < after.size, ∀ v < post.size, v ≠ Node.null → keep u = rename v →
    Heap.SameSteps keep after u rename post v

/-- What a call leaves to its caller. The returned value goes to a variable, all other variables
name the nodes that they named; nodes outside the fragment have their own selectors and summaries,
and the nodes of the result, interface nodes among them, have those of the result. -/
theorem exists_isResumed {h post : Heap} (hh : h.InRange) (hnull : ∀ w, ¬h.Leads Node.null w)
    (params : List String) (args : List Node) (hpost : post.InRange)
    (hnull' : ∀ w, ¬post.Leads Node.null w)
    (hmarked : IsMarked post (enter h params args).2.interface.length) (result? : Option String) :
    ∃ keep rename, IsResumed h (fragment h args) (enter h params args).2.interface post result?
      ((enter h params args).2.resume post result?) keep rename := by
  have hframe := inRange_frame hh params args
  have hrange := hframe.assigned hpost result?
  have hnaming := hmarked.isNaming (nodup_interface h params args)
  have G := hmarked.isGlued hh hnull hpost hnull'
  obtain ⟨keep, hkeep, hlive⟩ := hrange.isPart_collect
  refine ⟨keep, (enter h params args).2.callerNode post, ?_⟩
  constructor
  case inRange => exact hrange.inRange_collect
  case keep_null => exact hkeep.null
  case keep_inj => exact hkeep.inj
  case rename_null => exact G.null
  case rename_inj => exact G.inj
  case interface =>
    intro i u hi
    obtain ⟨v, hv, rfl⟩ := hmarked.callerNode_interface hi
    rw [hv, Option.map_some]
  case fresh =>
    intro v hv hne
    have hmem := Frame.callerNode_mem hnaming hv hne
    rw [(isPruning_outer h params args).size] at hmem
    exact hmem.imp_right And.left
  case origin =>
    intro u hu
    have hmem := mem_placed_of_isLive_assigned G hh hpost (hmarked.exists_callerNode_eq hpost)
      ((hlive _).2 ⟨u, hu, rfl⟩)
    rcases hmem with ⟨hlt, hin, -⟩ | ⟨v, hv, heq⟩
    · exact .inl ⟨hlt, hin⟩
    · exact .inr ⟨v, hv, heq.symm⟩
  case var =>
    intro x hx
    exact (hkeep.var x).symm.trans ((var?_assigned_of_ne hx).trans (G.var x))
  case result =>
    rintro x rfl
    exact (hkeep.var x).symm.trans var?_assigned_self
  case outer =>
    intro u hu hlt hin hbare
    exact ((hkeep.sameSteps hrange.inRange_collect hu).trans sameSteps_assigned).trans
      (G.sameSteps_outer hpost hnull hnull' hlt hin hbare)
  case inner =>
    intro u hu v hv hne heq
    have hsteps := (hkeep.sameSteps hrange.inRange_collect hu).trans sameSteps_assigned
    exact hsteps.trans (heq ▸ G.sameSteps_inner hh hpost hv hne)

/-- A list of two cells and a segment. A cell outside refers to its first and second node, and a
tree to its last one. -/
def sharedList : Heap :=
  ⟨[∅, .ofList [("next", 2)], ∅, .ofList [("next", 0)], .ofList [("left", 1), ("next", 2)]],
    .ofList [("x", 1), ("y", 4)], [⟨"SLL", [2, 3]⟩, ⟨"Tree", [4, 3, 0]⟩]⟩

/-- The list was reversed behind a new first cell, which is returned. -/
def reversedList : Heap :=
  ⟨[∅, .ofList [("next", 0)], .ofList [("next", 1)], ∅, .ofList [("next", 3)]],
    .ofList [("@ext0", 1), ("@ext1", 2), ("@ext2", 3), ("@return", 4), ("p", 3)], [⟨"SLL", [3, 2]⟩]⟩

theorem exists_isResumed_sharedList : sharedList.InRange ∧
    (∀ w, ¬sharedList.Leads Node.null w) ∧ reversedList.InRange ∧
    (∀ w, ¬reversedList.Leads Node.null w) ∧
    (enter sharedList ["p"] [1]).2.interface = [1, 2, 3] ∧ IsMarked reversedList 3 ∧
    ∃ keep rename, IsResumed sharedList (fragment sharedList [1]) [1, 2, 3] reversedList (some "x")
      ((enter sharedList ["p"] [1]).2.resume reversedList (some "x")) keep rename := by
  have hh : sharedList.InRange := by decide +kernel
  have hpost : reversedList.InRange := by decide +kernel
  have hnull : ∀ w, ¬sharedList.Leads Node.null w :=
    eq_nil_iff_forall_not_mem.1 (by decide +kernel)
  have hnull' : ∀ w, ¬reversedList.Leads Node.null w :=
    eq_nil_iff_forall_not_mem.1 (by decide +kernel)
  have hborder : (enter sharedList ["p"] [1]).2.interface = [1, 2, 3] := by decide +kernel
  have hvars : ∀ q ∈ reversedList.vars.toList, interfaceStem.isPrefixOf q.1.toList →
      ∃ i < 3, q.1 = interfaceVar i := by decide +kernel
  have hmarked : IsMarked reversedList 3 := by
    refine ⟨fun i hi => ?_, by decide +kernel, fun x hx hstem => ?_⟩
    · have hbound : ∀ i < 3, reversedList.var? (interfaceVar i) = some (i + 1) := by decide +kernel
      exact ⟨i + 1, hbound i hi, Nat.succ_ne_zero i⟩
    · obtain ⟨v, hv⟩ := Option.isSome_iff_exists.1 hx
      exact hvars (x, v) (SortedMap.mem_toList_iff.2 hv) hstem
  refine ⟨hh, hnull, hpost, hnull', hborder, hmarked, ?_⟩
  have hresumed := exists_isResumed hh hnull ["p"] [1] hpost hnull' (hborder ▸ hmarked) (some "x")
  rwa [hborder] at hresumed

end Call

end ShapeCheck
