import ShapeCheck.Proofs.Containment
import ShapeCheck.Proofs.Confluence

/-!
# The heap of a callee does not depend on its caller

What a callee sees is the fragment that its arguments reach, with marks on the nodes that the caller
refers to from elsewhere. Two calls whose fragments correspond, arguments and marks included, start
the callee with the same heap up to the numbers of the nodes, whatever else the two callers have and
however they number their nodes. The numbers of the interface variables agree too: they come from
the canonical order of the fragment, which a renumbering carries along.
-/

namespace ShapeCheck

open List

namespace Heap

variable {f : Node → Node} {g h : Heap} {v : Node}

theorem selector?_eq_map_of_cell_eq
    (hcell : h.cell (f v) = (g.cell v).filterMap fun t => some (f t)) (sel : String) :
    h.selector? (f v) sel = (g.selector? v sel).map f := by
  rw [selector?, hcell, SortedMap.find?_filterMap, selector?, Option.map_eq_bind]
  rfl

theorem var?_eq_map_of_vars_eq (hvars : h.vars = g.vars.filterMap fun t => some (f t))
    (x : String) : h.var? x = (g.var? x).map f := by
  rw [var?, hvars, SortedMap.find?_filterMap, var?, Option.map_eq_bind]
  rfl

theorem IsRenumbering.bindInterface (hf : IsRenumbering f g h) (nodes : List Node) :
    IsRenumbering f (Call.bindInterface g nodes) (Call.bindInterface h (nodes.map f)) where
  size := by simpa using hf.size
  null := hf.null
  lt v hv := by simpa using hf.lt v (by simpa using hv)
  inj v hv w hw := hf.inj v (by simpa using hv) w (by simpa using hw)
  selector v hv sel := by simpa using hf.selector v (by simpa using hv) sel
  var x := by
    rw [Call.var?_bindInterface, Call.var?_bindInterface, Call.interfaceMap_map, hf.var]
    cases Call.interfaceMap nodes x <;> rfl
  summaries := by simpa using hf.summaries

end Heap

namespace Call

variable {h : Heap} {args inside : List Node} {params : List String} {u v w : Node} {sel : String}

theorem calleeNode_of_not_mem (hv : v ∉ inside) : calleeNode inside v = Node.null := by
  rw [calleeNode_eq, if_neg hv]

theorem calleeNode_ne_null (hv : v ∈ inside) : calleeNode inside v ≠ Node.null := by
  rw [calleeNode_eq, if_pos hv]
  exact Nat.succ_ne_zero _

theorem selector?_calleeNode (hv : v ∈ inside) :
    (callee h inside params args).selector? (calleeNode inside v) sel =
      (h.selector? v sel).map (calleeNode inside) := by
  rw [calleeNode_eq, if_pos hv, selector?_callee_succ (idxOf_lt_length_of_mem hv),
    nodeAt_idxOf hv]

theorem exists_var?_callee (h : Heap) (inside : List Node) (hparams : params.Nodup)
    (hlength : args.length = params.length) (hv : v ∈ args) :
    ∃ x ∈ params, (callee h inside params args).var? x = some (calleeNode inside v) := by
  obtain ⟨i, hi⟩ := getElem?_of_mem hv
  have hlt : i < params.length := hlength ▸ (List.getElem?_eq_some_iff.1 hi).1
  have hx : params[i]? = some params[i] := getElem?_eq_getElem hlt
  refine ⟨params[i], getElem_mem hlt, ?_⟩
  have hread : (callee h inside params args).var? params[i] =
      ((SortedMap.ofList (params.zip args)).find? params[i]).map (calleeNode inside) :=
    find?_zip_map _ _
  have hmem : (params[i], v) ∈ params.zip args :=
    mem_of_getElem? (getElem?_zip_eq_some.2 ⟨hx, hi⟩)
  rw [hread, SortedMap.find?_ofList]
  cases hfind : (params.zip args).reverse.find? (·.1 = params[i]) with
  | none =>
    rw [find?_eq_none] at hfind
    exact absurd (decide_eq_true rfl) (hfind _ (mem_reverse.2 hmem))
  | some e =>
    -- the parameters are different, so the last binding is the only one
    obtain ⟨y, a⟩ := e
    obtain rfl : y = params[i] := by simpa using find?_some hfind
    obtain ⟨j, hj⟩ := getElem?_of_mem (mem_reverse.1 (mem_of_find?_eq_some hfind))
    obtain ⟨hy, ha⟩ := getElem?_zip_eq_some.1 hj
    obtain ⟨hjlt, hyj⟩ := List.getElem?_eq_some_iff.1 hy
    obtain rfl := (List.Nodup.getElem_inj_iff hparams).1 hyj
    rw [Option.map_some, Option.map_some, Option.some.inj (ha.symm.trans hi)]

theorem mem_params_of_var?_callee {x : String}
    (hx : (callee h inside params args).var? x = some v) : x ∈ params :=
  (of_mem_zip (SortedMap.mem_of_find?_ofList hx)).1

namespace IsFragment

theorem calleeNode_inj (hfrag : IsFragment h args inside) (hu : u = Node.null ∨ u ∈ inside)
    (hv : v = Node.null ∨ v ∈ inside) (heq : calleeNode inside u = calleeNode inside v) :
    u = v := by
  rw [← hfrag.nodeAt_calleeNode hu, heq, hfrag.nodeAt_calleeNode hv]

theorem exists_calleeNode_eq (hfrag : IsFragment h args inside) {i : Node}
    (hi : i < (callee h inside params args).size) :
    ∃ v, (v = Node.null ∨ v ∈ inside) ∧ calleeNode inside v = i := by
  rw [size_callee] at hi
  cases i with
  | zero => exact ⟨Node.null, .inl rfl, calleeNode_of_not_mem hfrag.null_not_mem⟩
  | succ i =>
    have hi : i < inside.length := Nat.lt_of_succ_lt_succ hi
    refine ⟨nodeAt inside i, .inr (nodeAt_mem hi), ?_⟩
    rw [calleeNode_eq, if_pos (nodeAt_mem hi), idxOf_nodeAt hfrag.nodup hi]

theorem leads_callee (hv : v ∈ inside) (hvw : h.Leads v w) :
    (callee h inside params args).Leads (calleeNode inside v) (calleeNode inside w) := by
  rcases Heap.mem_successors_iff.1 hvw with ⟨sel, hsel⟩ | ⟨e, he, hsource, hw⟩
  · refine Heap.mem_successors_iff.2 (.inl ⟨sel, ?_⟩)
    rw [selector?_calleeNode hv, hsel, Option.map_some]
  · refine Heap.mem_successors_iff.2 (.inr ⟨e.map (calleeNode inside), ?_, ?_, ?_⟩)
    · refine mem_map.2 ⟨e, mem_filter.2 ⟨he, ?_⟩, rfl⟩
      simpa [startsIn, hsource] using hv
    · rw [Summary.source?_map, hsource, Option.map_some]
    · rw [Summary.targets, Summary.map, ← map_tail]
      exact mem_map_of_mem hw

theorem isLive_callee (hfrag : IsFragment h args inside) (hnull : ∀ w, ¬h.Leads Node.null w)
    (hargs : ∀ v ∈ args, v < h.size) (hparams : params.Nodup)
    (hlength : args.length = params.length) (i : Node)
    (hi : i < (callee h inside params args).size) : (callee h inside params args).IsLive i := by
  obtain ⟨v, hv, rfl⟩ := hfrag.exists_calleeNode_eq hi
  rcases hv with rfl | hv
  · rw [calleeNode_of_not_mem hfrag.null_not_mem]
    exact .null
  · refine (hfrag.least {v | (v = Node.null ∨ v ∈ inside) ∧
      (callee h inside params args).IsLive (calleeNode inside v)} (fun a ha => ?_)
        (fun v w hv hvw => ?_) v hv).2
    · obtain ⟨x, -, hx⟩ := exists_var?_callee h inside hparams hlength ha
      exact ⟨hfrag.mem_of_mem_args a ha (hargs a ha), .var hx⟩
    · obtain ⟨rfl | hin, hlive⟩ := hv
      · exact absurd hvw (hnull w)
      · exact ⟨hfrag.closed v hin w hvw, hlive.tail (leads_callee hin hvw)⟩

/-- The callee has no two summaries of one label that start at the same node, if the caller has
none. -/
theorem isApart_callee (hfrag : IsFragment h args inside) (hlabels : h.IsLabelled) :
    (callee h inside params args).IsApart := by
  have hstart {e : Summary} {i : Node} (he : e ∈ h.summaries.filter (startsIn inside))
      (hi : (e.map (calleeNode inside)).source? = some i) :
      ∃ a ∈ inside, e ∈ h.summaries.filter (·.source? = some a) ∧ calleeNode inside a = i := by
    obtain ⟨he, hin⟩ := mem_filter.1 he
    rw [Summary.source?_map, Option.map_eq_some_iff] at hi
    obtain ⟨a, ha, hai⟩ := hi
    refine ⟨a, ?_, mem_filter.2 ⟨he, decide_eq_true ha⟩, hai⟩
    simpa [startsIn, ha] using hin
  intro k hk k' hk' i hi hi' hlabel _
  obtain ⟨e, he, rfl⟩ := mem_map.1 hk
  obtain ⟨e', he', rfl⟩ := mem_map.1 hk'
  obtain ⟨a, ha, hea, hai⟩ := hstart he hi
  obtain ⟨b, hb, heb, hbi⟩ := hstart he' hi'
  obtain rfl := hfrag.calleeNode_inj (.inr ha) (.inr hb) (hai.trans hbi.symm)
  rw [hlabels.eq_of_label_eq hea heb hlabel]

end IsFragment

/-- `f` carries the fragment of a call to the fragment of another call: the arguments, the selectors
and the summaries of the fragment, and the nodes that the caller refers to from elsewhere. -/
structure IsCorrespondence (f : Node → Node) (h : Heap) (args : List Node) (h' : Heap)
    (args' : List Node) : Prop where
  null : f Node.null = Node.null
  map_args : args.map f = args'
  mem : ∀ v ∈ fragment h args, f v ∈ fragment h' args'
  inj : ∀ v ∈ fragment h args, ∀ w ∈ fragment h args, f v = f w → v = w
  surj : ∀ w ∈ fragment h' args', ∃ v ∈ fragment h args, f v = w
  selector : ∀ v ∈ fragment h args, ∀ sel, h'.selector? (f v) sel = (h.selector? v sel).map f
  summaries : ((h.summaries.filter (startsIn (fragment h args))).map (Summary.map f)).Perm
    (h'.summaries.filter (startsIn (fragment h' args')))
  referenced : ∀ v ∈ fragment h args,
    v ∈ Call.referenced h (fragment h args) ↔ f v ∈ Call.referenced h' (fragment h' args')

namespace IsCorrespondence

variable {f : Node → Node} {h' : Heap} {args' : List Node}

/-- The corresponding node of the other callee. -/
def calleeMap (f : Node → Node) (h : Heap) (args : List Node) (h' : Heap) (args' : List Node)
    (i : Node) : Node :=
  calleeNode (fragment h' args') (f (nodeAt (Node.null :: fragment h args) i))

variable (hf : IsCorrespondence f h args h' args') (hh : h.InRange) (hh' : h'.InRange)

include hf hh in
theorem perm_fragment : ((fragment h args).map f).Perm (fragment h' args') := by
  have hnodup := (isFragment_fragment hh args).nodup
  refine (perm_ext_iff_of_nodup (hnodup.map_on hf.inj) ?_).2 fun w => ?_
  · exact List.Nodup.filter _ nodup_range
  · rw [mem_map]
    exact ⟨fun ⟨v, hv, heq⟩ => heq ▸ hf.mem v hv, hf.surj w⟩

include hh in
theorem calleeMap_calleeNode (hv : v = Node.null ∨ v ∈ fragment h args) :
    calleeMap f h args h' args' (calleeNode (fragment h args) v) =
      calleeNode (fragment h' args') (f v) := by
  rw [calleeMap, (isFragment_fragment hh args).nodeAt_calleeNode hv]

include hf in
theorem mem_of_mem (hv : v = Node.null ∨ v ∈ fragment h args) :
    f v = Node.null ∨ f v ∈ fragment h' args' := by
  rcases hv with rfl | hv
  · exact .inl hf.null
  · exact .inr (hf.mem v hv)

include hf hh' in
theorem eq_of_map_eq (hu : u = Node.null ∨ u ∈ fragment h args)
    (hv : v = Node.null ∨ v ∈ fragment h args) (heq : f u = f v) : u = v := by
  have hne {v} (hv : v ∈ fragment h args) : f v ≠ f Node.null := fun heq =>
    (isFragment_fragment hh' args').ne_null _ (hf.mem v hv) (heq.trans hf.null)
  rcases hu with rfl | hu <;> rcases hv with rfl | hv
  · rfl
  · exact absurd heq.symm (hne hv)
  · exact absurd heq (hne hu)
  · exact hf.inj u hu v hv heq

include hf hh hh' in
theorem isRenumbering_callee (params : List String) (hargs : ∀ v ∈ args, v < h.size) :
    Heap.IsRenumbering (calleeMap f h args h' args') (callee h (fragment h args) params args)
      (callee h' (fragment h' args') params args') := by
  have hfrag := isFragment_fragment hh args
  have hfrag' := isFragment_fragment hh' args'
  have hmap {v} (hv : v = Node.null ∨ v ∈ fragment h args) :
      calleeMap f h args h' args' (calleeNode (fragment h args) v) =
        calleeNode (fragment h' args') (f v) := calleeMap_calleeNode hh hv
  constructor
  case size =>
    rw [size_callee, size_callee, ← (hf.perm_fragment hh).length_eq, length_map]
  case null =>
    have hnull := hmap (.inl rfl)
    rwa [hf.null, calleeNode_of_not_mem hfrag.null_not_mem,
      calleeNode_of_not_mem hfrag'.null_not_mem] at hnull
  case lt =>
    intro i _
    rw [size_callee]
    exact calleeNode_lt
  case inj =>
    intro i hi j hj heq
    obtain ⟨u, hu, rfl⟩ := hfrag.exists_calleeNode_eq hi
    obtain ⟨v, hv, rfl⟩ := hfrag.exists_calleeNode_eq hj
    rw [hmap hu, hmap hv] at heq
    rw [hf.eq_of_map_eq hh' hu hv
      (hfrag'.calleeNode_inj (hf.mem_of_mem hu) (hf.mem_of_mem hv) heq)]
  case selector =>
    intro i hi sel
    obtain ⟨v, rfl | hv, rfl⟩ := hfrag.exists_calleeNode_eq hi
    · rw [hmap (.inl rfl), hf.null, calleeNode_of_not_mem hfrag'.null_not_mem,
        calleeNode_of_not_mem hfrag.null_not_mem, selector?_callee_null, selector?_callee_null]
      rfl
    · rw [hmap (.inr hv), selector?_calleeNode (hf.mem v hv), hf.selector v hv,
        selector?_calleeNode hv, Option.map_map, Option.map_map]
      refine Option.map_congr fun t ht => (hmap (hfrag.closed v hv t ?_)).symm
      exact Heap.mem_successors_iff.2 (.inl ⟨sel, ht⟩)
  case var =>
    intro x
    have hread : (callee h' (fragment h' args') params args').var? x =
        (((SortedMap.ofList (params.zip args)).find? x).map f).map
          (calleeNode (fragment h' args')) := by
      rw [← find?_zip_map f x, hf.map_args]
      exact find?_zip_map _ x
    have hread' : (callee h (fragment h args) params args).var? x =
        ((SortedMap.ofList (params.zip args)).find? x).map (calleeNode (fragment h args)) :=
      find?_zip_map _ x
    rw [hread, hread', Option.map_map, Option.map_map]
    refine Option.map_congr fun a ha => (hmap ?_).symm
    have hmem := (of_mem_zip (SortedMap.mem_of_find?_ofList ha)).2
    exact hfrag.mem_of_mem_args a hmem (hargs a hmem)
  case summaries =>
    have hleft : (callee h (fragment h args) params args).summaries.map
        (Summary.map (calleeMap f h args h' args')) =
          ((h.summaries.filter (startsIn (fragment h args))).map (Summary.map f)).map
            (Summary.map (calleeNode (fragment h' args'))) := by
      rw [callee, List.map_map, List.map_map]
      refine map_congr_left fun e he => ?_
      obtain ⟨he, hin⟩ := mem_filter.1 he
      refine (Summary.map_map (e := e)).trans (.trans (Summary.map_congr fun v hv => ?_)
        (Summary.map_map (e := e)).symm)
      exact hmap (hfrag.mem_of_startsIn he hin hv)
    rw [hleft]
    exact hf.summaries.map _

/-- The interface as nodes of the callee: the marked nodes in canonical order. -/
theorem map_interfaceNodes_eq (h start : Heap) (inside : List Node) :
    (interfaceNodes h inside start).map (calleeNode inside) =
      sortBy (viaView start.canonicalOrder.idxOf compare)
        ((inside.filter (· ∈ Call.referenced h inside)).map (calleeNode inside)) := by
  rw [interfaceNodes]
  refine (sortBy_map ?_).symm
  exact fun _ _ _ _ => rfl

include hf hh hh' in
theorem map_interfaceNodes (hnull : ∀ w, ¬h.Leads Node.null w) (hlabels : h.IsLabelled)
    (hargs : ∀ v ∈ args, v < h.size) (hparams : params.Nodup)
    (hlength : args.length = params.length) :
    (interfaceNodes h' (fragment h' args') (callee h' (fragment h' args') params args')).map
        (calleeNode (fragment h' args')) =
      ((interfaceNodes h (fragment h args) (callee h (fragment h args) params args)).map
        (calleeNode (fragment h args))).map (calleeMap f h args h' args') := by
  have hfrag := isFragment_fragment hh args
  have hren := hf.isRenumbering_callee hh hh' params hargs
  have hrange : (callee h (fragment h args) params args).InRange := inRange_callee
  have horder := hren.canonicalOrder_map hrange (hfrag.isApart_callee hlabels)
    (hfrag.isLive_callee hnull hargs hparams hlength)
  have hlt : ∀ i ∈ (callee h (fragment h args) params args).canonicalOrder,
      i < (callee h (fragment h args) params args).size := fun i => hrange.mem_canonicalOrder_iff.1
  have hnode {v : Node} :
      calleeNode (fragment h args) v < (callee h (fragment h args) params args).size := by
    rw [size_callee]
    exact calleeNode_lt
  -- the marked nodes correspond, in whatever order they are listed
  have hperm : (((fragment h args).filter (· ∈ Call.referenced h (fragment h args))).map f).Perm
      ((fragment h' args').filter (· ∈ Call.referenced h' (fragment h' args'))) := by
    refine .trans (.of_eq ?_) ((hf.perm_fragment hh).filter _)
    rw [filter_map]
    exact congrArg _ (filter_congr fun v hv => decide_eq_decide.2 (hf.referenced v hv))
  have hmarks : ((((fragment h args).filter (· ∈ Call.referenced h (fragment h args))).map
      (calleeNode (fragment h args))).map (calleeMap f h args h' args')).Perm
        (((fragment h' args').filter (· ∈ Call.referenced h' (fragment h' args'))).map
          (calleeNode (fragment h' args'))) := by
    refine .trans (.of_eq ?_) (hperm.map _)
    rw [List.map_map, List.map_map]
    exact map_congr_left fun v hv =>
      calleeMap_calleeNode hh (.inr (mem_of_mem_filter hv))
  rw [map_interfaceNodes_eq, map_interfaceNodes_eq, horder]
  have := transCmp_viaView ((callee h (fragment h args) params args).canonicalOrder.map
    (calleeMap f h args h' args')).idxOf (compare (α := Nat))
  refine (sortBy_eq_of_perm_of_inj hmarks.symm fun i hi j _ heq => ?_).trans
    (sortBy_map fun i hi j hj => ?_)
  · refine (idxOf_inj ?_).1 (Std.LawfulEqCmp.eq_of_compare heq)
    obtain ⟨k, hk, rfl⟩ := mem_map.1 (hmarks.mem_iff.2 hi)
    obtain ⟨v, -, rfl⟩ := mem_map.1 hk
    exact mem_map_of_mem (hrange.mem_canonicalOrder_iff.2 hnode)
  · obtain ⟨u, -, rfl⟩ := mem_map.1 hi
    obtain ⟨v, -, rfl⟩ := mem_map.1 hj
    rw [viaView, viaView, idxOf_map hren.inj hlt hnode, idxOf_map hren.inj hlt hnode]

end IsCorrespondence

theorem isLive_bindInterface {g : Heap} {nodes : List Node}
    (hvars : ∀ x v, g.var? x = some v → isReserved x = false) (hv : g.IsLive v) :
    (bindInterface g nodes).IsLive v := by
  refine hv.induction .null (fun x v hx => .var (x := x) ?_) fun v w hv hvw => hv.tail ?_
  · rw [var?_bindInterface, interfaceMap_eq_none (.inl (hvars x v hx)), Option.none_or, hx]
  · rw [Heap.Leads, Heap.mem_successors_iff] at hvw ⊢
    simpa using hvw

/-- The heap that a callee starts with has the same normal form for any two calls whose fragments
correspond: the variables of the interface are numbered by the fragment alone. -/
theorem normalize_enter_eq {params : List String} (hparams : params.Nodup)
    (hfree : ∀ x ∈ params, isReserved x = false) {h h' : Heap} {args args' : List Node}
    (hh : h.InRange) (hh' : h'.InRange) (hlength : args.length = params.length)
    (hargs : ∀ v ∈ args, v < h.size) (hnull : ∀ w, ¬h.Leads Node.null w) (hlabels : h.IsLabelled)
    {f : Node → Node} (hf : IsCorrespondence f h args h' args') :
    (enter h params args).1.normalize = (enter h' params args').1.normalize := by
  have hfrag := isFragment_fragment hh args
  have hren := (hf.isRenumbering_callee hh hh' params hargs).bindInterface
    ((interfaceNodes h (fragment h args) (callee h (fragment h args) params args)).map
      (calleeNode (fragment h args)))
  rw [← hf.map_interfaceNodes hh hh' hnull hlabels hargs hparams hlength] at hren
  have hapart : (enter h params args).1.IsApart := by
    intro e he e' he'
    rw [enter, summaries_bindInterface] at he he'
    exact hfrag.isApart_callee hlabels e he e' he'
  refine Heap.Isomorphic.normalize_eq_of_isApart ⟨_, hren⟩ (inRange_enter h params args) hapart
    fun i hi => isLive_bindInterface (fun x v hx => hfree x (mem_params_of_var?_callee hx)) ?_
  exact hfrag.isLive_callee hnull hargs hparams hlength i (by simpa [enter] using hi)

/-- A node without a name leads to both ends of a segment. A variable names the last node, and a
cell that is garbage refers to the first. -/
def pointedByCell : Heap :=
  ⟨[∅, .ofList [("left", 3), ("next", 2)], ∅, .ofList [("next", 0)], .ofList [("next", 2)]],
    .ofList [("x", 3)], [⟨"SLL", [2, 3]⟩]⟩

/-- The same fragment in another order: a variable names the first node of the segment, and a tree
refers to the last. -/
def pointedBySummary : Heap :=
  ⟨[∅, .ofList [("next", 0)], .ofList [("left", 1), ("next", 4)], ∅, ∅],
    .ofList [("a", 3), ("z", 4)], [⟨"Tree", [3, 1, 0]⟩, ⟨"SLL", [4, 1]⟩]⟩

/-- The node of the second heap for each node of the first. -/
def pointedNode (v : Node) : Node :=
  [0, 2, 4, 1].getD v Node.null

theorem normalize_enter_eq_pointed : ["p", "q", "r"].Nodup ∧
    (∀ x ∈ ["p", "q", "r"], isReserved x = false) ∧
    pointedByCell.InRange ∧ pointedBySummary.InRange ∧
    (∀ w, ¬pointedByCell.Leads Node.null w) ∧ pointedByCell.IsLabelled ∧
    IsCorrespondence pointedNode pointedByCell [1, 0, 1] pointedBySummary [2, 0, 2] ∧
    (enter pointedByCell ["p", "q", "r"] [1, 0, 1]).2.interface = [3, 2] ∧
    (enter pointedBySummary ["p", "q", "r"] [2, 0, 2]).2.interface = [1, 4] ∧
    (enter pointedByCell ["p", "q", "r"] [1, 0, 1]).1.normalize =
      (enter pointedBySummary ["p", "q", "r"] [2, 0, 2]).1.normalize := by
  have hfree : ∀ x ∈ ["p", "q", "r"], isReserved x = false := by decide +kernel
  have hh : pointedByCell.InRange := by decide +kernel
  have hh' : pointedBySummary.InRange := by decide +kernel
  have hargs : ∀ v ∈ [1, 0, 1], v < pointedByCell.size := by decide +kernel
  have hnull : ∀ w, ¬pointedByCell.Leads Node.null w :=
    eq_nil_iff_forall_not_mem.1 (by decide +kernel)
  have hlabels : pointedByCell.IsLabelled := by decide +kernel
  have hcells : ∀ v ∈ fragment pointedByCell [1, 0, 1], pointedBySummary.cell (pointedNode v) =
      (pointedByCell.cell v).filterMap fun t => some (pointedNode t) := by decide +kernel
  have hf : IsCorrespondence pointedNode pointedByCell [1, 0, 1] pointedBySummary [2, 0, 2] :=
    ⟨rfl, rfl, by decide +kernel, by decide +kernel, by decide +kernel, fun v hv =>
      Heap.selector?_eq_map_of_cell_eq (hcells v hv), by decide +kernel, by decide +kernel⟩
  exact ⟨by decide, hfree, hh, hh', hnull, hlabels, hf, by decide +kernel, by decide +kernel,
    normalize_enter_eq (by decide) hfree hh hh' rfl hargs hnull hlabels hf⟩

end Call

end ShapeCheck
