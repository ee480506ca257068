import ShapeCheck.Proofs.Sweep

/-!
# Renumbering the nodes of a heap

A heap is a closed part of another if its nodes can be placed there one to one, so that null,
variables and selectors agree, no step leaves the part, and its summaries are those between nodes of
the part. Garbage collection, dropping unconnected nodes and canonical numbering all give
closed parts; canonical numbering gives all of the heap.
-/

namespace ShapeCheck

open Relation List

/-- The node at a position of a list, or null beyond its end. -/
def nodeAt (order : List Node) (i : Nat) : Node :=
  order.getD i Node.null

section NodeAt

variable {order : List Node} {i j : Nat} {v : Node}

theorem nodeAt_of_getElem? (hi : order[i]? = some v) : nodeAt order i = v := by
  rw [nodeAt, List.getD, hi, Option.getD_some]

theorem getElem?_eq_nodeAt (hi : i < order.length) : order[i]? = some (nodeAt order i) := by
  rw [nodeAt, List.getD, getElem?_eq_getElem hi, Option.getD_some]

theorem nodeAt_mem (hi : i < order.length) : nodeAt order i ∈ order :=
  mem_of_getElem? (getElem?_eq_nodeAt hi)

theorem nodeAt_idxOf (hv : v ∈ order) : nodeAt order (order.idxOf v) = v := by
  have hi := idxOf_lt_length_of_mem hv
  rw [nodeAt, List.getD, getElem?_eq_getElem hi, Option.getD_some, getElem_idxOf hi]

theorem idxOf_nodeAt (hnodup : order.Nodup) (hi : i < order.length) :
    order.idxOf (nodeAt order i) = i := by
  rw [nodeAt, List.getD, getElem?_eq_getElem hi, Option.getD_some, hnodup.idxOf_getElem]

theorem nodeAt_inj (hnodup : order.Nodup) (hi : i < order.length) (hj : j < order.length)
    (hij : nodeAt order i = nodeAt order j) : i = j := by
  rw [← idxOf_nodeAt hnodup hi, hij, idxOf_nodeAt hnodup hj]

theorem idxOf?_eq : order.idxOf? v = if v ∈ order then some (order.idxOf v) else none := by
  induction order with
  | nil => rfl
  | cons u order ih =>
    rw [idxOf?_cons, idxOf_cons, ih]
    by_cases huv : u = v
    · simp [huv]
    · have hbeq : (u == v) = false := beq_false_of_ne huv
      by_cases hv : v ∈ order <;> simp [hbeq, hv, Ne.symm huv]

theorem map_nodeAt_range : (List.range order.length).map (nodeAt order) = order := by
  refine ext_getElem? fun i => ?_
  by_cases hi : i < order.length
  · simp [hi, nodeAt]
  · simp [hi]

end NodeAt

namespace Summary

variable {order : List Node} {e : Summary} {f g : Node → Node}

theorem map_map : (e.map f).map g = e.map (g ∘ f) := by
  simp [Summary.map]

theorem map_congr (hfg : ∀ v ∈ e.ends, f v = g v) : e.map f = e.map g := by
  simpa [Summary.map] using hfg

theorem map_eq_self (hf : ∀ v ∈ e.ends, f v = v) : e.map f = e := by
  rw [map_congr (g := id) hf, Summary.map, List.map_id]

theorem map_id : Summary.map id = id :=
  funext fun _ => map_eq_self fun _ _ => rfl

theorem source?_map : (e.map f).source? = e.source?.map f :=
  head?_map

theorem filter_source?_map {l : List Summary} {v : Node}
    (hf : ∀ e ∈ l, ∀ w ∈ e.ends, f w = f v → w = v) :
    (l.map (Summary.map f)).filter (·.source? = some (f v)) =
      (l.filter (·.source? = some v)).map (Summary.map f) := by
  rw [filter_map]
  refine congrArg _ (filter_congr fun e he => decide_eq_decide.2 ?_)
  rw [source?_map, Option.map_eq_some_iff]
  constructor
  · rintro ⟨w, hw, heq⟩
    rw [hw, hf e he w (mem_of_mem_head? hw) heq]
  · exact fun hsource => ⟨v, hsource, rfl⟩

theorem relabel_eq : e.relabel order =
    if e.ends.all (· ∈ order) then some (e.map order.idxOf) else none := by
  obtain ⟨label, ends⟩ := e
  have hmapM : ends.mapM order.idxOf? =
      if ends.all (· ∈ order) then some (ends.map order.idxOf) else none := by
    induction ends with
    | nil => rfl
    | cons v ends ih =>
      rw [mapM_cons, ih, idxOf?_eq]
      by_cases hv : v ∈ order <;> by_cases hends : ends.all (· ∈ order) <;> simp [hv, hends]
  rw [relabel, hmapM]
  split <;> rfl

end Summary

namespace Heap

variable {f : Node → Node} {g h : Heap} {order : List Node} {sel x : String} {v w : Node}

/-- `f` places the heap `g` in `h`, as a part that no step leaves and that holds all nodes with a
name. The summaries of `g` are those of `h` between nodes of the part. -/
structure IsPart (f : Node → Node) (g h : Heap) : Prop where
  null : f Node.null = Node.null
  lt : ∀ v < g.size, f v < h.size
  inj : ∀ v < g.size, ∀ w < g.size, f v = f w → v = w
  closed : ∀ v < g.size, ∀ w ∈ h.successors (f v), ∃ u < g.size, f u = w
  selector : ∀ v < g.size, ∀ sel, h.selector? (f v) sel = (g.selector? v sel).map f
  var : ∀ x, h.var? x = (g.var? x).map f
  summaries : (g.summaries.map (Summary.map f)).Perm
    (h.summaries.filter fun e => e.ends.all (· ∈ g.nodes.map f))

/-- `f` renumbers the nodes of `g` and gives `h`. -/
structure IsRenumbering (f : Node → Node) (g h : Heap) : Prop where
  size : g.size = h.size
  null : f Node.null = Node.null
  lt : ∀ v < g.size, f v < h.size
  inj : ∀ v < g.size, ∀ w < g.size, f v = f w → v = w
  selector : ∀ v < g.size, ∀ sel, h.selector? (f v) sel = (g.selector? v sel).map f
  var : ∀ x, h.var? x = (g.var? x).map f
  summaries : (g.summaries.map (Summary.map f)).Perm h.summaries

/-- Two heaps are equal up to the numbers of their nodes. -/
def Isomorphic (g h : Heap) : Prop :=
  ∃ f, IsRenumbering f g h

@[simp]
theorem size_relabel : (h.relabel order).size = order.length := by
  simp [size, relabel]

theorem selector?_relabel {i : Nat} (hi : i < order.length) :
    (h.relabel order).selector? i sel = (h.selector? (nodeAt order i) sel).bind order.idxOf? := by
  have hcell : (h.relabel order).cell i = (h.cell (nodeAt order i)).filterMap order.idxOf? := by
    simp [cell, relabel, getElem?_eq_nodeAt hi]
  rw [selector?, hcell, SortedMap.find?_filterMap, selector?]

theorem var?_relabel : (h.relabel order).var? x = (h.var? x).bind order.idxOf? :=
  SortedMap.find?_filterMap

theorem summaries_relabel : (h.relabel order).summaries.Perm
    ((h.summaries.filter fun e => e.ends.all (· ∈ order)).map (Summary.map order.idxOf)) := by
  refine (sortBy_perm _ _).trans (.of_eq ?_)
  induction h.summaries with
  | nil => rfl
  | cons e summaries ih =>
    rw [filterMap_cons, Summary.relabel_eq, filter_cons]
    by_cases he : e.ends.all (· ∈ order)
    · rw [if_pos he, if_pos he, map_cons, ih]
    · rw [if_neg he, if_neg he, ih]

theorem inRange_relabel (horder : order ≠ []) : (h.relabel order).InRange := by
  have hbound : ∀ {v i : Nat}, order.idxOf? v = some i → i < order.length := by
    intro v i hi
    rw [idxOf?_eq] at hi
    split at hi
    · next hv => exact Option.some.inj hi ▸ idxOf_lt_length_of_mem hv
    · cases hi
  constructor
  · rw [size_relabel]
    exact length_pos_iff.2 horder
  · intro v sel w hw
    have hv : v < order.length := by simpa using lt_size_of_selector? hw
    rw [selector?_relabel hv] at hw
    obtain ⟨u, -, hu⟩ := Option.bind_eq_some_iff.1 hw
    simpa using hbound hu
  · intro x v hv
    rw [var?_relabel] at hv
    obtain ⟨u, -, hu⟩ := Option.bind_eq_some_iff.1 hv
    simpa using hbound hu
  · intro e he v hv
    obtain ⟨e', he', rfl⟩ := mem_map.1 (summaries_relabel.mem_iff.1 he)
    obtain ⟨u, hu, rfl⟩ := mem_map.1 hv
    have hmem : u ∈ order := by simpa using all_eq_true.1 (mem_filter.1 he').2 u hu
    simpa using idxOf_lt_length_of_mem hmem

/-- Relabelling along a list that no step leaves, and that holds what variables name, keeps a closed
part of the heap. -/
theorem isPart_relabel (hnodup : order.Nodup) (hnull : order.head? = some Node.null)
    (hlt : ∀ v ∈ order, v < h.size)
    (hclosed : ∀ v ∈ order, ∀ w ∈ h.successors v, w ∈ order)
    (hvar : ∀ x v, h.var? x = some v → v ∈ order) :
    IsPart (nodeAt order) (h.relabel order) h := by
  have hback : ∀ o : Option Node, (∀ w, o = some w → w ∈ order) →
      (o.bind order.idxOf?).map (nodeAt order) = o := by
    rintro (_ | w) hw
    · rfl
    · simp [idxOf?_eq, hw w rfl, nodeAt_idxOf (hw w rfl)]
  constructor
  · exact nodeAt_of_getElem? (head?_eq_getElem? ▸ hnull)
  · intro i hi
    exact hlt _ (nodeAt_mem (by simpa using hi))
  · intro i hi j hj
    exact nodeAt_inj hnodup (by simpa using hi) (by simpa using hj)
  · intro i hi w hw
    have hw := hclosed _ (nodeAt_mem (by simpa using hi)) w hw
    exact ⟨order.idxOf w, by simpa using idxOf_lt_length_of_mem hw, nodeAt_idxOf hw⟩
  · intro i hi sel
    have hi : i < order.length := by simpa using hi
    rw [selector?_relabel hi, hback]
    exact fun w hw => hclosed _ (nodeAt_mem hi) w (mem_successors_iff.2 (.inl ⟨sel, hw⟩))
  · intro x
    rw [var?_relabel, hback]
    exact hvar x
  · refine (summaries_relabel.map _).trans (.of_eq ?_)
    rw [List.map_map, nodes, size_relabel, map_nodeAt_range]
    refine (map_congr_left fun e he => ?_).trans (List.map_id _)
    rw [Function.comp, Summary.map_map]
    refine Summary.map_eq_self fun v hv => nodeAt_idxOf ?_
    simpa using all_eq_true.1 (mem_filter.1 he).2 v hv

theorem IsPart.size_le (hf : IsPart f g h) : g.size ≤ h.size := by
  have hnodup : (g.nodes.map f).Nodup := nodup_range.map_on fun v hv w hw =>
    hf.inj v (mem_nodes.1 hv) w (mem_nodes.1 hw)
  have hle := length_le_of_nodup hnodup (n := h.size) fun v hv => by
    obtain ⟨u, hu, rfl⟩ := mem_map.1 hv
    exact hf.lt u (mem_nodes.1 hu)
  simpa [nodes] using hle

/-- The summaries that start at a node of a part are those that start at its place in the heap. -/
theorem IsPart.filter_source?_perm (hf : IsPart f g h) (hg : g.InRange) (hv : v < g.size) :
    ((g.summaries.filter (·.source? = some v)).map (Summary.map f)).Perm
      (h.summaries.filter (·.source? = some (f v))) := by
  rw [← Summary.filter_source?_map fun e he w hw => hf.inj w (hg.ends e he w hw) v hv]
  refine (hf.summaries.filter _).trans (.of_eq ?_)
  rw [filter_filter]
  refine filter_congr fun e he => ?_
  -- no summary that starts in the part leaves it
  refine Bool.and_eq_left_iff_imp.2 fun hsource => all_eq_true.2 fun w hw => ?_
  have hsource : e.source? = some (f v) := of_decide_eq_true hsource
  refine decide_eq_true (mem_map.2 ?_)
  obtain ⟨label, ends⟩ := e
  cases ends with
  | nil => cases hw
  | cons a ends =>
    obtain rfl : a = f v := Option.some.inj hsource
    rcases mem_cons.1 hw with rfl | hw
    · exact ⟨v, mem_nodes.2 hv, rfl⟩
    · obtain ⟨u, hu, rfl⟩ := hf.closed v hv w (mem_successors_iff.2 (.inr ⟨_, he, rfl, hw⟩))
      exact ⟨u, mem_nodes.2 hu, rfl⟩

theorem map_nodes_perm (hsize : g.size = h.size) (hlt : ∀ v < g.size, f v < h.size)
    (hinj : ∀ v < g.size, ∀ w < g.size, f v = f w → v = w) : (g.nodes.map f).Perm h.nodes := by
  have hnodup : (g.nodes.map f).Nodup :=
    List.Nodup.map_on (fun v hv w hw => hinj v (mem_nodes.1 hv) w (mem_nodes.1 hw))
      nodup_range
  have hsub : g.nodes.map f ⊆ h.nodes := by
    intro w hw
    obtain ⟨v, hv, rfl⟩ := mem_map.1 hw
    exact mem_nodes.2 (hlt v (mem_nodes.1 hv))
  refine (subperm_of_subset hnodup hsub).perm_of_length_le ?_
  simp [nodes, hsize]

theorem InRange.filter_summaries (hh : h.InRange) {l : List Node} (hl : l.Perm h.nodes) :
    (h.summaries.filter fun e => e.ends.all (· ∈ l)) = h.summaries := by
  refine filter_eq_self.2 fun e he => all_eq_true.2 fun v hv => ?_
  rw [decide_eq_true_eq, hl.mem_iff, mem_nodes]
  exact hh.ends e he v hv

theorem IsPart.isRenumbering (hf : IsPart f g h) (hh : h.InRange) (hsize : g.size = h.size) :
    IsRenumbering f g h := by
  refine ⟨hsize, hf.null, hf.lt, hf.inj, hf.selector, hf.var, hf.summaries.trans (.of_eq ?_)⟩
  exact hh.filter_summaries (map_nodes_perm hsize hf.lt hf.inj)

theorem IsRenumbering.surj (hf : IsRenumbering f g h) (hw : w < h.size) :
    ∃ v < g.size, f v = w := by
  have hperm := map_nodes_perm hf.size hf.lt hf.inj
  obtain ⟨v, hv, rfl⟩ := mem_map.1 (hperm.mem_iff.2 (mem_nodes.2 hw))
  exact ⟨v, mem_nodes.1 hv, rfl⟩

theorem IsRenumbering.isPart (hf : IsRenumbering f g h) (hh : h.InRange) : IsPart f g h := by
  have hperm := map_nodes_perm hf.size hf.lt hf.inj
  refine ⟨hf.null, hf.lt, hf.inj, fun v hv w hw => ?_, hf.selector, hf.var,
    hf.summaries.trans (.of_eq (hh.filter_summaries hperm).symm)⟩
  exact hf.surj (hh.lt_of_mem_successors hw)

theorem IsRenumbering.inRange (hf : IsRenumbering f g h) (hg : g.InRange) : h.InRange := by
  constructor
  · exact hf.size ▸ hg.pos
  · intro v sel w hw
    obtain ⟨v, hv, rfl⟩ := hf.surj (lt_size_of_selector? hw)
    rw [hf.selector v hv, Option.map_eq_some_iff] at hw
    obtain ⟨u, hu, rfl⟩ := hw
    exact hf.lt u (hg.selector v sel u hu)
  · intro x v hv
    rw [hf.var, Option.map_eq_some_iff] at hv
    obtain ⟨u, hu, rfl⟩ := hv
    exact hf.lt u (hg.var x u hu)
  · intro e he v hv
    obtain ⟨e', he', rfl⟩ := mem_map.1 (hf.summaries.mem_iff.2 he)
    obtain ⟨u, hu, rfl⟩ := mem_map.1 hv
    exact hf.lt u (hg.ends e' he' u hu)

theorem isRenumbering_id (h : Heap) : IsRenumbering id h h := by
  refine ⟨rfl, rfl, fun _ => id, fun _ _ _ _ => id, by simp, by simp, .of_eq ?_⟩
  rw [Summary.map_id, List.map_id]

theorem Isomorphic.symm (hg : g.InRange) (hgh : Isomorphic g h) : Isomorphic h g := by
  obtain ⟨f, hf⟩ := hgh
  -- The inverse reads the position of a node among the images of the nodes of `g`.
  have hnodup : (g.nodes.map f).Nodup :=
    (map_nodes_perm hf.size hf.lt hf.inj).nodup_iff.2 nodup_range
  have hinv : ∀ v < g.size, (g.nodes.map f).idxOf (f v) = v := by
    intro v hv
    have hv' : v < (g.nodes.map f).length := by simpa [nodes] using hv
    simpa [nodes] using hnodup.idxOf_getElem v hv'
  refine ⟨(g.nodes.map f).idxOf, hf.size.symm, ?_, ?_, ?_, ?_, ?_, ?_⟩
  · simpa [hf.null] using hinv Node.null hg.pos
  · intro w hw
    obtain ⟨v, hv, rfl⟩ := hf.surj hw
    rwa [hinv v hv]
  · intro w hw w' hw' heq
    obtain ⟨v, hv, rfl⟩ := hf.surj hw
    obtain ⟨v', hv', rfl⟩ := hf.surj hw'
    rw [hinv v hv, hinv v' hv'] at heq
    rw [heq]
  · intro w hw sel
    obtain ⟨v, hv, rfl⟩ := hf.surj hw
    rw [hinv v hv, hf.selector v hv]
    cases hsel : g.selector? v sel with
    | none => rfl
    | some u => simp [hinv u (hg.selector v sel u hsel)]
  · intro x
    rw [hf.var]
    cases hx : g.var? x with
    | none => rfl
    | some u => simp [hinv u (hg.var x u hx)]
  · refine (hf.summaries.symm.map _).trans (.of_eq ?_)
    rw [List.map_map]
    refine (map_congr_left fun e he => ?_).trans (List.map_id _)
    rw [Function.comp, Summary.map_map]
    exact Summary.map_eq_self fun v hv => hinv v (hg.ends e he v hv)

theorem Isomorphic.inRange (hgh : Isomorphic g h) (hg : g.InRange) : h.InRange :=
  let ⟨_, hf⟩ := hgh
  hf.inRange hg

theorem exists_leftInverse {n : Nat} (hf : ∀ v < n, ∀ w < n, f v = f w → v = w) :
    ∃ r : Node → Node, ∀ v < n, r (f v) = v := by
  have hback (w : Node) : ∃ u, ∀ v < n, f v = w → v = u := by
    by_cases hw : ∃ u < n, f u = w
    · obtain ⟨u, hu, rfl⟩ := hw
      exact ⟨u, fun v hv => hf v hv u hu⟩
    · exact ⟨w, fun v hv heq => absurd ⟨v, hv, heq⟩ hw⟩
  choose r hr using hback
  exact ⟨r, fun v hv => (hr (f v) v hv rfl).symm⟩

/-- Two heaps whose nodes are placed one to one at the same nodes are isomorphic, if the placements
agree on all that the heaps consist of. -/
theorem isomorphic_of_placements {p q : Node → Node} (hh : h.InRange)
    (hp : ∀ v < g.size, ∀ w < g.size, p v = p w → v = w)
    (hq : ∀ v < h.size, ∀ w < h.size, q v = q w → v = w)
    (himage : ∀ u, (∃ v < g.size, p v = u) ↔ ∃ w < h.size, q w = u)
    (hnull : p Node.null = q Node.null)
    (hselector : ∀ v < g.size, ∀ w < h.size, p v = q w →
      ∀ sel, (g.selector? v sel).map p = (h.selector? w sel).map q)
    (hvar : ∀ x, (g.var? x).map p = (h.var? x).map q)
    (hsummaries : (g.summaries.map (Summary.map p)).Perm (h.summaries.map (Summary.map q))) :
    Isomorphic g h := by
  obtain ⟨r, hr⟩ := exists_leftInverse hq
  have hpair {v} (hv : v < g.size) : r (p v) < h.size ∧ q (r (p v)) = p v := by
    obtain ⟨w, hw, heq⟩ := (himage (p v)).1 ⟨v, hv, rfl⟩
    rw [← heq, hr w hw]
    exact ⟨hw, rfl⟩
  have hinj : ∀ v < g.size, ∀ w < g.size, r (p v) = r (p w) → v = w := fun v hv w hw heq =>
    hp v hv w hw (by rw [← (hpair hv).2, heq, (hpair hw).2])
  have hback {o : Option Node} (ho : ∀ w, o = some w → w < h.size) : (o.map q).map r = o := by
    cases o with
    | none => rfl
    | some w => exact congrArg some (hr w (ho w rfl))
  refine ⟨r ∘ p, ?_, ?_, fun v hv => (hpair hv).1, hinj, fun v hv sel => ?_, fun x => ?_, ?_⟩
  · have hnodes : (g.nodes.map (r ∘ p)).Perm h.nodes := by
      refine (perm_ext_iff_of_nodup (nodup_range.map_on fun v hv w hw =>
        hinj v (mem_nodes.1 hv) w (mem_nodes.1 hw)) nodup_range).2 fun w => ⟨fun hw => ?_, ?_⟩
      · obtain ⟨v, hv, rfl⟩ := mem_map.1 hw
        exact mem_nodes.2 (hpair (mem_nodes.1 hv)).1
      · intro hw
        have hw := mem_nodes.1 hw
        obtain ⟨v, hv, heq⟩ := (himage (q w)).2 ⟨w, hw, rfl⟩
        exact mem_map.2 ⟨v, mem_nodes.2 hv, (congrArg r heq).trans (hr w hw)⟩
    simpa [nodes] using hnodes.length_eq
  · exact (congrArg r hnull).trans (hr Node.null hh.pos)
  · have hsame := congrArg (Option.map r) (hselector v hv _ (hpair hv).1 (hpair hv).2.symm sel)
    rw [hback fun w hw => hh.selector _ sel w hw, Option.map_map] at hsame
    exact hsame.symm
  · have hsame := congrArg (Option.map r) (hvar x)
    rw [hback fun w hw => hh.var x w hw, Option.map_map] at hsame
    exact hsame.symm
  · have hsame := hsummaries.map (Summary.map r)
    rw [List.map_map, List.map_map] at hsame
    refine .trans (.of_eq (map_congr_left fun e _ => Summary.map_map.symm)) (hsame.trans
      (.of_eq ((map_congr_left fun e he => ?_).trans (List.map_id _))))
    rw [Function.comp, Summary.map_map]
    exact Summary.map_eq_self fun w hw => hr w (hh.ends e he w hw)

theorem InRange.inRange_normalize (hh : h.InRange) : h.normalize.InRange := by
  refine inRange_relabel fun hnil => ?_
  have hhead := hh.head?_canonicalOrder
  rw [hnil] at hhead
  cases hhead

theorem InRange.isRenumbering_normalize (hh : h.InRange) :
    IsRenumbering (nodeAt h.canonicalOrder) h.normalize h := by
  have hmem : ∀ v, v ∈ h.canonicalOrder ↔ v < h.size := fun v => hh.mem_canonicalOrder_iff
  have hpart : IsPart (nodeAt h.canonicalOrder) h.normalize h :=
    isPart_relabel hh.nodup_canonicalOrder hh.head?_canonicalOrder (fun v => (hmem v).1)
      (fun v _ w hw => (hmem w).2 (hh.lt_of_mem_successors hw))
      (fun x v hv => (hmem v).2 (hh.var x v hv))
  have hperm : h.canonicalOrder.Perm h.nodes :=
    (perm_ext_iff_of_nodup hh.nodup_canonicalOrder nodup_range).2 fun v => by
      rw [hmem, mem_range]
  exact hpart.isRenumbering hh (by simpa [normalize, nodes] using hperm.length_eq)

theorem InRange.isomorphic_normalize (hh : h.InRange) : Isomorphic h h.normalize :=
  Isomorphic.symm hh.inRange_normalize ⟨_, hh.isRenumbering_normalize⟩

variable {p : Node → Bool}

theorem head?_filter_nodes (hh : h.InRange) (hp : p Node.null) :
    (h.nodes.filter p).head? = some Node.null := by
  obtain ⟨n, hn⟩ := Nat.exists_eq_succ_of_ne_zero (Nat.ne_of_gt hh.pos)
  rw [nodes, hn, range_succ_eq_map, filter_cons_of_pos (a := 0) hp]
  rfl

/-- Keeping the nodes that satisfy `p` keeps a closed part, if `p` holds of null and of what a
variable names, and steps keep it. -/
theorem InRange.isPart_filter (hh : h.InRange) (hp : p Node.null)
    (hclosed : ∀ v, p v → ∀ w ∈ h.successors v, p w) (hvar : ∀ x v, h.var? x = some v → p v) :
    IsPart (nodeAt (h.nodes.filter p)) (h.relabel (h.nodes.filter p)) h := by
  refine isPart_relabel (nodup_range.filter p) (head?_filter_nodes hh hp) ?_ ?_ ?_
  · intro v hv
    exact mem_nodes.1 (mem_of_mem_filter hv)
  · intro v hv w hw
    exact mem_filter.2 ⟨mem_nodes.2 (hh.lt_of_mem_successors hw),
      hclosed v (mem_filter.1 hv).2 w hw⟩
  · intro x v hv
    exact mem_filter.2 ⟨mem_nodes.2 (hh.var x v hv), hvar x v hv⟩

/-- The nodes of a heap that was relabelled along a list are placed at the nodes of the list. -/
theorem exists_nodeAt_iff :
    (∃ u < (h.relabel (h.nodes.filter p)).size, nodeAt (h.nodes.filter p) u = v) ↔
      v < h.size ∧ p v := by
  rw [← mem_nodes, ← mem_filter, size_relabel]
  constructor
  · rintro ⟨u, hu, rfl⟩
    exact nodeAt_mem hu
  · intro hv
    exact ⟨_, idxOf_lt_length_of_mem hv, nodeAt_idxOf hv⟩

theorem InRange.inRange_relabel_filter (hh : h.InRange) (hp : p Node.null) :
    (h.relabel (h.nodes.filter p)).InRange := by
  refine inRange_relabel fun hnil => ?_
  have hhead := head?_filter_nodes hh hp
  rw [hnil] at hhead
  cases hhead

theorem InRange.inRange_dropNodes (hh : h.InRange) (dead : List Bool) :
    (h.dropNodes dead).InRange := by
  rw [dropNodes]
  split
  · exact hh.inRange_relabel_filter (by simp)
  · exact hh

theorem InRange.isPart_dropNodes (hh : h.InRange) {dead : List Bool}
    (hclosed : ∀ v, ∀ w ∈ h.successors v, dead[w]?.getD false = false)
    (hvar : ∀ x v, h.var? x = some v → dead[v]?.getD false = false) :
    ∃ f, IsPart f (h.dropNodes dead) h ∧ ∀ v, (∃ u < (h.dropNodes dead).size, f u = v) ↔
      v < h.size ∧ (v = Node.null ∨ dead[v]?.getD false = false) := by
  rw [dropNodes]
  split
  · refine ⟨_, hh.isPart_filter (by simp) ?_ ?_, fun v => exists_nodeAt_iff.trans (by simp)⟩
    · intro v _ w hw
      rw [hclosed v w hw, Bool.not_false, Bool.or_true]
    · intro x v hv
      rw [hvar x v hv, Bool.not_false, Bool.or_true]
  · next hdead =>
    refine ⟨id, (isRenumbering_id h).isPart hh, fun v => ?_⟩
    have hv : dead[v]?.getD false = false := by
      cases hv : dead[v]? with
      | none => rfl
      | some b =>
        refine Bool.eq_false_iff.2 fun hb => hdead ?_
        exact any_eq_true.2 ⟨b, mem_of_getElem? hv, hb⟩
    simp [hv]

theorem InRange.inRange_collect (hh : h.InRange) : h.collect.InRange := by
  rw [collect]
  split
  · exact hh
  · exact hh.inRange_relabel_filter (by simpa using hh.mem_reach_roots_iff.2 .null)

theorem InRange.isPart_collect (hh : h.InRange) :
    ∃ f, IsPart f h.collect h ∧ ∀ v, h.IsLive v ↔ ∃ u < h.collect.size, f u = v := by
  have hmem : ∀ v, decide (v ∈ h.reach h.roots) = true ↔ h.IsLive v := by
    simp [hh.mem_reach_roots_iff]
  rw [collect]
  split
  · next hall =>
    refine ⟨id, (isRenumbering_id h).isPart hh, fun v => ?_⟩
    simp only [id, exists_eq_right]
    refine ⟨hh.lt_of_isLive, fun hv => ?_⟩
    exact (hmem v).1 (all_eq_true.1 hall v (mem_nodes.2 hv))
  · refine ⟨_, hh.isPart_filter ?_ ?_ ?_, fun v => ?_⟩
    · exact (hmem _).2 .null
    · intro v hv w hw
      exact (hmem w).2 (((hmem v).1 hv).tail hw)
    · intro x v hv
      exact (hmem v).2 (.var hv)
    · rw [exists_nodeAt_iff, hmem]
      exact ⟨fun hv => ⟨hh.lt_of_isLive hv, hv⟩, And.right⟩

end Heap

end ShapeCheck
