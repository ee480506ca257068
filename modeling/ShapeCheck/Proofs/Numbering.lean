import ShapeCheck.Proofs.Renumber
import Mathlib.Data.List.Pairwise

/-!
# Canonical numbering is canonical

The canonical order of a heap does not depend on how its nodes are numbered, as far as it is found
by following selectors and summaries: a placement of one heap in another carries the sweep of the one
to the sweep of the other. For the summaries that start at one node this needs that their labels, or
else the numbers of their ends, tell them apart. Hence heaps all of whose nodes are live have the same
normal form exactly if they are isomorphic.
-/

namespace ShapeCheck

open Std

section Sorting

variable {α β : Type} {cmp : α → α → Ordering} {cmp' : β → β → Ordering} {l m : List α}

theorem sortBy_eq_of_perm_of_inj [TransCmp cmp] (hperm : l.Perm m)
    (hinj : ∀ a ∈ l, ∀ b ∈ l, cmp a b = .eq → a = b) : sortBy cmp l = sortBy cmp m := by
  have hsorted : (sortBy cmp l).Perm (sortBy cmp m) :=
    (sortBy_perm cmp l).trans (hperm.trans (sortBy_perm cmp m).symm)
  refine hsorted.eq_of_pairwise (fun a b ha hb hab hba => ?_) (sortBy_pairwise cmp l)
    (sortBy_pairwise cmp m)
  have ha : a ∈ l := (sortBy_perm cmp l).mem_iff.1 ha
  have hb : b ∈ l := hperm.mem_iff.2 ((sortBy_perm cmp m).mem_iff.1 hb)
  exact hinj a ha b hb (OrientedCmp.isLE_antisymm hab hba)

theorem sortBy_map {f : α → β} (hcmp : ∀ a ∈ l, ∀ b ∈ l, cmp' (f a) (f b) = cmp a b) :
    sortBy cmp' (l.map f) = (sortBy cmp l).map f := by
  have hinsert (a : α) (l : List α) (ha : ∀ b ∈ l, cmp' (f a) (f b) = cmp a b) :
      insertBy cmp' (f a) (l.map f) = (insertBy cmp a l).map f := by
    induction l with
    | nil => rfl
    | cons b l ih =>
      rw [List.map_cons, insertBy, insertBy, ha b List.mem_cons_self,
        ih fun c hc => ha c (List.mem_cons_of_mem _ hc)]
      split <;> rfl
  induction l with
  | nil => rfl
  | cons a l ih =>
    have hsort : sortBy cmp' (l.map f) = (sortBy cmp l).map f :=
      ih fun b hb c hc => hcmp b (List.mem_cons_of_mem _ hb) c (List.mem_cons_of_mem _ hc)
    have hstep : sortBy cmp' ((a :: l).map f) = insertBy cmp' (f a) (sortBy cmp' (l.map f)) := rfl
    rw [hstep, hsort, hinsert]
    · rfl
    · intro b hb
      have hb : b ∈ l := (sortBy_perm cmp l).mem_iff.1 hb
      exact hcmp a List.mem_cons_self b (List.mem_cons_of_mem _ hb)

theorem insertBy_eq_cons {a : α} (ha : ∀ b ∈ l, (cmp a b).isLE) : insertBy cmp a l = a :: l := by
  cases l with
  | nil => rfl
  | cons b l =>
    have hne : cmp a b ≠ .gt := Ordering.isLE_iff_ne_gt.1 (ha b List.mem_cons_self)
    rw [insertBy, if_neg hne]

theorem sortBy_eq_self (hl : l.Pairwise fun a b => (cmp a b).isLE) : sortBy cmp l = l := by
  induction hl with
  | nil => rfl
  | @cons a l ha _ ih =>
    have hstep : sortBy cmp (a :: l) = insertBy cmp a (sortBy cmp l) := rfl
    rw [hstep, ih, insertBy_eq_cons ha]

end Sorting

section Visit

variable {f : Node → Node} {n : Nat} {order vs : List Node} {v : Node}
  (hinj : ∀ v < n, ∀ w < n, f v = f w → v = w)

include hinj

theorem map_mem_map_iff (horder : ∀ v ∈ order, v < n) (hv : v < n) :
    f v ∈ order.map f ↔ v ∈ order := by
  refine ⟨fun hmem => ?_, List.mem_map_of_mem⟩
  obtain ⟨w, hw, heq⟩ := List.mem_map.1 hmem
  exact hinj w (horder w hw) v hv heq ▸ hw

theorem idxOf_map (horder : ∀ v ∈ order, v < n) (hv : v < n) :
    (order.map f).idxOf (f v) = order.idxOf v := by
  induction order with
  | nil => rfl
  | cons u order ih =>
    obtain ⟨hu, horder⟩ := List.forall_mem_cons.1 horder
    have hbeq : (f u == f v) = (u == v) := by
      rw [beq_eq_decide, beq_eq_decide, decide_eq_decide]
      exact ⟨hinj u hu v hv, fun heq => heq ▸ rfl⟩
    rw [List.map_cons, List.idxOf_cons, List.idxOf_cons, hbeq, ih horder]

theorem idxOf?_map (horder : ∀ v ∈ order, v < n) (hv : v < n) :
    (order.map f).idxOf? (f v) = order.idxOf? v := by
  rw [idxOf?_eq, idxOf?_eq, idxOf_map hinj horder hv]
  simp only [map_mem_map_iff hinj horder hv]

theorem visitAll_map (horder : ∀ v ∈ order, v < n) (hvs : ∀ v ∈ vs, v < n) :
    visitAll (order.map f) (vs.map f) = (visitAll order vs).map f := by
  induction vs generalizing order with
  | nil => rfl
  | cons v vs ih =>
    obtain ⟨hv, hvs⟩ := List.forall_mem_cons.1 hvs
    have hvisit : visit (order.map f) (f v) = (visit order v).map f := by
      rw [visit, visit]
      simp only [map_mem_map_iff hinj horder hv]
      split
      · rfl
      · rw [List.map_append, List.map_singleton]
    have hlt : ∀ w ∈ visit order v, w < n := by
      intro w hw
      rcases mem_visit.1 hw with hw | rfl
      · exact horder w hw
      · exact hv
    have hcons : visitAll (order.map f) ((v :: vs).map f) =
        visitAll (visit (order.map f) (f v)) (vs.map f) := rfl
    rw [hcons, hvisit, ih hlt hvs]
    rfl

end Visit

theorem visitAll_eq_self {order vs : List Node} (hvs : ∀ v ∈ vs, v ∈ order) :
    visitAll order vs = order := by
  induction vs with
  | nil => rfl
  | cons v vs ih =>
    obtain ⟨hv, hvs⟩ := List.forall_mem_cons.1 hvs
    have hcons : visitAll order (v :: vs) = visitAll (visit order v) vs := rfl
    rw [hcons, visit, if_pos hv, ih hvs]

theorem visitAll_range {k n : Nat} (hkn : k ≤ n) :
    visitAll (List.range k) (List.range n) = List.range n := by
  have hlast (order vs : List Node) (v : Node) :
      visitAll order (vs ++ [v]) = visit (visitAll order vs) v := List.foldl_append
  obtain ⟨m, rfl⟩ := Nat.exists_eq_add_of_le hkn
  induction m with
  | zero => exact visitAll_eq_self fun v => id
  | succ m ih =>
    rw [Nat.add_succ, List.range_succ, hlast, ih (Nat.le_add_right k m), visit,
      if_neg List.not_mem_range_self]

namespace Heap

variable {f : Node → Node} {g h k : Heap} {order : List Node} {v : Node}

/-- No two summaries of one label start at the same node. -/
def IsLabelled (h : Heap) : Prop :=
  h.summaries.Pairwise fun e e' =>
    e.source?.isSome → e.source? = e'.source? → e.label ≠ e'.label

instance (h : Heap) : Decidable h.IsLabelled :=
  inferInstanceAs (Decidable (List.Pairwise _ _))

theorem IsLabelled.eq_of_label_eq (hh : h.IsLabelled) {e e' : Summary}
    (he : e ∈ h.summaries.filter (·.source? = some v))
    (he' : e' ∈ h.summaries.filter (·.source? = some v)) (hlabel : e.label = e'.label) :
    e = e' := by
  have hpair : (h.summaries.filter (·.source? = some v)).Pairwise fun e e' =>
      e.label ≠ e'.label := by
    refine (List.Pairwise.filter _ hh).imp_of_mem fun {a b} ha hb hne => ?_
    have ha : a.source? = some v := by simpa using (List.mem_filter.1 ha).2
    have hb : b.source? = some v := by simpa using (List.mem_filter.1 hb).2
    exact hne (by rw [ha]; rfl) (ha.trans hb.symm)
  have hsymm : Std.Symm fun e e' : Summary => e.label ≠ e'.label := ⟨fun _ _ hne => hne.symm⟩
  by_contra hne
  exact hpair.forall he he' hne hlabel

/-- Summaries that start at the same node have different labels or different numbers of ends. -/
def IsApart (h : Heap) : Prop :=
  ∀ e ∈ h.summaries, ∀ e' ∈ h.summaries, ∀ v, e.source? = some v → e'.source? = some v →
    e.label = e'.label → e.ends.length = e'.ends.length → e = e'

theorem IsLabelled.isApart (hh : h.IsLabelled) : h.IsApart := by
  intro e he e' he' v hv hv' hlabel _
  exact hh.eq_of_label_eq (List.mem_filter.2 ⟨he, decide_eq_true hv⟩)
    (List.mem_filter.2 ⟨he', decide_eq_true hv'⟩) hlabel

theorem values_filterMap {κ α β : Type} [Ord κ] (m : SortedMap κ α) (f : α → β) :
    (m.filterMap fun a => some (f a)).values = m.values.map f := by
  simp [SortedMap.values, SortedMap.filterMap, Function.comp_def]

namespace IsPart

variable (hf : IsPart f g h)

include hf

theorem cell_eq (hv : v < g.size) : h.cell (f v) = (g.cell v).filterMap fun w => some (f w) := by
  refine SortedMap.ext fun sel => ?_
  rw [SortedMap.find?_filterMap]
  refine (hf.selector v hv sel).trans ?_
  rw [Option.map_eq_bind]
  rfl

theorem vars_eq : h.vars = g.vars.filterMap fun w => some (f w) := by
  refine SortedMap.ext fun x => ?_
  rw [SortedMap.find?_filterMap]
  refine (hf.var x).trans ?_
  rw [Option.map_eq_bind]
  rfl

theorem roots_eq : h.roots = g.roots.map f := by
  rw [roots, hf.vars_eq, values_filterMap, roots, List.map_cons, hf.null]

theorem numberFrom_map (hg : g.InRange) (hapart : g.IsApart)
    (horder : ∀ v ∈ order, v < g.size) (hv : v < g.size) :
    h.numberFrom (order.map f) (f v) = (g.numberFrom order v).map f := by
  have hvalues : ∀ w ∈ (g.cell v).values, w < g.size := fun w hw => hg.lt_of_mem_values hw
  have hcell : visitAll (order.map f) (h.cell (f v)).values =
      (visitAll order (g.cell v).values).map f := by
    rw [hf.cell_eq hv, values_filterMap, visitAll_map hf.inj horder hvalues]
  rw [numberFrom, numberFrom, hcell]
  have hseen : ∀ w ∈ visitAll order (g.cell v).values, w < g.size := fun w hw =>
    (mem_visitAll.1 hw).elim (horder w) (hvalues w)
  generalize visitAll order (g.cell v).values = seen at hseen
  have hmem {e} (he : e ∈ g.summaries.filter (·.source? = some v)) : ∀ w ∈ e.ends, w < g.size :=
    hg.ends e (List.mem_of_mem_filter he)
  have hkey {e} (he : e ∈ g.summaries.filter (·.source? = some v)) :
      summaryKey (seen.map f) (e.map f) = summaryKey seen e := by
    rw [summaryKey, summaryKey, Summary.map, List.map_map]
    refine congrArg (e.label, ·) (List.map_congr_left fun w hw => ?_)
    exact idxOf_map hf.inj hseen (hmem he w hw)
  -- no two keys are equal, so the order in which the summaries are listed does not matter
  have hsort : sortBy (viaView (summaryKey (seen.map f)) (lexPair compare compare))
      (h.summaries.filter (·.source? = some (f v))) =
        (sortBy (viaView (summaryKey seen) (lexPair compare compare))
          (g.summaries.filter (·.source? = some v))).map (Summary.map f) := by
    have := transCmp_viaView (summaryKey (seen.map f))
      (lexPair (compare (α := String)) (compare (α := List Nat)))
    refine Eq.trans (sortBy_eq_of_perm_of_inj (hf.filter_source?_perm hg hv) ?_).symm
      (sortBy_map fun e he e' he' => by rw [viaView, viaView, hkey he, hkey he'])
    intro a ha b hb heq
    obtain ⟨e, he, rfl⟩ := List.mem_map.1 ha
    obtain ⟨e', he', rfl⟩ := List.mem_map.1 hb
    have hsame := @LawfulEqCmp.eq_of_compare _ (lexPair compare compare) _ _ _ heq
    obtain ⟨he, hsource⟩ := List.mem_filter.1 he
    obtain ⟨he', hsource'⟩ := List.mem_filter.1 he'
    have hlength : e.ends.length = e'.ends.length := by
      simpa [summaryKey, Summary.map] using congrArg (fun key => key.2.length) hsame
    rw [hapart e he e' he' v (of_decide_eq_true hsource) (of_decide_eq_true hsource')
      (congrArg Prod.fst hsame) hlength]
  have htargets (l : List Summary) :
      (l.map (Summary.map f)).flatMap Summary.targets = (l.flatMap Summary.targets).map f := by
    rw [List.flatMap_map, List.map_flatMap]
    exact congrArg (l.flatMap ·) (funext fun e => List.map_tail.symm)
  rw [hsort, htargets, visitAll_map hf.inj hseen]
  intro w hw
  obtain ⟨e, he, hw⟩ := List.mem_flatMap.1 hw
  exact hmem ((sortBy_perm _ _).mem_iff.1 he) w (List.mem_of_mem_tail hw)

theorem sweep_map (hg : g.InRange) (hapart : g.IsApart) (steps cursor : Nat)
    (horder : ∀ v ∈ order, v < g.size) :
    sweep h.numberFrom steps cursor (order.map f) =
      (sweep g.numberFrom steps cursor order).map f := by
  induction steps generalizing cursor order with
  | zero => rfl
  | succ steps ih =>
    rw [sweep, sweep, List.getElem?_map]
    cases hv : order[cursor]? with
    | none => rfl
    | some v =>
      have hlt : v < g.size := horder v (List.mem_of_getElem? hv)
      have hnext : ∀ w ∈ g.numberFrom order v, w < g.size := fun w hw =>
        ((isVisiting_numberFrom.mem _ _ _).1 hw).elim (horder w) hg.lt_of_mem_successors
      exact (congrArg _ (hf.numberFrom_map hg hapart horder hlt)).trans (ih (cursor + 1) hnext)

theorem relabel_map (hg : g.InRange) (horder : ∀ v ∈ order, v < g.size) :
    h.relabel (order.map f) = g.relabel order := by
  have hread {κ : Type} [Ord κ] [TransOrd κ] [LawfulEqOrd κ] (m : SortedMap κ Node)
      (hm : ∀ k v, m.find? k = some v → v < g.size) :
      (m.filterMap fun w => some (f w)).filterMap (order.map f).idxOf? =
        m.filterMap order.idxOf? := by
    refine SortedMap.ext fun k => ?_
    rw [SortedMap.find?_filterMap, SortedMap.find?_filterMap, SortedMap.find?_filterMap]
    cases hk : m.find? k with
    | none => rfl
    | some v => exact idxOf?_map hf.inj horder (hm k v hk)
  have hcells : (order.map f).map (fun w => (h.cell w).filterMap (order.map f).idxOf?) =
      order.map fun v => (g.cell v).filterMap order.idxOf? := by
    rw [List.map_map]
    refine List.map_congr_left fun v hv => ?_
    rw [Function.comp, hf.cell_eq (horder v hv), hread _ fun sel w => hg.selector v sel w]
  have hkept (e : Summary) (he : e.relabel (order.map f) ≠ none) :
      e.ends.all (· ∈ g.nodes.map f) := by
    rw [Summary.relabel_eq, ne_eq, ite_eq_right_iff, not_forall] at he
    refine List.all_eq_true.2 fun v hv => ?_
    have hmem : v ∈ order.map f := by simpa using List.all_eq_true.1 he.1 v hv
    obtain ⟨u, hu, rfl⟩ := List.mem_map.1 hmem
    exact decide_eq_true (List.mem_map_of_mem (mem_nodes.2 (horder u hu)))
  -- what touches a node outside the part is dropped, so the summaries of the part are all that counts
  have hpart : h.summaries.filterMap (Summary.relabel (order.map f)) =
      (h.summaries.filter fun e => e.ends.all (· ∈ g.nodes.map f)).filterMap
        (Summary.relabel (order.map f)) := by
    rw [List.filterMap_filter]
    refine List.filterMap_congr fun e _ => ?_
    split
    · rfl
    · next hout => exact by_contra fun hne => hout (hkept e hne)
  have hsummaries : sortBy compare (h.summaries.filterMap (Summary.relabel (order.map f))) =
      sortBy compare (g.summaries.filterMap (Summary.relabel order)) := by
    rw [hpart]
    refine sortBy_eq_of_perm compare ((hf.summaries.symm.filterMap _).trans (.of_eq ?_))
    rw [List.filterMap_map]
    refine List.filterMap_congr fun e he => ?_
    have hends : ∀ v ∈ e.ends, v < g.size := hg.ends e he
    have hall : (e.map f).ends.all (· ∈ order.map f) = e.ends.all (· ∈ order) := by
      rw [Summary.map, List.all_map, Bool.eq_iff_iff, List.all_eq_true, List.all_eq_true]
      refine forall₂_congr fun v hv => ?_
      simp only [Function.comp, decide_eq_true_eq, map_mem_map_iff hf.inj horder (hends v hv)]
    have hmap : (e.map f).map (order.map f).idxOf = e.map order.idxOf := by
      rw [Summary.map_map]
      exact Summary.map_congr fun v hv => idxOf_map hf.inj horder (hends v hv)
    rw [Function.comp, Summary.relabel_eq, Summary.relabel_eq, hall, hmap]
  rw [relabel, hcells, hsummaries, hf.vars_eq, hread _ hg.var]
  rfl

theorem sweep_roots_eq (hg : g.InRange) (hapart : g.IsApart) :
    sweep h.numberFrom h.size 0 (visitAll [] h.roots) =
      (sweep g.numberFrom g.size 0 (visitAll [] g.roots)).map f := by
  have hroots : ∀ v ∈ g.roots, v < g.size := fun v hv => hg.lt_of_isLive ⟨v, hv, .refl⟩
  have hstart : visitAll [] h.roots = (visitAll [] g.roots).map f := by
    rw [hf.roots_eq]
    exact visitAll_map hf.inj (List.forall_mem_nil _) hroots
  have hswept := hg.isSwept_numberFrom
  obtain ⟨m, hm⟩ := Nat.exists_eq_add_of_le hf.size_le
  rw [hstart, hf.sweep_map hg hapart h.size 0, hm,
    sweep_add m (length_le_of_nodup hswept.nodup hswept.lt)]
  exact fun v hv => hroots v ((mem_visitAll.1 hv).resolve_left (by simp))

end IsPart

namespace IsRenumbering

variable (hf : IsRenumbering f g h)

include hf

/-- A renumbering carries the canonical order of one heap to that of the other, if all nodes are
live. -/
theorem canonicalOrder_map (hg : g.InRange) (hapart : g.IsApart)
    (hlive : ∀ v < g.size, g.IsLive v) : h.canonicalOrder = g.canonicalOrder.map f := by
  have hpart := hf.isPart (hf.inRange hg)
  have hall : ∀ v < g.size, v ∈ sweep g.numberFrom g.size 0 (visitAll [] g.roots) := by
    intro v hv
    obtain ⟨r, hr, hrv⟩ := hlive v hv
    exact hg.isSwept_numberFrom.mem_iff.2 ⟨r, mem_visitAll.2 (.inr hr), hrv⟩
  rw [canonicalOrder, canonicalOrder, hpart.sweep_roots_eq hg hapart,
    visitAll_eq_self fun v hv => hall v (mem_nodes.1 hv), visitAll_eq_self fun w hw => ?_]
  obtain ⟨v, hv, rfl⟩ := hf.surj (mem_nodes.1 hw)
  exact List.mem_map_of_mem (hall v hv)

theorem trans {f' : Node → Node} (hf' : IsRenumbering f' h k) :
    IsRenumbering (f' ∘ f) g k where
  size := hf.size.trans hf'.size
  null := (congrArg f' hf.null).trans hf'.null
  lt v hv := hf'.lt _ (hf.lt v hv)
  inj v hv w hw heq := hf.inj v hv w hw (hf'.inj _ (hf.lt v hv) _ (hf.lt w hw) heq)
  selector v hv sel := by
    rw [Function.comp, hf'.selector _ (hf.lt v hv), hf.selector v hv, Option.map_map]
  var x := by rw [hf'.var, hf.var, Option.map_map]
  summaries := by
    refine (List.Perm.of_eq ?_).trans ((hf.summaries.map (Summary.map f')).trans hf'.summaries)
    rw [List.map_map]
    exact List.map_congr_left fun e _ => Summary.map_map.symm

end IsRenumbering

theorem Isomorphic.trans (hgh : Isomorphic g h) (hhk : Isomorphic h k) : Isomorphic g k := by
  obtain ⟨f, hf⟩ := hgh
  obtain ⟨f', hf'⟩ := hhk
  exact ⟨f' ∘ f, hf.trans hf'⟩

theorem Isomorphic.normalize_eq_of_isApart (hgh : Isomorphic g h) (hg : g.InRange)
    (hapart : g.IsApart) (hlive : ∀ v < g.size, g.IsLive v) : g.normalize = h.normalize := by
  obtain ⟨f, hf⟩ := hgh
  rw [normalize, normalize, hf.canonicalOrder_map hg hapart hlive,
    (hf.isPart (hf.inRange hg)).relabel_map hg]
  exact fun v hv => hg.mem_canonicalOrder_iff.1 hv

theorem Isomorphic.normalize_eq (hgh : Isomorphic g h) (hg : g.InRange) (hlabels : g.IsLabelled)
    (hlive : ∀ v < g.size, g.IsLive v) : g.normalize = h.normalize :=
  hgh.normalize_eq_of_isApart hg hlabels.isApart hlive

theorem InRange.isomorphic_of_normalize_eq (hg : g.InRange) (hh : h.InRange)
    (heq : g.normalize = h.normalize) : Isomorphic g h :=
  hg.isomorphic_normalize.trans (heq ▸ ⟨_, hh.isRenumbering_normalize⟩)

/-- Equal normal forms are isomorphic heaps; and isomorphic heaps have equal normal forms if all their
nodes are live and the labels of summaries tell them apart. -/
theorem normalize_eq_iff_isomorphic (g h : Heap) (hg : g.InRange) (hh : h.InRange) :
    (g.normalize = h.normalize → Isomorphic g h) ∧
      ((∀ v < g.size, g.IsLive v) → g.IsLabelled →
        (g.normalize = h.normalize ↔ Isomorphic g h)) :=
  ⟨hg.isomorphic_of_normalize_eq hh, fun hlive hlabels =>
    ⟨hg.isomorphic_of_normalize_eq hh, fun hiso => hiso.normalize_eq hg hlabels hlive⟩⟩

/-- A list and a tree that share their end, with the nodes in the order they were made. -/
def sharedEnd : Heap :=
  ⟨[∅, .ofList [("left", 2), ("next", 3)], ∅, ∅], .ofList [("x", 1)],
    [⟨"SLL", [3, 2]⟩, ⟨"Tree", [3, 1, 2]⟩, ⟨"SLL", [1, 0]⟩]⟩

/-- The same heap with the nodes made in another order. -/
def sharedEndRenumbered : Heap :=
  ⟨[∅, ∅, ∅, .ofList [("left", 1), ("next", 2)]], .ofList [("x", 3)],
    [⟨"Tree", [2, 3, 1]⟩, ⟨"SLL", [3, 0]⟩, ⟨"SLL", [2, 1]⟩]⟩

theorem normalize_eq_iff_isomorphic_sharedEnd :
    sharedEnd.InRange ∧ sharedEndRenumbered.InRange ∧ (∀ v < sharedEnd.size, sharedEnd.IsLive v) ∧
      sharedEnd.IsLabelled ∧ Isomorphic sharedEnd sharedEndRenumbered ∧
      (sharedEnd.normalize = sharedEndRenumbered.normalize ↔
        Isomorphic sharedEnd sharedEndRenumbered) := by
  have hg : sharedEnd.InRange := by decide +kernel
  have hh : sharedEndRenumbered.InRange := by decide +kernel
  have hlive : ∀ v < sharedEnd.size, sharedEnd.IsLive v := by
    have hreach : ∀ v < sharedEnd.size, v ∈ sharedEnd.reach sharedEnd.roots := by decide +kernel
    exact fun v hv => hg.mem_reach_roots_iff.1 (hreach v hv)
  have hlabels : sharedEnd.IsLabelled := by decide +kernel
  have hiff := normalize_eq_iff_isomorphic sharedEnd sharedEndRenumbered hg hh
  have heq : sharedEnd.normalize = sharedEndRenumbered.normalize := by decide +kernel
  exact ⟨hg, hh, hlive, hlabels, hiff.1 heq, hiff.2 hlive hlabels⟩

theorem relabel_range (hh : h.InRange)
    (hsorted : h.summaries.Pairwise fun e e' => (compare e e').isLE) :
    h.relabel (List.range h.size) = h := by
  have hidx {v} (hv : v < h.size) : (List.range h.size).idxOf? v = some v := by
    have hmem : v ∈ List.range h.size := List.mem_range.2 hv
    have hget : (List.range h.size).idxOf v = v := by
      have hlt : v < (List.range h.size).length := by simpa using hv
      simpa using List.nodup_range.idxOf_getElem v hlt
    rw [idxOf?_eq, if_pos hmem, hget]
  have hread {κ : Type} [Ord κ] [TransOrd κ] [LawfulEqOrd κ] (m : SortedMap κ Node)
      (hm : ∀ k v, m.find? k = some v → v < h.size) :
      m.filterMap (List.range h.size).idxOf? = m := by
    refine SortedMap.ext fun k => ?_
    rw [SortedMap.find?_filterMap]
    cases hk : m.find? k with
    | none => rfl
    | some v => exact hidx (hm k v hk)
  have hcells : (List.range h.size).map
      (fun v => (h.cell v).filterMap (List.range h.size).idxOf?) = h.cells := by
    refine List.ext_getElem? fun i => ?_
    by_cases hi : i < h.size
    · rw [List.getElem?_map, List.getElem?_range hi, Option.map_some,
        hread _ fun sel w => hh.selector i sel w, cell, List.getElem?_eq_getElem hi,
        Option.getD_some]
    · have hle : h.cells.length ≤ i := Nat.le_of_not_lt hi
      simp [hle, hi]
  have hsummaries : h.summaries.filterMap (Summary.relabel (List.range h.size)) = h.summaries := by
    refine (List.filterMap_congr fun e he => ?_).trans List.filterMap_some
    have hends : ∀ v ∈ e.ends, v < h.size := hh.ends e he
    have hall : e.ends.all (· ∈ List.range h.size) := by
      simpa using hends
    rw [Summary.relabel_eq, if_pos hall, Summary.map_eq_self fun v hv => ?_]
    have hv := hidx (hends v hv)
    rw [idxOf?_eq, if_pos (List.mem_range.2 (hends v ‹_›))] at hv
    exact Option.some.inj hv
  rw [relabel, hcells, hread _ hh.var, hsummaries, sortBy_eq_self hsorted]

end Heap

end ShapeCheck
