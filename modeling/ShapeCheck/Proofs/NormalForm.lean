import ShapeCheck.Proofs.Numbering
import Mathlib.Data.List.Induction

/-!
# Normal forms are their own

Numbering a heap canonically a second time changes nothing, if no summary has more than two ends. At
each node the summaries are followed by label and then in the order in which they are listed; a normal
form lists them by label and then by the numbers of their ends. Those numbers were given in the order
in which the summaries were followed, so both orders agree on the ends that are new.
-/

namespace ShapeCheck

open Std List

section Visit

variable {order l l' l₁ l₂ : List Node} {x y : Node}

theorem visitAll_append (order l l' : List Node) :
    visitAll order (l ++ l') = visitAll (visitAll order l) l' :=
  foldl_append

theorem visitAll_concat (order l : List Node) (y : Node) :
    visitAll order (l ++ [y]) = visit (visitAll order l) y :=
  foldl_append

theorem mem_of_idxOf_lt (hpre : l₁ <+: l₂) (hy : y ∈ l₁) (hx : x ∈ l₂)
    (hlt : l₂.idxOf x < l₂.idxOf y) : x ∈ l₁ := by
  obtain ⟨rest, rfl⟩ := hpre
  by_contra hx₁
  rw [idxOf_append_of_mem hy, idxOf_append_of_notMem hx₁] at hlt
  have := idxOf_lt_length_of_mem hy
  omega

/-- Two lists with the same members are visited alike, if the second one meets what is new in the
order in which the first one does. -/
theorem visitAll_eq_of_prefix (hnodup : l₂.Nodup) (hpre : visitAll order l <+: l₂)
    (hmem : ∀ v, v ∈ l' ↔ v ∈ l)
    (hearlier : ∀ a y b, l' = a ++ y :: b → y ∉ order →
      ∀ x ∈ l, x ∉ order → l₂.idxOf x < l₂.idxOf y → x ∈ a) :
    visitAll order l' = visitAll order l := by
  have hprefix (a b : List Node) (hab : l' = a ++ b) : visitAll order a <+: l₂ := by
    induction a using List.reverseRecOn generalizing b with
    | nil => exact (prefix_visitAll order l).trans hpre
    | append_singleton a y ih =>
      have ha := ih (y :: b) (by simpa using hab)
      rw [visitAll_concat, visit]
      split
      · exact ha
      · next hy =>
        have hyl : y ∈ visitAll order l := mem_visitAll.2 (.inr ((hmem y).1 (by simp [hab])))
        have hyorder : y ∉ order := fun h => hy (mem_visitAll.2 (.inl h))
        obtain ⟨rest, hrest⟩ := ha
        -- What comes right after the nodes found so far has to be `y`.
        cases rest with
        | nil =>
          rw [append_nil] at hrest
          exact absurd (hrest ▸ hpre.subset hyl) hy
        | cons z rest =>
          have hz : z ∈ l₂ := hrest ▸ mem_append_right _ mem_cons_self
          have hznew : z ∉ visitAll order a := fun h =>
            (nodup_append.1 (hrest ▸ hnodup)).2.2 z h z mem_cons_self rfl
          suffices hzy : z = y by
            exact ⟨rest, by rw [← hrest, hzy, append_assoc]; rfl⟩
          by_contra hne
          have hlt : l₂.idxOf z < l₂.idxOf y := by
            have hzy : y ∉ visitAll order a ++ [z] := by
              simpa [eq_comm] using And.intro hy hne
            rw [← hrest, idxOf_append_of_notMem hznew, idxOf_append_of_notMem hy,
              idxOf_cons_self, idxOf_cons_ne _ hne]
            omega
          have hzl : z ∈ visitAll order l := mem_of_idxOf_lt hpre hyl hz hlt
          refine hznew (mem_visitAll.2 ?_)
          by_cases hzorder : z ∈ order
          · exact .inl hzorder
          · refine .inr (hearlier a y b (by simpa using hab) hyorder z ?_ hzorder hlt)
            exact (mem_visitAll.1 hzl).resolve_left hzorder
  have hpre' := hprefix l' [] (by simp)
  have hsame : (visitAll order l').Perm (visitAll order l) := by
    refine (perm_ext_iff_of_nodup (hpre'.sublist.nodup hnodup) (hpre.sublist.nodup hnodup)).2
      fun v => ?_
    rw [mem_visitAll, mem_visitAll, hmem]
  exact (prefix_of_prefix_length_le hpre' hpre (Nat.le_of_eq hsame.length_eq)).eq_of_length
    hsame.length_eq

theorem prefix_sweep {step : List Node → Node → List Node} (hstep : ∀ order v, order <+: step order v)
    (steps cursor : Nat) (order : List Node) : order <+: sweep step steps cursor order := by
  induction steps generalizing cursor order with
  | zero => exact prefix_refl order
  | succ steps ih =>
    rw [sweep]
    split
    · exact prefix_refl order
    · exact (hstep _ _).trans (ih _ _)

theorem idxOf_range (k t : Nat) : (List.range k).idxOf t = min t k := by
  by_cases ht : t < k
  · have hlt : t < (List.range k).length := by simpa using ht
    rw [Nat.min_eq_left (Nat.le_of_lt ht)]
    simpa using nodup_range.idxOf_getElem t hlt
  · rw [idxOf_eq_length (by simpa using ht), length_range, Nat.min_eq_right (by omega)]

end Visit

theorem isLE_compare_pair {a t t' : Nat} : (compare [a, t] [a, t']).isLE ↔ t ≤ t' := by
  have hthen : compare [a, t] [a, t'] = (compare a a).then ((compare t t').then .eq) := by
    simp only [compare, List.compareLex_cons_cons, List.compareLex_nil_nil]
  rw [hthen, Nat.compare_eq_eq.2 rfl, ← Nat.isLE_compare]
  cases compare t t' <;> decide

/-- Second ends are compared if both lists have one; a list without one comes first. -/
theorem isLE_compare_ends {a : Nat} {l l' : List Nat} (hl : l.length ≤ 1) (hl' : l'.length ≤ 1) :
    (compare (a :: l) (a :: l')).isLE ↔ ∀ t ∈ l, ∃ t' ∈ l', t ≤ t' := by
  have hcons : compare (a :: l) (a :: l') = compare l l' := by
    have hthen : compare (a :: l) (a :: l') = (compare a a).then (compare l l') := by
      simp only [compare, List.compareLex_cons_cons]
    rw [hthen, Nat.compare_eq_eq.2 rfl]
    rfl
  rcases Nat.le_one_iff_eq_zero_or_eq_one.1 hl with hl | hl
  · obtain rfl := length_eq_zero_iff.1 hl
    have hle : (compare [] l').isLE := by cases l' <;> rfl
    simp [hcons, hle]
  obtain ⟨t, rfl⟩ := length_eq_one_iff.1 hl
  rcases Nat.le_one_iff_eq_zero_or_eq_one.1 hl' with hl' | hl'
  · obtain rfl := length_eq_zero_iff.1 hl'
    have hgt : compare [t] [] = .gt := rfl
    simp [hcons, hgt]
  · obtain ⟨t', rfl⟩ := length_eq_one_iff.1 hl'
    rw [isLE_compare_pair]
    simp

theorem isLE_compare_summary {e e' : Summary} : (compare e e').isLE ↔
    compare e.label e'.label = .lt ∨ compare e.label e'.label = .eq ∧ (compare e.ends e'.ends).isLE :=
  isLE_lexPair_iff

/-- The node that a summary with two ends leads to. -/
def Summary.target (e : Summary) : Node :=
  e.targets.headD Node.null

theorem flatMap_targets_eq {l : List Summary} (hl : ∀ e ∈ l, e.ends.length ≤ 2) :
    l.flatMap Summary.targets = (l.filter (·.ends.length = 2)).map Summary.target := by
  induction l with
  | nil => rfl
  | cons e l ih =>
    obtain ⟨he, hl⟩ := forall_mem_cons.1 hl
    rw [flatMap_cons, ih hl, filter_cons]
    by_cases htwo : e.ends.length = 2
    · obtain ⟨a, t, hends⟩ := length_eq_two.1 htwo
      simp [Summary.target, Summary.targets, hends]
    · have hnil : e.targets = [] := by
        rw [Summary.targets, eq_nil_iff_length_eq_zero, length_tail]
        omega
      simp [htwo, hnil]

namespace Heap

variable {h : Heap} {v : Node} {k : Nat}

/-- All references are to nodes, and no summary has more than two ends. -/
structure IsSlim (h : Heap) : Prop where
  inRange : h.InRange
  short : ∀ e ∈ h.summaries, e.ends.length ≤ 2

/-- All references are to nodes, and all summaries have two ends. -/
structure IsRegular (h : Heap) : Prop where
  inRange : h.InRange
  paired : ∀ e ∈ h.summaries, e.ends.length = 2

theorem isRegular_iff : h.IsRegular ↔ h.InRange ∧ ∀ e ∈ h.summaries, e.ends.length = 2 :=
  ⟨fun hh => ⟨hh.inRange, hh.paired⟩, fun hh => ⟨hh.1, hh.2⟩⟩

instance (h : Heap) : Decidable h.IsRegular :=
  decidable_of_iff _ isRegular_iff.symm

theorem IsRegular.isSlim (hh : h.IsRegular) : h.IsSlim :=
  ⟨hh.inRange, fun e he => Nat.le_of_eq (hh.paired e he)⟩

theorem IsRegular.ofPart {f : Node → Node} {g : Heap} (hh : h.IsRegular) (hf : IsPart f g h)
    (hg : g.InRange) : g.IsRegular := by
  refine ⟨hg, fun e he => ?_⟩
  have hmem := mem_filter.1 (hf.summaries.mem_iff.1 (mem_map_of_mem he))
  simpa [Summary.map] using hh.paired _ hmem.1

theorem IsRegular.normalize (hh : h.IsRegular) : h.normalize.IsRegular :=
  hh.ofPart (hh.inRange.isRenumbering_normalize.isPart hh.inRange) hh.inRange.inRange_normalize

theorem InRange.eq_range_of_prefix {l : List Node} (hh : h.InRange) (hl : ∀ u ∈ l, u < h.size)
    (hpre : l.map (nodeAt h.canonicalOrder) <+: h.canonicalOrder) : l = List.range l.length := by
  have hlength : h.canonicalOrder.length = h.size := by
    rw [← hh.isRenumbering_normalize.size]
    exact size_relabel.symm
  refine ext_getElem (by simp) fun i hi hi' => ?_
  rw [getElem_range]
  have hlt : i < (l.map (nodeAt h.canonicalOrder)).length := by simpa using hi
  have hget := hpre.getElem hlt
  rw [getElem_map] at hget
  refine nodeAt_inj hh.nodup_canonicalOrder (hlength ▸ hl _ (getElem_mem hi))
    (Nat.lt_of_lt_of_le hlt hpre.length_le) ?_
  rw [hget]
  exact (nodeAt_of_getElem? (getElem?_eq_getElem _)).symm

namespace IsSlim

theorem ofPart {f : Node → Node} {g : Heap} (hh : h.IsSlim) (hf : IsPart f g h) (hg : g.InRange) :
    g.IsSlim := by
  refine ⟨hg, fun e he => ?_⟩
  have hmem := mem_filter.1 (hf.summaries.mem_iff.1 (mem_map_of_mem he))
  simpa [Summary.map] using hh.short _ hmem.1

theorem normalize (hh : h.IsSlim) : h.normalize.IsSlim :=
  hh.ofPart (hh.inRange.isRenumbering_normalize.isPart hh.inRange) hh.inRange.inRange_normalize

theorem ends_eq (hh : h.IsSlim) {e : Summary} (he : e ∈ h.summaries) (hv : e.source? = some v) :
    e.ends = v :: e.targets ∧ e.targets.length ≤ 1 := by
  have hshort := hh.short e he
  obtain ⟨label, ends⟩ := e
  obtain ⟨targets, rfl⟩ := head?_eq_some_iff.1 hv
  exact ⟨rfl, Nat.le_of_succ_le_succ hshort⟩

/-- In a normal form the summaries that start at a node are listed in the order in which they are
followed. -/
theorem sortBy_summaryKey_normalize (hh : h.IsSlim) (k : Nat) (v : Node) :
    sortBy (viaView (summaryKey (List.range k)) (lexPair compare compare))
      (h.normalize.summaries.filter (·.source? = some v)) =
        h.normalize.summaries.filter (·.source? = some v) := by
  refine sortBy_eq_self (List.Pairwise.imp_of_mem (fun {e e'} he he' hle => ?_)
    ((sortBy_pairwise compare _).filter _))
  obtain ⟨he, hsource⟩ := mem_filter.1 he
  obtain ⟨he', hsource'⟩ := mem_filter.1 he'
  obtain ⟨hends, hshort⟩ := hh.normalize.ends_eq he (by simpa using hsource)
  obtain ⟨hends', hshort'⟩ := hh.normalize.ends_eq he' (by simpa using hsource')
  rw [isLE_compare_summary, hends, hends', isLE_compare_ends hshort hshort'] at hle
  rw [viaView, isLE_lexPair_iff]
  refine hle.imp_right (And.imp_right fun hle => ?_)
  simp only [summaryKey, hends, hends', map_cons]
  rw [isLE_compare_ends (by simpa using hshort) (by simpa using hshort')]
  simp only [forall_mem_map, idxOf_range]
  intro t ht
  obtain ⟨t', ht', hle⟩ := hle t ht
  exact ⟨_, mem_map_of_mem ht', by omega⟩

/-- Summaries that lead to new nodes in the order of their labels, and to nodes of canonical order,
bring the same nodes if they are listed by label and target. -/
theorem visitAll_targets_eq (hh : h.InRange) {order : List Node} {listed followed : List Summary}
    (hall : (listed.map (Summary.map (nodeAt h.canonicalOrder))).Perm followed)
    (hlisted : listed.Pairwise fun e e' => (compare e e').isLE)
    (hends : ∀ e ∈ listed, e.ends = [v, e.target])
    (hlt : ∀ e ∈ listed, e.target < h.canonicalOrder.length)
    (hsorted : followed.Pairwise fun e e' => (compare e.label e'.label).isLE)
    (hpre : visitAll order (followed.map Summary.target) <+: h.canonicalOrder) :
    visitAll order ((listed.map Summary.target).map (nodeAt h.canonicalOrder)) =
      visitAll order (followed.map Summary.target) := by
  have hnodup := hh.nodup_canonicalOrder
  have htarget {e} (he : e ∈ listed) :
      (e.map (nodeAt h.canonicalOrder)).target = nodeAt h.canonicalOrder e.target := by
    rw [Summary.target, Summary.targets, Summary.map, hends e he]
    rfl
  rw [List.map_map]
  refine visitAll_eq_of_prefix hnodup hpre (fun u => ?_) fun a y b hsplit hy x hx hxnew hxy => ?_
  · simp only [mem_map, ← hall.mem_iff, Function.comp]
    constructor
    · rintro ⟨e, he, rfl⟩
      exact ⟨_, ⟨e, he, rfl⟩, htarget he⟩
    · rintro ⟨_, ⟨e, he, rfl⟩, rfl⟩
      exact ⟨e, he, (htarget he).symm⟩
  · obtain ⟨l₁, l₂, rfl, rfl, hl₂⟩ := map_eq_append_iff.1 hsplit
    obtain ⟨e, l₃, rfl, rfl, rfl⟩ := map_eq_cons_iff.1 hl₂
    have he : e ∈ l₁ ++ e :: l₃ := by simp
    obtain ⟨c, d, hcd⟩ := append_of_mem (hall.mem_iff.1 (mem_map_of_mem he))
    -- Before `e` is followed, some summary has led to `x`.
    have hbefore : visitAll order (c.map Summary.target ++ [nodeAt h.canonicalOrder e.target]) <+:
        h.canonicalOrder := by
      refine List.IsPrefix.trans ?_ hpre
      rw [hcd, map_append, map_cons, htarget he,
        append_cons _ _ (d.map Summary.target), visitAll_append _ (_ ++ _)]
      exact prefix_visitAll _ _
    have hxc : x ∈ c.map Summary.target := by
      have hmem := mem_of_idxOf_lt hbefore (mem_visitAll.2 (.inr (by simp)))
        (hpre.subset (mem_visitAll.2 (.inr hx))) hxy
      rcases mem_append.1 ((mem_visitAll.1 hmem).resolve_left hxnew) with hxc | hxy'
      · exact hxc
      · rw [mem_singleton.1 hxy'] at hxy
        exact absurd hxy (Nat.lt_irrefl _)
    obtain ⟨e₁, he₁, rfl⟩ := mem_map.1 hxc
    obtain ⟨e₂, he₂, rfl⟩ := mem_map.1 (hall.mem_iff.2 (hcd ▸ mem_append_left _ he₁))
    rw [htarget he₂] at hxy ⊢
    have hlabel : (compare e₂.label e.label).isLE := by
      rw [hcd] at hsorted
      exact (pairwise_append.1 hsorted).2.2 _ he₁ (e.map _) mem_cons_self
    rcases mem_append.1 he₂ with he₂' | he₂'
    · exact mem_map_of_mem he₂'
    rcases mem_cons.1 he₂' with rfl | he₂'
    · exact absurd hxy (Nat.lt_irrefl _)
    -- A summary listed after `e` has a larger label, or leads to a node with a larger number.
    have hle := (pairwise_cons.1 (pairwise_append.1 hlisted).2.1).1 e₂ he₂'
    rw [isLE_compare_summary, hends e he, hends e₂ he₂, isLE_compare_pair] at hle
    rcases hle with hless | ⟨-, hle⟩
    · rw [OrientedCmp.gt_of_lt hless] at hlabel
      cases hlabel
    · have hxy : h.canonicalOrder.idxOf (nodeAt h.canonicalOrder e₂.target) <
          h.canonicalOrder.idxOf (nodeAt h.canonicalOrder e.target) := hxy
      rw [idxOf_nodeAt hnodup (hlt e₂ he₂), idxOf_nodeAt hnodup (hlt e he)] at hxy
      exact absurd hxy (Nat.not_lt.2 hle)

/-- The summaries that start at a node bring the same nodes, in the same order, as in the heap. -/
theorem visitAll_targets_normalize (hh : h.IsSlim) (hv : v < h.size) {followed : List Summary}
    (hperm : followed.Perm (h.summaries.filter (·.source? = some (nodeAt h.canonicalOrder v))))
    (hsorted : followed.Pairwise fun e e' => (compare e.label e'.label).isLE)
    (hpre : visitAll ((List.range k).map (nodeAt h.canonicalOrder)) (followed.flatMap Summary.targets)
      <+: h.canonicalOrder) :
    visitAll ((List.range k).map (nodeAt h.canonicalOrder))
        (((h.normalize.summaries.filter (·.source? = some v)).flatMap Summary.targets).map
          (nodeAt h.canonicalOrder)) =
      visitAll ((List.range k).map (nodeAt h.canonicalOrder)) (followed.flatMap Summary.targets) := by
  have hf := hh.inRange.isRenumbering_normalize
  have hlength : h.canonicalOrder.length = h.normalize.size := size_relabel.symm
  have hall : ((h.normalize.summaries.filter (·.source? = some v)).map
      (Summary.map (nodeAt h.canonicalOrder))).Perm followed :=
    ((hf.isPart hh.inRange).filter_source?_perm hh.normalize.inRange (hf.size.symm ▸ hv)).trans
      hperm.symm
  have hends : ∀ e ∈ (h.normalize.summaries.filter (·.source? = some v)).filter (·.ends.length = 2),
      e.ends = [v, e.target] := by
    intro e he
    obtain ⟨he, htwo⟩ := mem_filter.1 he
    obtain ⟨a, t, hat⟩ := length_eq_two.1 (of_decide_eq_true htwo)
    have hsource := of_decide_eq_true (mem_filter.1 he).2
    rw [Summary.source?, hat, head?_cons] at hsource
    rw [Summary.target, Summary.targets, hat, Option.some.inj hsource]
    rfl
  have hfollowed : ∀ e ∈ followed, e.ends.length ≤ 2 := fun e he =>
    hh.short e (mem_of_mem_filter (hperm.mem_iff.1 he))
  rw [flatMap_targets_eq hfollowed] at hpre ⊢
  rw [flatMap_targets_eq fun e he => hh.normalize.short e (mem_of_mem_filter he)]
  refine visitAll_targets_eq hh.inRange ?_ (((sortBy_pairwise compare _).filter _).filter _) hends
    (fun e he => ?_) (hsorted.filter _) hpre
  · refine .trans (.of_eq ?_) (hall.filter _)
    rw [filter_map]
    exact congrArg _ (filter_congr fun e _ => by simp [Summary.map])
  · rw [hlength]
    exact hh.normalize.inRange.ends e (mem_of_mem_filter (mem_of_mem_filter he)) _
      (by simp [hends e he])

theorem numberFrom_normalize (hh : h.IsSlim) (hv : v < h.size) (hk : k ≤ h.size)
    (hpre : h.numberFrom ((List.range k).map (nodeAt h.canonicalOrder)) (nodeAt h.canonicalOrder v) <+:
      h.canonicalOrder) :
    (h.normalize.numberFrom (List.range k) v).map (nodeAt h.canonicalOrder) =
      h.numberFrom ((List.range k).map (nodeAt h.canonicalOrder)) (nodeAt h.canonicalOrder v) := by
  have hf := hh.inRange.isRenumbering_normalize
  have hg := hh.normalize
  have hsize := hf.size
  have horder : ∀ u ∈ List.range k, u < h.normalize.size := fun u hu =>
    hsize.symm ▸ Nat.lt_of_lt_of_le (mem_range.1 hu) hk
  have hvalues : ∀ w ∈ (h.normalize.cell v).values, w < h.normalize.size := by
    intro w hw
    obtain ⟨sel, hsel⟩ := mem_values_cell.1 hw
    exact hg.inRange.selector v sel w hsel
  have hcell : visitAll ((List.range k).map (nodeAt h.canonicalOrder))
      (h.cell (nodeAt h.canonicalOrder v)).values =
        (visitAll (List.range k) (h.normalize.cell v).values).map (nodeAt h.canonicalOrder) := by
    rw [(hf.isPart hh.inRange).cell_eq (hsize.symm ▸ hv), values_filterMap,
      visitAll_map hf.inj horder hvalues]
  have hseen : ∀ w ∈ visitAll (List.range k) (h.normalize.cell v).values, w < h.size := fun w hw =>
    hsize ▸ (mem_visitAll.1 hw).elim (horder w) (hvalues w)
  have htargets : ∀ w ∈ (h.normalize.summaries.filter (·.source? = some v)).flatMap Summary.targets,
      w < h.normalize.size := by
    intro w hw
    obtain ⟨e, he, hw⟩ := mem_flatMap.1 hw
    exact hg.inRange.ends e (mem_of_mem_filter he) w (mem_of_mem_tail hw)
  rw [numberFrom, numberFrom, hcell]
  rw [numberFrom, hcell] at hpre
  -- The nodes that the selectors lead to have the next numbers.
  obtain ⟨j, hj⟩ : ∃ j, visitAll (List.range k) (h.normalize.cell v).values = List.range j :=
    ⟨_, hh.inRange.eq_range_of_prefix hseen ((prefix_visitAll _ _).trans hpre)⟩
  rw [hj] at hseen hpre ⊢
  rw [hh.sortBy_summaryKey_normalize, ← visitAll_map hf.inj (hsize.symm ▸ hseen) htargets]
  refine hh.visitAll_targets_normalize hv (sortBy_perm _ _) ?_ hpre
  have := transCmp_viaView (summaryKey ((List.range j).map (nodeAt h.canonicalOrder)))
    (lexPair (compare (α := String)) (compare (α := List Nat)))
  refine (sortBy_pairwise _ _).imp fun {e e'} hle => ?_
  simp only [viaView, isLE_lexPair_iff, summaryKey] at hle
  rcases hle with hlt | ⟨heq, -⟩
  · rw [hlt]
    rfl
  · rw [heq]
    rfl

theorem sweep_normalize (hh : h.IsSlim) (steps cursor : Nat) {k : Nat} (hk : k ≤ h.size)
    (hpre : sweep h.numberFrom steps cursor ((List.range k).map (nodeAt h.canonicalOrder)) <+:
      h.canonicalOrder) :
    (sweep h.normalize.numberFrom steps cursor (List.range k)).map (nodeAt h.canonicalOrder) =
      sweep h.numberFrom steps cursor ((List.range k).map (nodeAt h.canonicalOrder)) := by
  have hsize := hh.inRange.isRenumbering_normalize.size
  induction steps generalizing cursor k with
  | zero => rfl
  | succ steps ih =>
    rw [sweep, sweep, getElem?_map]
    rw [sweep, getElem?_map] at hpre
    cases hv : (List.range k)[cursor]? with
    | none => rfl
    | some v =>
      rw [hv] at hpre
      have hlt : v < h.size :=
        Nat.lt_of_lt_of_le (mem_range.1 (mem_of_getElem? hv)) hk
      have hstep := hh.numberFrom_normalize hlt hk
        ((prefix_sweep isVisiting_numberFrom.isPrefix _ _ _).trans hpre)
      have hbelow : ∀ u ∈ h.normalize.numberFrom (List.range k) v, u < h.size := by
        intro u hu
        rcases (isVisiting_numberFrom.mem _ _ _).1 hu with hu | hu
        · exact Nat.lt_of_lt_of_le (mem_range.1 hu) hk
        · exact hsize ▸ hh.normalize.inRange.lt_of_mem_successors hu
      have hrange := hh.inRange.eq_range_of_prefix hbelow
        (hstep ▸ (prefix_sweep isVisiting_numberFrom.isPrefix _ _ _).trans hpre)
      dsimp only [Option.map_some] at hpre ⊢
      rw [← hstep] at hpre ⊢
      rw [hrange] at hpre ⊢
      refine ih (cursor + 1) ?_ hpre
      exact length_le_of_nodup (isVisiting_numberFrom.nodup _ _ nodup_range) hbelow

theorem normalize_normalize (hh : h.IsSlim) : h.normalize.normalize = h.normalize := by
  have hf := hh.inRange.isRenumbering_normalize
  have hg := hh.normalize.inRange
  have hpre : sweep h.numberFrom h.size 0 (visitAll [] h.roots) <+: h.canonicalOrder :=
    prefix_visitAll _ _
  have hroots : ∀ v ∈ h.normalize.roots, v < h.normalize.size := fun v hv =>
    hg.lt_of_isLive ⟨v, hv, .refl⟩
  have hstart : visitAll [] h.roots =
      (visitAll [] h.normalize.roots).map (nodeAt h.canonicalOrder) := by
    rw [(hf.isPart hh.inRange).roots_eq]
    exact visitAll_map hf.inj (forall_mem_nil _) hroots
  have hbelow : ∀ v ∈ visitAll [] h.normalize.roots, v < h.size := fun v hv =>
    hf.size ▸ hroots v ((mem_visitAll.1 hv).resolve_left not_mem_nil)
  rw [hstart] at hpre
  obtain ⟨k, hk⟩ : ∃ k, visitAll [] h.normalize.roots = List.range k :=
    ⟨_, hh.inRange.eq_range_of_prefix hbelow
      ((prefix_sweep isVisiting_numberFrom.isPrefix _ _ _).trans hpre)⟩
  have hswept := hg.isSwept_numberFrom
  rw [hk] at hpre hbelow hswept
  have hkle : k ≤ h.size := Nat.le_of_not_lt fun hlt =>
    Nat.lt_irrefl _ (hbelow h.size (mem_range.2 hlt))
  have hsweep := hh.sweep_normalize h.size 0 hkle hpre
  rw [← hf.size] at hsweep
  have hrange := hh.inRange.eq_range_of_prefix (fun v hv => hf.size ▸ hswept.lt v hv)
    (hsweep ▸ hf.size ▸ hpre)
  have horder : h.normalize.canonicalOrder = List.range h.normalize.size := by
    rw [canonicalOrder, hk, hrange]
    exact visitAll_range (length_le_of_nodup hswept.nodup hswept.lt)
  rw [Heap.normalize, horder]
  exact relabel_range hg (sortBy_pairwise compare _)

end IsSlim

theorem IsRegular.normalize_normalize (hh : h.IsRegular) : h.normalize.normalize = h.normalize :=
  hh.isSlim.normalize_normalize

end Heap

end ShapeCheck
