import ShapeCheck.Proofs.Access
import Mathlib.Logic.Relation
import Mathlib.Data.List.Nodup
import Mathlib.Data.List.Perm.Subperm

/-!
# What a sweep finds

A breadth-first sweep appends to a list what its nodes lead to. Each step passes one node, and the
list has no repetitions, so a sweep with as many steps as there are nodes ends with a list that is
closed: it holds exactly what the nodes it began with can reach. The canonical order of a heap lists
every node once, null first.
-/

namespace ShapeCheck

open Relation List

section Visit

variable {order vs : List Node} {v w : Node}

theorem mem_visit : w ∈ visit order v ↔ w ∈ order ∨ w = v := by
  rw [visit]
  split
  · next h => exact ⟨.inl, fun hw => hw.elim id fun heq => heq ▸ h⟩
  · simp

theorem nodup_visit (h : order.Nodup) : (visit order v).Nodup := by
  rw [visit]
  split
  · exact h
  · next hv =>
    refine nodup_append.2 ⟨h, by simp, fun x hx y hy hxy => hv ?_⟩
    rwa [← mem_singleton.1 hy, ← hxy]

theorem prefix_visit (order : List Node) (v : Node) : order <+: visit order v := by
  rw [visit]
  split
  · exact prefix_refl order
  · exact prefix_append order [v]

theorem mem_visitAll : w ∈ visitAll order vs ↔ w ∈ order ∨ w ∈ vs := by
  induction vs generalizing order with
  | nil => simp [visitAll]
  | cons v vs ih =>
    have hcons : visitAll order (v :: vs) = visitAll (visit order v) vs := rfl
    rw [hcons, ih, mem_visit, mem_cons, or_assoc]

theorem nodup_visitAll (h : order.Nodup) : (visitAll order vs).Nodup := by
  induction vs generalizing order with
  | nil => exact h
  | cons v vs ih => exact ih (nodup_visit h)

theorem prefix_visitAll (order vs : List Node) : order <+: visitAll order vs := by
  induction vs generalizing order with
  | nil => exact prefix_refl order
  | cons v vs ih => exact (prefix_visit order v).trans (ih (visit order v))

end Visit

/-- A step of a sweep appends what a node leads to, without repetition. -/
structure IsVisiting (next : Node → List Node) (step : List Node → Node → List Node) : Prop where
  isPrefix : ∀ order v, order <+: step order v
  nodup : ∀ order v, order.Nodup → (step order v).Nodup
  mem : ∀ order v w, w ∈ step order v ↔ w ∈ order ∨ w ∈ next v

variable {next : Node → List Node} {step : List Node → Node → List Node}

/-- What a sweep over the nodes below `n` leaves: a list without repetition that is closed under
steps, and whose members can be reached from those at the start. -/
structure IsSwept (next : Node → List Node) (n : Nat) (start result : List Node) : Prop where
  isPrefix : start <+: result
  nodup : result.Nodup
  lt : ∀ v ∈ result, v < n
  closed : ∀ v ∈ result, ∀ w ∈ next v, w ∈ result
  reached : ∀ v ∈ result, ∃ r ∈ start, ReflTransGen (fun u w => w ∈ next u) r v

theorem IsSwept.mem_iff {n : Nat} {start result : List Node} (h : IsSwept next n start result)
    {v : Node} : v ∈ result ↔ ∃ r ∈ start, ReflTransGen (fun u w => w ∈ next u) r v := by
  refine ⟨h.reached v, ?_⟩
  rintro ⟨r, hr, hrv⟩
  induction hrv with
  | refl => exact h.isPrefix.subset hr
  | tail _ hstep ih => exact h.closed _ ih _ hstep

theorem length_le_of_nodup {l : List Node} {n : Nat} (hnodup : l.Nodup) (hlt : ∀ v ∈ l, v < n) :
    l.length ≤ n := by
  have hsub : l ⊆ List.range n := fun v hv => mem_range.2 (hlt v hv)
  simpa using (subperm_of_subset hnodup hsub).length_le

theorem sweep_add {n cursor : Nat} {order : List Node} (m : Nat)
    (hend : (sweep step n cursor order).length ≤ n + cursor) :
    sweep step (n + m) cursor order = sweep step n cursor order := by
  induction n generalizing cursor order with
  | zero =>
    have hnone : order[cursor]? = none := getElem?_eq_none (by simpa [sweep] using hend)
    rw [Nat.zero_add]
    cases m with
    | zero => rfl
    | succ m => simp only [sweep, hnone]
  | succ n ih =>
    rw [Nat.succ_add, sweep, sweep]
    rw [sweep] at hend
    cases hv : order[cursor]? with
    | none => rfl
    | some v =>
      rw [hv] at hend
      exact ih (by rwa [Nat.succ_add_eq_add_succ] at hend)

/-- The nodes that the cursor has passed have all their successors on the list. As the list has no
repetitions, the cursor meets its end before the steps run out. -/
theorem sweep_spec (hstep : IsVisiting next step) {n : Nat} (hnext : ∀ v, ∀ w ∈ next v, w < n)
    {steps cursor : Nat} {order : List Node} (hnodup : order.Nodup) (hlt : ∀ v ∈ order, v < n)
    (hcursor : cursor ≤ order.length)
    (hclosed : ∀ v ∈ order.take cursor, ∀ w ∈ next v, w ∈ order) (hsteps : n ≤ steps + cursor) :
    IsSwept next n order (sweep step steps cursor order) := by
  induction steps generalizing cursor order with
  | zero =>
    have hlength := length_le_of_nodup hnodup hlt
    rw [sweep]
    rw [take_of_length_le (by omega)] at hclosed
    exact ⟨prefix_refl order, hnodup, hlt, hclosed, fun v hv => ⟨v, hv, .refl⟩⟩
  | succ steps ih =>
    rw [sweep]
    cases hv : order[cursor]? with
    | none =>
      rw [take_of_length_le (List.getElem?_eq_none_iff.1 hv)] at hclosed
      exact ⟨prefix_refl order, hnodup, hlt, hclosed, fun v hv => ⟨v, hv, .refl⟩⟩
    | some v =>
      obtain ⟨hcur, rfl⟩ := List.getElem?_eq_some_iff.1 hv
      have hpre := hstep.isPrefix order order[cursor]
      have hswept := @ih (cursor + 1) (step order order[cursor]) (hstep.nodup _ _ hnodup)
        (fun w hw => ?_) (by have := hpre.length_le; omega) (fun w hw x hx => ?_) (by omega)
      · refine ⟨hpre.trans hswept.isPrefix, hswept.nodup, hswept.lt, hswept.closed, fun w hw => ?_⟩
        obtain ⟨r, hr, hrw⟩ := hswept.reached w hw
        rcases (hstep.mem _ _ _).1 hr with hr | hr
        · exact ⟨r, hr, hrw⟩
        · exact ⟨order[cursor], getElem_mem hcur, .head hr hrw⟩
      · rcases (hstep.mem _ _ _).1 hw with hw | hw
        · exact hlt w hw
        · exact hnext _ w hw
      · obtain ⟨new, hnew⟩ := hpre
        rw [← hnew, take_append_of_le_length (by omega), take_succ_eq_append_getElem hcur,
          mem_append, mem_singleton] at hw
        rw [hstep.mem]
        rcases hw with hw | rfl
        · exact .inl (hclosed w hw x hx)
        · exact .inr hx

namespace Heap

variable {h : Heap} {roots : List Node} {v w : Node}

/-- One node leads to another by a selector or a summary. -/
def Leads (h : Heap) (u v : Node) : Prop :=
  v ∈ h.successors u

theorem selector?_eq_none_of_not_leads (hv : ∀ w, ¬h.Leads v w) (sel : String) :
    h.selector? v sel = none :=
  Option.eq_none_iff_forall_ne_some.2 fun w hw => hv w (mem_successors_iff.2 (.inl ⟨sel, hw⟩))

/-- Null or a variable reaches a node. -/
def IsLive (h : Heap) (v : Node) : Prop :=
  ∃ r ∈ h.roots, ReflTransGen h.Leads r v

theorem IsLive.null : h.IsLive Node.null :=
  ⟨Node.null, mem_cons_self, .refl⟩

theorem IsLive.var {x : String} (hx : h.var? x = some v) : h.IsLive v :=
  ⟨v, mem_cons_of_mem _ (mem_values_vars.2 ⟨x, hx⟩), .refl⟩

theorem IsLive.tail (hv : h.IsLive v) (hvw : h.Leads v w) : h.IsLive w := by
  obtain ⟨r, hr, hrv⟩ := hv
  exact ⟨r, hr, hrv.tail hvw⟩

/-- What holds of null and the variables, and is kept by steps, holds of all live nodes. -/
theorem IsLive.induction {P : Node → Prop} (hnull : P Node.null)
    (hvar : ∀ x v, h.var? x = some v → P v) (hstep : ∀ v w, P v → h.Leads v w → P w)
    (hv : h.IsLive v) : P v := by
  obtain ⟨r, hr, hrv⟩ := hv
  induction hrv with
  | refl =>
    rcases mem_cons.1 hr with rfl | hr
    · exact hnull
    · obtain ⟨x, hx⟩ := mem_values_vars.1 hr
      exact hvar x r hx
  | tail _ hvw ih => exact hstep _ _ ih hvw

theorem InRange.lt_of_isLive (hh : h.InRange) (hv : h.IsLive v) : v < h.size :=
  IsLive.induction (P := (· < h.size)) hh.pos hh.var (fun _ _ _ => hh.lt_of_mem_successors) hv

theorem isVisiting_successors :
    IsVisiting h.successors fun order v => visitAll order (h.successors v) where
  isPrefix _ _ := prefix_visitAll _ _
  nodup _ _ := nodup_visitAll
  mem _ _ _ := mem_visitAll

theorem InRange.isSwept_reach (hh : h.InRange) (roots : List Node) :
    IsSwept h.successors h.size (visitAll [] (roots.filter h.contains)) (h.reach roots) := by
  refine sweep_spec isVisiting_successors (fun v w => hh.lt_of_mem_successors)
    (nodup_visitAll .nil) (fun v hv => ?_) (Nat.zero_le _) (by simp) (by omega)
  rw [mem_visitAll] at hv
  simpa [contains] using (mem_filter.1 (hv.resolve_left (by simp))).2

theorem InRange.mem_reach_iff (hh : h.InRange) :
    v ∈ h.reach roots ↔ ∃ r ∈ roots, r < h.size ∧ ReflTransGen h.Leads r v := by
  rw [(hh.isSwept_reach roots).mem_iff]
  simp only [mem_visitAll, contains, mem_filter, not_mem_nil, false_or, decide_eq_true_eq,
    and_assoc]
  rfl

theorem InRange.mem_reach_roots_iff (hh : h.InRange) : v ∈ h.reach h.roots ↔ h.IsLive v := by
  rw [hh.mem_reach_iff]
  constructor
  · rintro ⟨r, hr, -, hrv⟩
    exact ⟨r, hr, hrv⟩
  · rintro ⟨r, hr, hrv⟩
    exact ⟨r, hr, hh.lt_of_isLive ⟨r, hr, .refl⟩, hrv⟩

theorem isVisiting_numberFrom : IsVisiting h.successors h.numberFrom where
  isPrefix _ _ := (prefix_visitAll _ _).trans (prefix_visitAll _ _)
  nodup _ _ hnodup := nodup_visitAll (nodup_visitAll hnodup)
  mem order v w := by
    simp only [numberFrom, mem_visitAll, successors, mem_append, mem_flatMap,
      (sortBy_perm _ _).mem_iff, or_assoc]

theorem InRange.isSwept_numberFrom (hh : h.InRange) :
    IsSwept h.successors h.size (visitAll [] h.roots)
      (sweep h.numberFrom h.size 0 (visitAll [] h.roots)) := by
  refine sweep_spec isVisiting_numberFrom (fun v w => hh.lt_of_mem_successors)
    (nodup_visitAll .nil) (fun v hv => ?_) (Nat.zero_le _) (by simp) (by omega)
  rw [mem_visitAll] at hv
  exact hh.lt_of_isLive ⟨v, hv.resolve_left (by simp), .refl⟩

theorem InRange.nodup_canonicalOrder (hh : h.InRange) : h.canonicalOrder.Nodup :=
  nodup_visitAll hh.isSwept_numberFrom.nodup

theorem InRange.mem_canonicalOrder_iff (hh : h.InRange) : v ∈ h.canonicalOrder ↔ v < h.size := by
  rw [canonicalOrder, mem_visitAll, mem_nodes]
  exact ⟨fun hv => hv.elim (hh.isSwept_numberFrom.lt v) id, .inr⟩

theorem InRange.head?_canonicalOrder (hh : h.InRange) :
    h.canonicalOrder.head? = some Node.null := by
  have hpre : [Node.null] <+: h.canonicalOrder :=
    (prefix_visitAll [Node.null] h.vars.values).trans
      (hh.isSwept_numberFrom.isPrefix.trans (prefix_visitAll _ _))
  obtain ⟨rest, hrest⟩ := hpre
  rw [← hrest]
  rfl

end Heap

end ShapeCheck
