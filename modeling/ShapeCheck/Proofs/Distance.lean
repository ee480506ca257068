import ShapeCheck.Proofs.CanonicalShape

/-!
# Distances from the variables

A breadth-first search with several sources gives every node that it meets the length of a walk from a
variable. It meets nodes in the order of their distances: those that wait in the queue are at most one
step apart from each other. So when the successors of a node are met, none of them has a distance that
is greater by more than one, and at the end every step of the heap leads at most one further. Hence no
walk to a node is shorter than its distance, and a node without a distance is not reached at all.

The nodes up to a distance are those that folding protects. Folding a node beyond it does not change
which nodes these are.
-/

namespace ShapeCheck

open Relation List Option

variable {h : Heap} {r u v : Node} {n d k : Nat} {w : Wave} {vs : List Node}

namespace Heap

/-- A sequence of so many steps leads from one node to another. -/
inductive Walk (h : Heap) (u : Node) : Node → Nat → Prop
  | refl : Walk h u u 0
  | tail {v x : Node} {n : Nat} (hv : Walk h u v n) (hvx : h.Leads v x) : Walk h u x (n + 1)

theorem exists_walk_iff : (∃ n, h.Walk u v n) ↔ ReflTransGen h.Leads u v := by
  constructor
  · rintro ⟨n, hv⟩
    induction hv with
    | refl => exact .refl
    | tail _ hvx ih => exact ih.tail hvx
  · intro huv
    induction huv with
    | refl => exact ⟨0, .refl⟩
    | tail _ hvx ih =>
      obtain ⟨n, hn⟩ := ih
      exact ⟨n + 1, hn.tail hvx⟩

theorem mem_near_iff_exists_walk :
    v ∈ h.near d ↔ ∃ r, h.IsNamed r ∧ ∃ n ≤ d, h.Walk r v n := by
  rw [mem_near_iff]
  induction d generalizing v with
  | zero =>
    constructor
    · exact fun hv => ⟨v, hv, 0, Nat.le_refl 0, .refl⟩
    · rintro ⟨r, hr, n, hn, hwalk⟩
      obtain rfl := Nat.le_zero.1 hn
      cases hwalk
      exact hr
  | succ d ih =>
    rw [Function.iterate_succ_apply', spread]
    constructor
    · rintro (hv | ⟨u, hu, huv⟩)
      · obtain ⟨r, hr, n, hn, hwalk⟩ := ih.1 hv
        exact ⟨r, hr, n, by omega, hwalk⟩
      · obtain ⟨r, hr, n, hn, hwalk⟩ := ih.1 hu
        exact ⟨r, hr, n + 1, by omega, hwalk.tail huv⟩
    · rintro ⟨r, hr, n, hn, hwalk⟩
      cases hwalk with
      | refl => exact .inl (ih.2 ⟨_, hr, 0, Nat.zero_le d, .refl⟩)
      | @tail u _ n hwalk huv => exact .inr ⟨u, ih.2 ⟨_, hr, n, by omega, hwalk⟩, huv⟩

end Heap

namespace Wave

theorem distance?_eq_some_iff : w.distance? v = some k ↔ w.distances[v]? = some (some k) := by
  rw [distance?, join_eq_some_iff]

/-- The nodes `vs` are met at a distance, and `new` are those that were not met before. -/
structure Meets (d : Nat) (vs new : List Node) (w w' : Wave) : Prop where
  length : w'.distances.length = w.distances.length
  queue : w'.queue = w.queue ++ new
  count : w'.distances.count none + w'.queue.length = w.distances.count none + w.queue.length
  subset : new ⊆ vs
  isNew : ∀ v ∈ new, w'.distance? v = some d
  isOld : ∀ v k, w'.distance? v = some k → w.distance? v = some k ∨ v ∈ new
  keeps : ∀ v k, w.distance? v = some k → w'.distance? v = some k
  met : ∀ v ∈ vs, v < w.distances.length → (w'.distance? v).isSome

theorem meets_nil : Meets d [] [] w w where
  length := rfl
  queue := (append_nil _).symm
  count := rfl
  subset := List.Subset.refl _
  isNew := forall_mem_nil _
  isOld _ _ hv := .inl hv
  keeps _ _ hv := hv
  met := forall_mem_nil _

theorem meets_meet (d : Nat) (w : Wave) (v : Node) : ∃ new, Meets d [v] new w (w.meet d v) := by
  rw [meet]
  split
  · next hnone =>
    obtain ⟨hlt, hget⟩ := List.getElem?_eq_some_iff.1 hnone
    have hset (u : Node) : (w.distances.set v (some d))[u]? =
        if v = u then some (some d) else w.distances[u]? := by
      simp [getElem?_set, hlt]
    refine ⟨[v], ?_⟩
    constructor
    case length => exact length_set
    case queue => rfl
    case count =>
      have hpos : 0 < w.distances.count none := count_pos_iff.2 (hget ▸ getElem_mem hlt)
      rw [count_set hlt, hget, length_append]
      simp
      omega
    case subset => exact List.Subset.refl _
    case isNew => simp [distance?, hset]
    case isOld =>
      intro u k hu
      rw [distance?_eq_some_iff, hset] at hu
      split at hu
      · next heq => exact .inr (mem_singleton.2 heq.symm)
      · exact .inl (distance?_eq_some_iff.2 hu)
    case keeps =>
      intro u k hu
      rw [distance?_eq_some_iff] at hu ⊢
      rw [hset, if_neg, hu]
      rintro rfl
      cases hnone.symm.trans hu
    case met => simp [distance?, hset]
  · next hmet =>
    refine ⟨[], { meets_nil with subset := nil_subset _, met := fun u hu hlt => ?_ }⟩
    obtain rfl := mem_singleton.1 hu
    rw [distance?, getElem?_eq_getElem hlt, join_some]
    cases hget : w.distances[u] with
    | none => exact absurd (List.getElem?_eq_some_iff.2 ⟨hlt, hget⟩) hmet
    | some k => rfl

theorem Meets.trans {us new new' : List Node} {w₁ w₂ : Wave} (h₁ : Meets d us new w w₁)
    (h₂ : Meets d vs new' w₁ w₂) : Meets d (us ++ vs) (new ++ new') w w₂ where
  length := h₂.length.trans h₁.length
  queue := by rw [h₂.queue, h₁.queue, append_assoc]
  count := h₂.count.trans h₁.count
  subset := append_subset.2 ⟨fun _ hv => mem_append_left vs (h₁.subset hv),
    fun _ hv => mem_append_right us (h₂.subset hv)⟩
  isNew := forall_mem_append.2 ⟨fun v hv => h₂.keeps v d (h₁.isNew v hv), h₂.isNew⟩
  isOld v k hv := by
    rcases h₂.isOld v k hv with hv | hv
    · exact (h₁.isOld v k hv).imp_right (mem_append_left new')
    · exact .inr (mem_append_right new hv)
  keeps v k hv := h₂.keeps v k (h₁.keeps v k hv)
  met := by
    refine forall_mem_append.2 ⟨fun v hv hlt => ?_, fun v hv hlt => h₂.met v hv (h₁.length ▸ hlt)⟩
    obtain ⟨k, hk⟩ := isSome_iff_exists.1 (h₁.met v hv hlt)
    exact isSome_iff_exists.2 ⟨k, h₂.keeps v k hk⟩

theorem exists_meets (d : Nat) (vs : List Node) (w : Wave) :
    ∃ new, Meets d vs new w (vs.foldl (meet d) w) := by
  induction vs generalizing w with
  | nil => exact ⟨[], meets_nil⟩
  | cons v vs ih =>
    obtain ⟨new, hnew⟩ := meets_meet d w v
    obtain ⟨new', hnew'⟩ := ih (w.meet d v)
    exact ⟨new ++ new', hnew.trans hnew'⟩

/-- The state of the search. The nodes in the queue are in the order of their distances, which differ
by one at most, and no node has a greater distance. A node that has left the queue leads at most one
further. -/
structure IsSpreading (h : Heap) (w : Wave) : Prop where
  length : w.distances.length = h.size
  walk : ∀ v k, w.distance? v = some k → ∃ r, h.IsNamed r ∧ h.Walk r v k
  named : ∀ v, h.IsNamed v → w.distance? v = some 0
  queued : ∀ v ∈ w.queue, (w.distance? v).isSome
  sorted : w.queue.Pairwise fun u v => ∀ i j, w.distance? u = some i → w.distance? v = some j → i ≤ j
  close : ∀ u ∈ w.queue, ∀ v i j, w.distance? u = some i → w.distance? v = some j → j ≤ i + 1
  left : ∀ u i, w.distance? u = some i → u ∉ w.queue → ∀ v, h.Leads u v →
    ∃ j ≤ i + 1, w.distance? v = some j

theorem isSpreading_start (hh : h.InRange) : IsSpreading h
    (h.vars.values.foldl (meet 0) ⟨List.replicate h.size none, []⟩) := by
  obtain ⟨new, hmeets⟩ := exists_meets 0 h.vars.values ⟨List.replicate h.size none, []⟩
  generalize h.vars.values.foldl (meet 0) ⟨List.replicate h.size none, []⟩ = w at hmeets
  have hnone (v : Node) (k : Nat) :
      (⟨List.replicate h.size none, []⟩ : Wave).distance? v ≠ some k := by
    rw [ne_eq, distance?_eq_some_iff, getElem?_replicate]
    split <;> simp
  have hnew {v : Node} {k : Nat} (hv : w.distance? v = some k) : v ∈ new :=
    (hmeets.isOld v k hv).resolve_left (hnone v k)
  have hzero {v : Node} {k : Nat} (hv : w.distance? v = some k) : k = 0 :=
    Option.some.inj (hv.symm.trans (hmeets.isNew v (hnew hv)))
  have hqueue : w.queue = new := hmeets.queue
  constructor
  case length => rw [hmeets.length, length_replicate]
  case walk =>
    intro v k hv
    obtain rfl := hzero hv
    exact ⟨v, Heap.mem_values_vars.1 (hmeets.subset (hnew hv)), .refl⟩
  case named =>
    rintro v ⟨x, hx⟩
    have hmet := hmeets.met v (Heap.mem_values_vars.2 ⟨x, hx⟩) (by simpa using hh.var x v hx)
    obtain ⟨k, hk⟩ := isSome_iff_exists.1 hmet
    rw [hk, hzero hk]
  case queued =>
    intro v hv
    rw [hmeets.isNew v (hqueue ▸ hv), isSome_some]
  case sorted => exact pairwise_of_forall fun u v i j hi hj => by rw [hzero hi, hzero hj]
  case close =>
    intro u _ v i j _ hj
    rw [hzero hj]
    exact Nat.zero_le _
  case left => exact fun u i hu hnot => absurd (hqueue ▸ hnew hu) hnot

theorem IsSpreading.advance (hh : h.InRange) (hw : IsSpreading h w) : IsSpreading h (w.advance h) := by
  rw [Wave.advance]
  split
  · exact hw
  · next u queue hqueue =>
    have hu : u ∈ w.queue := by simp [hqueue]
    obtain ⟨i, hi⟩ := isSome_iff_exists.1 (hw.queued u hu)
    rw [hi, getD_some]
    obtain ⟨new, hmeets⟩ := exists_meets (i + 1) (h.successors u) { w with queue }
    generalize (h.successors u).foldl (meet (i + 1)) { w with queue } = w' at hmeets
    have hsorted := hw.sorted
    rw [hqueue, pairwise_cons] at hsorted
    have hstays {v : Node} (hv : v ∈ queue) : ∃ k, w.distance? v = some k ∧ w'.distance? v = some k := by
      obtain ⟨k, hk⟩ := isSome_iff_exists.1 (hw.queued v (by simp [hqueue, hv]))
      exact ⟨k, hk, hmeets.keeps v k hk⟩
    have hmem {v : Node} (hv : v ∈ w'.queue) : v ∈ queue ∨ v ∈ new := by
      rwa [hmeets.queue, mem_append] at hv
    -- No distance is greater than `i + 1`, and those in the queue are not smaller than `i`.
    have hupper {v : Node} {j : Nat} (hv : w'.distance? v = some j) : j ≤ i + 1 := by
      rcases hmeets.isOld v j hv with hold | hnew
      · exact hw.close u hu v i j hi hold
      · exact Nat.le_of_eq (Option.some.inj (hv.symm.trans (hmeets.isNew v hnew)))
    have hlower {v : Node} {j : Nat} (hv : v ∈ w'.queue) (hj : w'.distance? v = some j) : i ≤ j := by
      rcases hmem hv with hv | hv
      · obtain ⟨k, hk, hk'⟩ := hstays hv
        exact Option.some.inj (hk'.symm.trans hj) ▸ hsorted.1 v hv i k hi hk
      · exact Option.some.inj ((hmeets.isNew v hv).symm.trans hj) ▸ Nat.le_succ i
    constructor
    case length => exact hmeets.length.trans hw.length
    case walk =>
      intro v k hv
      rcases hmeets.isOld v k hv with hold | hnew
      · exact hw.walk v k hold
      · obtain ⟨r, hr, hwalk⟩ := hw.walk u i hi
        obtain rfl := Option.some.inj (hv.symm.trans (hmeets.isNew v hnew))
        exact ⟨r, hr, hwalk.tail (hmeets.subset hnew)⟩
    case named => exact fun v hv => hmeets.keeps v 0 (hw.named v hv)
    case queued =>
      intro v hv
      rcases hmem hv with hv | hv
      · obtain ⟨k, -, hk⟩ := hstays hv
        rw [hk, isSome_some]
      · rw [hmeets.isNew v hv, isSome_some]
    case sorted =>
      rw [hmeets.queue, pairwise_append]
      refine ⟨hsorted.2.imp_of_mem fun {a b} ha hb hab j k hj hk => ?_,
        pairwise_iff_forall_sublist.2 fun {a b} hab j k hj hk => ?_, fun a _ b hb j k hj hk => ?_⟩
      · obtain ⟨j', hold, hj'⟩ := hstays ha
        obtain ⟨k', hold', hk'⟩ := hstays hb
        obtain rfl := Option.some.inj (hj'.symm.trans hj)
        obtain rfl := Option.some.inj (hk'.symm.trans hk)
        exact hab j' k' hold hold'
      · rw [hmeets.isNew a (hab.subset (by simp))] at hj
        rw [hmeets.isNew b (hab.subset (by simp))] at hk
        exact Nat.le_of_eq (Option.some.inj (hj.symm.trans hk))
      · rw [hmeets.isNew b hb] at hk
        exact Option.some.inj hk ▸ hupper hj
    case close =>
      intro a ha v j k hj hk
      exact (hupper hk).trans (Nat.succ_le_succ (hlower ha hj))
    case left =>
      intro a j ha hnot v hav
      rw [hmeets.queue, mem_append, not_or] at hnot
      have hold := (hmeets.isOld a j ha).resolve_right hnot.2
      by_cases hua : a = u
      · subst hua
        obtain rfl := Option.some.inj (hi.symm.trans hold)
        have hmet := hmeets.met v hav (hw.length ▸ hh.lt_of_mem_successors hav)
        obtain ⟨k, hk⟩ := isSome_iff_exists.1 hmet
        exact ⟨k, hupper hk, hk⟩
      · obtain ⟨k, hle, hk⟩ := hw.left a j hold (by simp [hqueue, hua, hnot.1]) v hav
        exact ⟨k, hle, hmeets.keeps v k hk⟩

theorem IsSpreading.run (hh : h.InRange) (hw : IsSpreading h w) (steps : Nat) :
    IsSpreading h (w.run h steps) := by
  induction steps generalizing w with
  | zero => exact hw
  | succ steps ih => exact ih (hw.advance hh)

theorem run_of_queue_eq_nil (hnil : w.queue = []) (steps : Nat) : w.run h steps = w := by
  induction steps with
  | zero => rfl
  | succ steps ih =>
    rw [run, advance, hnil]
    exact ih

/-- Every step takes one node from the queue, and a node that is put there was not met before. So the
number of nodes that were not met or are in the queue bounds the number of steps. -/
theorem queue_run_eq_nil {steps : Nat}
    (hsteps : w.distances.count none + w.queue.length ≤ steps) : (w.run h steps).queue = [] := by
  induction steps generalizing w with
  | zero => exact eq_nil_of_length_eq_zero (by rw [run]; omega)
  | succ steps ih =>
    cases hqueue : w.queue with
    | nil => rw [run_of_queue_eq_nil hqueue, hqueue]
    | cons u queue =>
      refine ih ?_
      rw [advance, hqueue]
      obtain ⟨new, hmeets⟩ :=
        exists_meets ((w.distance? u).getD 0 + 1) (h.successors u) { w with queue }
      rw [hqueue, length_cons] at hsteps
      rw [hmeets.count]
      exact Nat.le_of_succ_le_succ hsteps

/-- When the queue is empty, no walk from a variable is shorter than the distance of its end. -/
theorem IsSpreading.exists_le (hw : IsSpreading h w) (hnil : w.queue = []) (hr : h.IsNamed r)
    (hwalk : h.Walk r v n) : ∃ k ≤ n, w.distance? v = some k := by
  induction hwalk with
  | refl => exact ⟨0, Nat.le_refl 0, hw.named r hr⟩
  | tail _ hvx ih =>
    obtain ⟨k, hle, hk⟩ := ih
    obtain ⟨j, hle', hj⟩ := hw.left _ k hk (hnil ▸ not_mem_nil) _ hvx
    exact ⟨j, by omega, hj⟩

end Wave

namespace Heap.InRange

variable (hh : h.InRange)
include hh

/-- The search as it ends: nothing is left in the queue. -/
theorem exists_isSpreading : ∃ w : Wave, w.distances = h.distances ∧ w.IsSpreading h ∧ w.queue = [] := by
  refine ⟨_, rfl, (Wave.isSpreading_start hh).run hh h.size, Wave.queue_run_eq_nil ?_⟩
  obtain ⟨new, hmeets⟩ := Wave.exists_meets 0 h.vars.values ⟨List.replicate h.size none, []⟩
  rw [hmeets.count]
  simp

theorem length_distances : h.distances.length = h.size := by
  obtain ⟨w, hw, hspreading, -⟩ := hh.exists_isSpreading
  exact hw ▸ hspreading.length

theorem exists_walk_of_distance? (hv : h.distance? v = some k) :
    ∃ r, h.IsNamed r ∧ h.Walk r v k := by
  obtain ⟨w, hw, hspreading, -⟩ := hh.exists_isSpreading
  rw [distance?, ← hw] at hv
  exact hspreading.walk v k hv

theorem exists_distance?_le (hr : h.IsNamed r) (hwalk : h.Walk r v n) :
    ∃ k ≤ n, h.distance? v = some k := by
  obtain ⟨w, hw, hspreading, hnil⟩ := hh.exists_isSpreading
  rw [distance?, ← hw]
  exact hspreading.exists_le hnil hr hwalk

theorem distance?_eq_some_iff : h.distance? v = some k ↔
    (∃ r, h.IsNamed r ∧ h.Walk r v k) ∧ ∀ r n, h.IsNamed r → h.Walk r v n → k ≤ n := by
  constructor
  · refine fun hv => ⟨hh.exists_walk_of_distance? hv, fun r n hr hwalk => ?_⟩
    obtain ⟨j, hle, hj⟩ := hh.exists_distance?_le hr hwalk
    exact Option.some.inj (hj.symm.trans hv) ▸ hle
  · rintro ⟨⟨r, hr, hwalk⟩, hleast⟩
    obtain ⟨j, hle, hj⟩ := hh.exists_distance?_le hr hwalk
    obtain ⟨s, hs, hwalk'⟩ := hh.exists_walk_of_distance? hj
    rw [hj, Nat.le_antisymm hle (hleast s j hs hwalk')]

theorem distance?_eq_none_iff : h.distance? v = none ↔
    ¬∃ r, h.IsNamed r ∧ ReflTransGen h.Leads r v := by
  rw [eq_none_iff_forall_ne_some]
  constructor
  · rintro hnone ⟨r, hr, hrv⟩
    obtain ⟨n, hwalk⟩ := exists_walk_iff.2 hrv
    obtain ⟨k, -, hk⟩ := hh.exists_distance?_le hr hwalk
    exact hnone k hk
  · intro hnot k hk
    obtain ⟨r, hr, hwalk⟩ := hh.exists_walk_of_distance? hk
    exact hnot ⟨r, hr, exists_walk_iff.1 ⟨k, hwalk⟩⟩

theorem mem_near_iff_distance? : v ∈ h.near d ↔ ∃ k ≤ d, h.distance? v = some k := by
  rw [mem_near_iff_exists_walk]
  constructor
  · rintro ⟨r, hr, n, hn, hwalk⟩
    obtain ⟨k, hle, hk⟩ := hh.exists_distance?_le hr hwalk
    exact ⟨k, hle.trans hn, hk⟩
  · rintro ⟨k, hle, hk⟩
    obtain ⟨r, hr, hwalk⟩ := hh.exists_walk_of_distance? hk
    exact ⟨r, hr, k, hle, hwalk⟩

end Heap.InRange

/-- **Distances and folding.** Every node has the length of a shortest walk from a variable for its
distance, and has none exactly if no variable reaches it. The nodes that are kept from being folded are
those up to the protected distance, and a fold beyond it does not change which nodes these are. -/
theorem Heap.distances_exact (h : Heap) (hh : h.InRange) :
    h.distances.length = h.size ∧
    (∀ v k, h.distance? v = some k ↔
      (∃ r, h.IsNamed r ∧ h.Walk r v k) ∧ ∀ r n, h.IsNamed r → h.Walk r v n → k ≤ n) ∧
    (∀ v, h.distance? v = none ↔ ¬∃ r, h.IsNamed r ∧ ReflTransGen h.Leads r v) ∧
    (∀ v d, v ∈ h.near d ↔ ∃ k ≤ d, h.distance? v = some k) ∧
    ∀ (A : Abstraction) (d : Nat) (folded : List Node) (f : Fold),
      A.findFold? h d folded = some f →
      (¬∃ k ≤ d, h.distance? f.node = some k) ∧
      ∀ v, (∃ k ≤ d, (f.apply h).distance? v = some k) ↔ ∃ k ≤ d, h.distance? v = some k := by
  refine ⟨hh.length_distances, fun v k => hh.distance?_eq_some_iff, fun v => hh.distance?_eq_none_iff,
    fun v d => hh.mem_near_iff_distance?, fun A d folded f hf => ?_⟩
  obtain ⟨chain, -, hat, -, -, -, hnear⟩ := Abstraction.findFold?_eq_some hf
  have hc := isContraction_apply hat
  refine ⟨hh.mem_near_iff_distance?.not.1 hnear, fun v => ?_⟩
  rw [← (hc.inRange hh size_apply).mem_near_iff_distance?, ← hh.mem_near_iff_distance?]
  exact hc.mem_near_iff hnear

/-- A ring that `x` and `y` enter at different nodes, a summary with two targets, and a node that only
leads into the ring. -/
def Heap.roundabout : Heap :=
  ⟨[∅, .ofList [("next", 2)], .ofList [("next", 3)], .ofList [("next", 4)], .ofList [("next", 5)],
      .ofList [("next", 1)], .ofList [("next", 0)], .ofList [("next", 1)]],
    .ofList [("x", 1), ("y", 5)], [⟨"Tree", [5, 6, 1]⟩]⟩

theorem Heap.distances_exact_roundabout : roundabout.InRange ∧
    roundabout.distances = [some 2, some 0, some 1, some 2, some 3, some 0, some 1, none] ∧
    (∀ r n, roundabout.IsNamed r → roundabout.Walk r 4 n → 3 ≤ n) ∧
    (¬∃ r, roundabout.IsNamed r ∧ ReflTransGen roundabout.Leads r 7) ∧
    ∃ f, ({} : Abstraction).findFold? roundabout 1 [] = some f ∧ f.node = 3 ∧
      (f.apply roundabout).distances =
        [some 2, some 0, some 1, none, some 2, some 0, some 1, none] ∧
      ∀ v, (∃ k ≤ 1, (f.apply roundabout).distance? v = some k) ↔
        ∃ k ≤ 1, roundabout.distance? v = some k := by
  have hh : roundabout.InRange := by decide +kernel
  obtain ⟨-, hsome, hnone, -, hfold⟩ := distances_exact roundabout hh
  refine ⟨hh, by decide +kernel, ((hsome 4 3).1 (by decide +kernel)).2, (hnone 7).1 (by decide +kernel),
    ⟨.list, 3, 2, 4, .selector 2, .selector 3⟩, by decide +kernel, rfl, by decide +kernel, ?_⟩
  exact (hfold {} 1 [] _ (by decide +kernel)).2

end ShapeCheck
