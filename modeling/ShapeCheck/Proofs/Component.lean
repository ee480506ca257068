import ShapeCheck.Graph.Components
import Mathlib.Logic.Relation
import Mathlib.Tactic.Common

/-!
# Correctness of the component search

The components of a graph are found by two floods from a vertex, along the edges and against them,
for every vertex that a depth-first search lists. This file shows that the floods mark exactly the
vertices that can be reached, that the search lists every vertex, and hence that the components are
the classes of mutual reachability.

Edges have to stay inside the graph (`Graph.InRange`).
-/

namespace ShapeCheck

open List

namespace Graph

open Relation

variable {g : Graph}

/-- There is an edge between two vertices. -/
def Edge (g : Graph) (v w : Nat) : Prop :=
  w ∈ g.next v

/-- There is a way along edges, possibly without a step. -/
def Reach (g : Graph) : Nat → Nat → Prop :=
  ReflTransGen g.Edge

/-- Edges lead to vertices of the graph. -/
def InRange (g : Graph) : Prop :=
  ∀ v w, g.Edge v w → w < g.size

variable {v w x steps : Nat} {seen : Array Bool} {targets stack C l : List Nat} {reversed : Graph}
  {found : List (List Nat)}

theorem Edge.lt_size (h : g.Edge v w) : v < g.size := by
  by_contra hv
  simp [Edge, next, hv] at h

theorem InRange.reach_lt (hg : g.InRange) (hv : v < g.size) (h : g.Reach v w) :
    w < g.size := by
  induction h with
  | refl => exact hv
  | tail _ h _ => exact hg _ _ h

theorem getElem?_mark (hv : seen[v]? = some false) :
    (seen.set! v true)[x]? = if x = v then some true else seen[x]? := by
  obtain ⟨hlt, -⟩ := Array.getElem?_eq_some_iff.1 hv
  rw [Array.set!_eq_setIfInBounds, Array.getElem?_setIfInBounds, if_pos hlt]
  simp only [eq_comm]

theorem count_mark (hv : seen[v]? = some false) :
    (seen.set! v true).count false + 1 = seen.count false := by
  obtain ⟨hlt, hval⟩ := Array.getElem?_eq_some_iff.1 hv
  have hpos : 0 < seen.count false := Array.count_pos_iff.2 (hval ▸ Array.getElem_mem hlt)
  rw [Array.set!_eq_setIfInBounds, Array.setIfInBounds, dif_pos hlt, Array.count_set]
  simp [hval]
  omega

theorem markAll_cons (w : Nat) (targets stack : List Nat) (seen : Array Bool) :
    markAll (w :: targets) stack seen =
      if seen[w]? = some false then markAll targets (w :: stack) (seen.set! w true)
      else markAll targets stack seen := by
  simp only [markAll, foldl_cons]
  split <;> rfl

@[simp]
theorem size_markAll (targets stack : List Nat) (seen : Array Bool) :
    (markAll targets stack seen).2.size = seen.size := by
  induction targets generalizing stack seen with
  | nil => rfl
  | cons w targets ih =>
    rw [markAll_cons]
    split <;> simp [ih]

theorem marked_markAll_iff :
    (markAll targets stack seen).2[x]? = some true ↔
      seen[x]? = some true ∨ x ∈ targets ∧ x < seen.size := by
  induction targets generalizing stack seen with
  | nil => simp [markAll]
  | cons w targets ih =>
    rw [markAll_cons]
    split
    · next hw =>
      have hlt : w < seen.size := (Array.getElem?_eq_some_iff.1 hw).1
      rw [ih, getElem?_mark hw]
      by_cases hx : x = w
      · subst hx
        simp [hlt]
      · simp [hx]
    · next hw =>
      rw [ih]
      by_cases hx : x = w
      · subst hx
        -- the vertex is marked already, or it is not in the graph
        by_cases hlt : x < seen.size
        · have : seen[x]? = some true := by
            rw [Array.getElem?_eq_getElem hlt] at hw ⊢
            simpa using hw
          simp [this]
        · simp [hlt]
      · simp [hx]

theorem mem_markAll_iff :
    x ∈ (markAll targets stack seen).1 ↔ x ∈ stack ∨ x ∈ targets ∧ seen[x]? = some false := by
  induction targets generalizing stack seen with
  | nil => simp [markAll]
  | cons w targets ih =>
    rw [markAll_cons]
    split
    · next hw =>
      rw [ih, getElem?_mark hw, mem_cons, mem_cons]
      by_cases hx : x = w
      · subst hx
        simp [hw]
      · simp [hx]
    · next hw =>
      rw [ih, mem_cons]
      by_cases hx : x = w
      · subst hx
        simp [hw]
      · simp [hx]

theorem length_markAll (targets stack : List Nat) (seen : Array Bool) :
    (markAll targets stack seen).1.length + (markAll targets stack seen).2.count false =
      stack.length + seen.count false := by
  induction targets generalizing stack seen with
  | nil => rfl
  | cons w targets ih =>
    rw [markAll_cons]
    split
    · next hw =>
      rw [ih, ← count_mark hw, length_cons]
      omega
    · exact ih stack seen

theorem floodFrom_cons (steps v : Nat) (stack : List Nat) (seen : Array Bool) :
    g.floodFrom (steps + 1) (v :: stack) seen =
      g.floodFrom steps (markAll (g.next v) stack seen).1 (markAll (g.next v) stack seen).2 :=
  rfl

/-- Whatever contains the marked vertices and the stack and is closed under edges contains
everything that a flood marks. -/
theorem floodFrom_induction {P : Nat → Prop} (hP : ∀ v w, P v → g.Edge v w → P w)
    (hstack : ∀ v ∈ stack, P v) (hseen : ∀ x, seen[x]? = some true → P x)
    (hx : (g.floodFrom steps stack seen)[x]? = some true) : P x := by
  induction steps generalizing stack seen with
  | zero => exact hseen x hx
  | succ steps ih =>
    cases stack with
    | nil => exact hseen x hx
    | cons v stack =>
      have hv : P v := hstack v mem_cons_self
      rw [floodFrom_cons] at hx
      refine ih (fun y hy => ?_) (fun y hy => ?_) hx
      · rcases mem_markAll_iff.1 hy with hy | ⟨hy, -⟩
        · exact hstack y (mem_cons_of_mem v hy)
        · exact hP v y hv hy
      · rcases marked_markAll_iff.1 hy with hy | ⟨hy, -⟩
        · exact hseen y hy
        · exact hP v y hv hy

theorem marked_floodFrom_of_marked (hx : seen[x]? = some true) :
    (g.floodFrom steps stack seen)[x]? = some true := by
  induction steps generalizing stack seen with
  | zero => exact hx
  | succ steps ih =>
    cases stack with
    | nil => exact hx
    | cons v stack => exact ih (marked_markAll_iff.2 (.inl hx))

/-- If all edges of marked vertices lead to marked ones, except for vertices on the stack, then a
flood with enough steps leaves no exception. -/
theorem floodFrom_closed (hg : g.InRange) (hsize : seen.size = g.size)
    (hsteps : stack.length + seen.count false ≤ steps)
    (hclosed : ∀ v w, seen[v]? = some true → g.Edge v w → v ∈ stack ∨ seen[w]? = some true)
    (hv : (g.floodFrom steps stack seen)[v]? = some true) (hvw : g.Edge v w) :
    (g.floodFrom steps stack seen)[w]? = some true := by
  induction steps generalizing stack seen with
  | zero =>
    obtain rfl : stack = [] := length_eq_zero_iff.1 (by omega)
    exact (hclosed v w hv hvw).resolve_left not_mem_nil
  | succ steps ih =>
    cases stack with
    | nil => exact (hclosed v w hv hvw).resolve_left not_mem_nil
    | cons u stack =>
      rw [floodFrom_cons] at hv ⊢
      refine ih ?_ ?_ (fun x y hx hxy => ?_) hv
      · rw [size_markAll, hsize]
      · have := length_markAll (g.next u) stack seen
        simp only [length_cons] at hsteps
        omega
      · have hy : y < seen.size := hsize ▸ hg x y hxy
        rw [mem_markAll_iff, marked_markAll_iff]
        rw [marked_markAll_iff] at hx
        by_cases hmarked : seen[x]? = some true
        · rcases hclosed x y hmarked hxy with hmem | hmem
          · rcases mem_cons.1 hmem with rfl | hmem
            · exact .inr (.inr ⟨hxy, hy⟩)
            · exact .inl (.inl hmem)
          · exact .inr (.inl hmem)
        · -- the vertex has just been marked, so it is on the stack
          obtain ⟨hxu, hlt⟩ := hx.resolve_left hmarked
          rw [Array.getElem?_eq_getElem hlt] at hmarked ⊢
          exact .inl (.inr ⟨hxu, by simpa using hmarked⟩)

theorem marked_flood_iff (hg : g.InRange) (hv : v < g.size) :
    (g.flood v)[w]? = some true ↔ g.Reach v w := by
  have hmarked {x : Nat} :
      (markAll [v] [] (Array.replicate g.size false)).2[x]? = some true ↔ x = v := by
    rw [marked_markAll_iff]
    simp only [Array.getElem?_replicate, mem_singleton, Array.size_replicate]
    split_ifs <;> simp_all
  have hstack {x : Nat} : x ∈ (markAll [v] [] (Array.replicate g.size false)).1 ↔ x = v := by
    rw [mem_markAll_iff]
    simp only [Array.getElem?_replicate, not_mem_nil, mem_singleton, false_or]
    split_ifs
    · simp
    · simp only [and_false, false_iff]
      omega
  change (g.floodFrom g.size (markAll [v] [] (Array.replicate g.size false)).1
    (markAll [v] [] (Array.replicate g.size false)).2)[w]? = some true ↔ _
  constructor
  · refine floodFrom_induction (fun x y hx hxy => hx.tail hxy) (fun x hx => ?_) fun x hx => ?_
    · exact hstack.1 hx ▸ .refl
    · exact hmarked.1 hx ▸ .refl
  · intro h
    induction h with
    | refl => exact marked_floodFrom_of_marked (hmarked.2 rfl)
    | tail _ hxy ih =>
      refine floodFrom_closed hg ?_ ?_ (fun x y hx _ => ?_) ih hxy
      · rw [size_markAll, Array.size_replicate]
      · rw [length_markAll]
        simp
      · exact .inl (hstack.2 (hmarked.1 hx))

private theorem mem_next_modify {r : Graph} {y : Nat} :
    x ∈ Graph.next (r.modify w (v :: ·)) y ↔ x ∈ r.next y ∨ x = v ∧ y = w ∧ y < r.size := by
  rw [next, Array.getElem?_modify, next]
  by_cases hlt : y < r.size
  · rw [Array.getElem?_eq_getElem hlt]
    by_cases hw : w = y
    · subst hw
      simp [hlt, or_comm]
    · simp [hw, Ne.symm hw]
  · simp [hlt]

private theorem size_foldl_modify (v : Nat) (targets : List Nat) (r : Graph) :
    (targets.foldl (fun r w => r.modify w (v :: ·)) r).size = r.size := by
  induction targets generalizing r with
  | nil => rfl
  | cons w targets ih => rw [foldl_cons, ih, Array.size_modify]

private theorem mem_next_foldl_modify {y : Nat} {r : Graph} :
    x ∈ Graph.next (targets.foldl (fun r w => r.modify w (v :: ·)) r) y ↔
      x ∈ r.next y ∨ x = v ∧ y ∈ targets ∧ y < r.size := by
  induction targets generalizing r with
  | nil => simp
  | cons w targets ih =>
    rw [foldl_cons, ih, mem_next_modify, Array.size_modify, mem_cons]
    tauto

private theorem foldl_reverse_spec (l : List (List Nat × Nat)) (r : Graph) :
    (l.foldl (fun r e => e.1.foldl (fun r w => r.modify w (e.2 :: ·)) r) r).size = r.size ∧
      ∀ x y,
        x ∈ Graph.next (l.foldl (fun r e => e.1.foldl (fun r w => r.modify w (e.2 :: ·)) r) r) y ↔
        x ∈ r.next y ∨ y < r.size ∧ ∃ targets, (targets, x) ∈ l ∧ y ∈ targets := by
  induction l generalizing r with
  | nil => simp
  | cons e l ih =>
    obtain ⟨targets, v⟩ := e
    obtain ⟨hsize, hmem⟩ := ih (targets.foldl (fun r w => r.modify w (v :: ·)) r)
    rw [size_foldl_modify] at hsize
    refine ⟨hsize, fun x y => ?_⟩
    rw [foldl_cons, hmem, mem_next_foldl_modify, size_foldl_modify]
    simp only [mem_cons, Prod.mk.injEq]
    constructor
    · rintro ((h | ⟨rfl, hy, hlt⟩) | ⟨hlt, ts, hts, hy⟩)
      · exact .inl h
      · exact .inr ⟨hlt, targets, .inl ⟨rfl, rfl⟩, hy⟩
      · exact .inr ⟨hlt, ts, .inr hts, hy⟩
    · rintro (h | ⟨hlt, ts, ⟨rfl, rfl⟩ | hts, hy⟩)
      · exact .inl (.inl h)
      · exact .inl (.inr ⟨rfl, hy, hlt⟩)
      · exact .inr ⟨hlt, ts, hts, hy⟩

theorem size_reverse : g.reverse.size = g.size :=
  (foldl_reverse_spec g.toList.zipIdx (Array.replicate g.size [])).1.trans Array.size_replicate

theorem edge_reverse_iff (hg : g.InRange) : g.reverse.Edge v w ↔ g.Edge w v := by
  have hspec := (foldl_reverse_spec g.toList.zipIdx (Array.replicate g.size [])).2 w v
  have hnil : w ∉ Graph.next (Array.replicate g.size []) v := by
    simp only [next, Array.getElem?_replicate]
    split <;> simp
  refine hspec.trans ?_
  simp only [hnil, false_or, Array.size_replicate, mem_zipIdx_iff_getElem?,
    Array.getElem?_toList]
  constructor
  · rintro ⟨-, targets, hw, hv⟩
    simpa [Edge, next, hw] using hv
  · intro h
    have hlt : w < g.size := h.lt_size
    refine ⟨hg w v h, g[w], Array.getElem?_eq_getElem hlt, ?_⟩
    simpa [Edge, next, hlt] using h

theorem reach_reverse_iff (hg : g.InRange) : g.reverse.Reach v w ↔ g.Reach w v := by
  have hswap : g.reverse.Edge = Function.swap g.Edge := by
    funext v w
    exact propext (edge_reverse_iff hg)
  rw [Reach, hswap, reflTransGen_swap]
  rfl

theorem InRange.reverse (hg : g.InRange) : g.reverse.InRange := by
  intro v w h
  rw [size_reverse]
  exact ((edge_reverse_iff hg).1 h).lt_size

/-- The component of a vertex: the vertices that it can reach and that can reach it. -/
theorem mem_component_iff (hg : g.InRange) (hv : v < g.size) :
    w ∈ g.component g.reverse v ↔ g.Reach v w ∧ g.Reach w v := by
  simp only [component, mem_filter, mem_range, Bool.and_eq_true, decide_eq_true_eq]
  have hv' : v < g.reverse.size := by rwa [size_reverse]
  rw [marked_flood_iff hg hv, marked_flood_iff hg.reverse hv', reach_reverse_iff hg]
  exact ⟨fun h => h.2, fun h => ⟨hg.reach_lt hv h.1, h⟩⟩

/-- What a depth-first search does to the marks and to the list of vertices it has left. -/
structure Searched (before after : Array Bool × List Nat) : Prop where
  size : after.1.size = before.1.size
  marked : ∀ x : Nat, before.1[x]? = some true → after.1[x]? = some true
  listed : ∀ x ∈ before.2, x ∈ after.2
  new : ∀ x : Nat, after.1[x]? = some true → before.1[x]? = some true ∨ x ∈ after.2
  lt_size : ∀ x ∈ after.2, x ∈ before.2 ∨ x < before.1.size

namespace Searched

variable {before between after : Array Bool × List Nat}

theorem refl : Searched before before :=
  ⟨rfl, fun _ h => h, fun _ h => h, fun _ h => .inl h, fun _ h => .inl h⟩

theorem trans (h : Searched before between) (h' : Searched between after) :
    Searched before after where
  size := h'.size.trans h.size
  marked x hx := h'.marked x (h.marked x hx)
  listed x hx := h'.listed x (h.listed x hx)
  new x hx := by
    rcases h'.new x hx with hx | hx
    · exact (h.new x hx).imp_right (h'.listed x)
    · exact .inr hx
  lt_size x hx := by
    rcases h'.lt_size x hx with hx | hx
    · exact h.lt_size x hx
    · exact .inr (h.size ▸ hx)

theorem foldl {f : Array Bool × List Nat → Nat → Array Bool × List Nat}
    (hf : ∀ found v, Searched found (f found v)) (l : List Nat) (found : Array Bool × List Nat) :
    Searched found (l.foldl f found) := by
  induction l generalizing found with
  | nil => exact refl
  | cons v l ih => exact (hf found v).trans (ih _)

end Searched

theorem searchFrom_succ (depth v : Nat) (found : Array Bool × List Nat) :
    g.searchFrom (depth + 1) found v =
      if found.1[v]? = some false then
        let r := (g.next v).foldl (g.searchFrom depth) (found.1.set! v true, found.2)
        (r.1, v :: r.2)
      else found :=
  rfl

theorem searched_searchFrom (depth : Nat) (found : Array Bool × List Nat) (v : Nat) :
    Searched found (g.searchFrom depth found v) := by
  induction depth generalizing found v with
  | zero => exact .refl
  | succ depth ih =>
    rw [searchFrom_succ]
    split
    · next hv =>
      have hlt : v < found.1.size := (Array.getElem?_eq_some_iff.1 hv).1
      have h := Searched.foldl (f := g.searchFrom depth) ih (g.next v)
        (found.1.set! v true, found.2)
      refine ⟨by simpa using h.size, fun x hx => h.marked x ?_,
        fun x hx => mem_cons_of_mem v (h.listed x hx), fun x hx => ?_, fun x hx => ?_⟩
      · rw [getElem?_mark hv]
        split_ifs
        · rfl
        · exact hx
      · rcases h.new x hx with hx | hx
        · rw [getElem?_mark hv] at hx
          split_ifs at hx with hxv
          · exact .inr (hxv ▸ mem_cons_self)
          · exact .inl hx
        · exact .inr (mem_cons_of_mem v hx)
      · rcases mem_cons.1 hx with rfl | hx
        · exact .inr hlt
        · simpa using h.lt_size x hx
    · exact .refl

theorem marked_searchFrom {depth : Nat} {found : Array Bool × List Nat} (hdepth : 0 < depth)
    (hv : v < found.1.size) : (g.searchFrom depth found v).1[v]? = some true := by
  obtain ⟨depth, rfl⟩ := Nat.exists_eq_add_of_lt hdepth
  rw [Nat.zero_add, searchFrom_succ]
  split
  · next hfalse =>
    refine (Searched.foldl (searched_searchFrom depth) (g.next v)
      (found.1.set! v true, found.2)).marked v ?_
    rw [getElem?_mark hfalse, if_pos rfl]
  · next hfalse =>
    rw [Array.getElem?_eq_getElem hv] at hfalse ⊢
    simpa using hfalse

theorem mem_finishOrder_iff : v ∈ g.finishOrder ↔ v < g.size := by
  have h := Searched.foldl (searched_searchFrom (g := g) g.size) (List.range g.size)
    (Array.replicate g.size false, [])
  constructor
  · intro hv
    simpa using h.lt_size v hv
  · intro hv
    -- the vertex is marked in its turn, if not before
    have hmarked (l : List Nat) (found : Array Bool × List Nat) (hmem : v ∈ l)
        (hlt : v < found.1.size) : (l.foldl (g.searchFrom g.size) found).1[v]? = some true := by
      induction l generalizing found with
      | nil => simp at hmem
      | cons w l ih =>
        have hstep := searched_searchFrom (g := g) g.size found w
        rcases mem_cons.1 hmem with rfl | hmem
        · exact (Searched.foldl (searched_searchFrom g.size) l _).marked v
            (marked_searchFrom (Nat.zero_lt_of_lt hv) hlt)
        · exact ih _ hmem (by rwa [hstep.size])
    have hv' := hmarked (List.range g.size) (Array.replicate g.size false, [])
      (mem_range.2 hv) (by simpa using hv)
    exact (h.new v hv').resolve_left (by simp [hv])

private theorem mem_collectComponents (h : C ∈ g.collectComponents reversed l found) :
    C ∈ found ∨ ∃ v ∈ l, C = g.component reversed v := by
  induction l generalizing found with
  | nil => exact .inl h
  | cons v l ih =>
    rw [collectComponents] at h
    split_ifs at h
    · exact (ih h).imp_right fun ⟨w, hw, hC⟩ => ⟨w, mem_cons_of_mem v hw, hC⟩
    · rcases ih h with h | ⟨w, hw, hC⟩
      · rcases mem_cons.1 h with rfl | h
        · exact .inr ⟨v, mem_cons_self, rfl⟩
        · exact .inl h
      · exact .inr ⟨w, mem_cons_of_mem v hw, hC⟩

private theorem mem_collectComponents_of_mem (h : C ∈ found) :
    C ∈ g.collectComponents reversed l found := by
  induction l generalizing found with
  | nil => exact h
  | cons v l ih =>
    rw [collectComponents]
    split_ifs
    · exact ih h
    · exact ih (mem_cons_of_mem _ h)

private theorem exists_mem_collectComponents (hself : v ∈ g.component reversed v) (hv : v ∈ l) :
    ∃ C ∈ g.collectComponents reversed l found, v ∈ C := by
  induction l generalizing found with
  | nil => simp at hv
  | cons w l ih =>
    rw [collectComponents]
    rcases mem_cons.1 hv with rfl | hv
    · split_ifs with hfound
      · obtain ⟨C, hC, hvC⟩ := any_eq_true.1 hfound
        exact ⟨C, mem_collectComponents_of_mem hC, by simpa using hvC⟩
      · exact ⟨_, mem_collectComponents_of_mem mem_cons_self, hself⟩
    · split_ifs
      · exact ih hv
      · exact ih hv

/-- A way to find the components: each is a class of vertices that can be reached from each other,
and every vertex is in one of them. -/
class Decomposes (components : Graph → List (List Nat)) : Prop where
  exists_of_mem {g : Graph} {C : List Nat} : g.InRange → C ∈ components g →
    ∃ v < g.size, C.Nodup ∧ ∀ w, w ∈ C ↔ g.Reach v w ∧ g.Reach w v
  exists_mem {g : Graph} {v : Nat} : g.InRange → v < g.size → ∃ C ∈ components g, v ∈ C

instance : Decomposes Graph.components where
  exists_of_mem hg h := by
    rcases mem_collectComponents h with h | ⟨v, hv, rfl⟩
    · simp at h
    · have hlt := mem_finishOrder_iff.1 hv
      exact ⟨v, hlt, nodup_range.filter _, fun w => mem_component_iff hg hlt⟩
  exists_mem hg hv :=
    exists_mem_collectComponents ((mem_component_iff hg hv).2 ⟨.refl, .refl⟩)
      (mem_finishOrder_iff.2 hv)

end Graph

end ShapeCheck
