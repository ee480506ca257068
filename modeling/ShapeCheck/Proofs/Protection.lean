import ShapeCheck.Proofs.CanonicalShape

/-!
# What stays concrete near the variables

An abstraction of depth `d` folds no node that is at most `d` steps away from a variable. Folding makes
paths shorter, and the distances are found anew after every fold; still the same nodes are protected all
the time. A fold takes away the selectors at a node beyond the depth and the one that leads there, which
starts at distance `d` at least. So a word of at most `d` selectors that can be followed from a variable
goes through selectors that no fold removes, and in the canonical shape it leads to the node that stands
for the one it leads to in the heap.
-/

namespace ShapeCheck

variable {f : Node → Node} {g g' h : Heap} {chain : Chain} {u v w s t : Node}
  {sel x : String} {word : List String} {i j depth : Nat}

namespace Heap

/-- The node that a word of selectors leads to. -/
def follow? (h : Heap) : Node → List String → Option Node
  | v, [] => some v
  | v, sel :: word => (h.selector? v sel).bind fun w => h.follow? w word

/-- The node that a word of selectors leads to from the node of a variable. -/
def access? (h : Heap) (x : String) (word : List String) : Option Node :=
  (h.var? x).bind fun v => h.follow? v word

theorem near_subset (hij : i ≤ j) (hu : u ∈ h.near i) : u ∈ h.near j := by
  obtain ⟨k, rfl⟩ := Nat.exists_eq_add_of_le' hij
  rw [mem_near_iff, Function.iterate_add_apply]
  exact iterate_spread_of (mem_near_iff.1 hu) k

theorem mem_near_succ (hu : u ∈ h.near i) (hw : h.selector? u sel = some w) : w ∈ h.near (i + 1) := by
  rw [mem_near_iff, Function.iterate_succ_apply']
  exact .inr ⟨u, mem_near_iff.1 hu, mem_successors_iff.2 (.inl ⟨sel, hw⟩)⟩

/-- The two heaps have the same nodes in each layer up to the depth, and these nodes have the same
names and, before the last layer, the same selectors. -/
structure AgreesNear (depth : Nat) (g h : Heap) : Prop where
  near : ∀ i ≤ depth, ∀ u, u ∈ g.near i ↔ u ∈ h.near i
  var : ∀ x, g.var? x = h.var? x
  selector : ∀ i < depth, ∀ u ∈ h.near i, ∀ sel, g.selector? u sel = h.selector? u sel

namespace AgreesNear

theorem refl (depth : Nat) (h : Heap) : AgreesNear depth h h :=
  ⟨fun _ _ _ => .rfl, fun _ => rfl, fun _ _ _ _ _ => rfl⟩

theorem fold (hg : AgreesNear depth g h) (hc : IsContraction chain s v t g g')
    (hv : v ∉ g.near depth) : AgreesNear depth g' h where
  near i hi u := (hc.mem_near_iff fun hmem => hv (near_subset hi hmem)).trans (hg.near i hi u)
  var x := (hc.var x).trans (hg.var x)
  selector i hi u hu sel := by
    refine Eq.trans (Option.ext fun w => ?_) (hg.selector i hi u hu sel)
    have hu : u ∈ g.near i := (hg.near i (Nat.le_of_lt hi) u).2 hu
    rw [← selector_mem_connections, ← selector_mem_connections, hc.mem_connections_iff]
    constructor
    · rintro (heq | ⟨hw, -⟩)
      · cases heq
      · exact hw
    · intro hw
      -- Neither end of the selector is the folded node, which lies beyond the depth.
      have hnext := mem_near_succ hu (selector_mem_connections.1 hw)
      refine .inr ⟨hw, fun hmem => hv ?_⟩
      have hcases : v = u ∨ v = w := by simpa [Connection.ends] using hmem
      rcases hcases with rfl | rfl
      · exact near_subset (Nat.le_of_lt hi) hu
      · exact near_subset hi hnext

theorem follow?_eq (hg : AgreesNear depth g h) (hu : u ∈ h.near i) (hword : i + word.length ≤ depth) :
    g.follow? u word = h.follow? u word := by
  induction word generalizing u i with
  | nil => rfl
  | cons sel word ih =>
    rw [List.length_cons] at hword
    rw [follow?, follow?, hg.selector i (by omega) u hu]
    cases hw : h.selector? u sel with
    | none => rfl
    | some w => exact ih (mem_near_succ hu hw) (by omega)

/-- A word of selectors that is not longer than the depth leads to the same node in both heaps. -/
theorem access?_eq (hg : AgreesNear depth g h) (hword : word.length ≤ depth) :
    g.access? x word = h.access? x word := by
  rw [access?, access?, hg.var]
  cases hx : h.var? x with
  | none => rfl
  | some v => exact hg.follow?_eq (mem_near_of_var? hx 0) (by omega)

end AgreesNear

/-- However many nodes are folded, none of them is near the variables, and nothing changes there. -/
theorem InRange.agreesNear_foldAll (hh : h.InRange) (A : Abstraction) (depth steps : Nat) :
    AgreesNear depth (A.foldAll depth steps h []).1 h ∧
      ∀ v ∈ (A.foldAll depth steps h []).2, v ∉ h.near depth :=
  (Abstraction.IsReducing.foldAll_induction A depth steps
    (P := fun g folded => AgreesNear depth g h ∧ ∀ v ∈ folded, v ∉ h.near depth)
    (fun _ _ _ _ _ _ v _ _ hc _ _ _ _ hnear hP => ⟨hP.1.fold hc hnear,
      List.forall_mem_cons.2 ⟨fun hv => hnear ((hP.1.near depth (Nat.le_refl _) v).2 hv), hP.2⟩⟩)
    (.start hh) ⟨.refl depth h, by simp⟩).2

theorem IsPart.follow?_eq (hf : IsPart f g h) (hg : g.InRange) (hu : u < g.size) :
    h.follow? (f u) word = (g.follow? u word).map f := by
  induction word generalizing u with
  | nil => rfl
  | cons sel word ih =>
    rw [follow?, follow?, hf.selector u hu]
    cases hw : g.selector? u sel with
    | none => rfl
    | some w => exact ih (hg.selector u sel w hw)

theorem IsPart.access?_eq (hf : IsPart f g h) (hg : g.InRange) :
    h.access? x word = (g.access? x word).map f := by
  rw [access?, access?, hf.var]
  cases hx : g.var? x with
  | none => rfl
  | some v => exact hf.follow?_eq hg (hg.var x v hx)

/-- The nodes of the canonical shape stand for different nodes of the heap, and words of selectors that
are not longer than the depth lead to the same nodes. -/
theorem InRange.exists_access?_shapeAt (hh : h.InRange) (A : Abstraction) (depth : Nat) :
    ∃ f : Node → Node, f Node.null = Node.null ∧
      (∀ u < (A.shapeAt depth h).size, ∀ v < (A.shapeAt depth h).size, f u = f v → u = v) ∧
      ∀ x word, word.length ≤ depth →
        h.access? x word = ((A.shapeAt depth h).access? x word).map f := by
  obtain ⟨f, hf, -⟩ := hh.exists_isCore_shapeAt A depth
  refine ⟨f, hf.null, hf.inj, fun x word hword => ?_⟩
  rw [← (hh.agreesNear_foldAll A depth h.size).1.access?_eq hword,
    hf.access?_eq (hh.inRange_shapeAt A depth)]

theorem InRange.lt_of_follow? (hh : h.InRange) (hu : u < h.size) (hv : h.follow? u word = some v) :
    v < h.size := by
  induction word generalizing u with
  | nil => exact Option.some.inj hv ▸ hu
  | cons sel word ih =>
    obtain ⟨w, hw, hv⟩ := Option.bind_eq_some_iff.1 hv
    exact ih (hh.selector u sel w hw) hv

theorem InRange.lt_of_access? (hh : h.InRange) (hv : h.access? x word = some v) : v < h.size := by
  obtain ⟨u, hu, hv⟩ := Option.bind_eq_some_iff.1 hv
  exact hh.lt_of_follow? (hh.var x u hu) hv

end Heap

namespace Abstraction

/-- No node within the depth is folded. A word of selectors that is not longer than the depth and can be
followed from a variable can be followed in the canonical shape; it leads to null there if and only if
it does so in the heap, and two such words lead to one node there if and only if they do in the heap. -/
theorem canonical_protects (A : Abstraction) (h : Heap) (hh : h.InRange) :
    (∀ v ∈ (A.foldAll A.depth h.size h []).2, v ∉ h.near A.depth) ∧
      ∀ x p u, p.length ≤ A.depth → h.access? x p = some u →
        ∃ u', (A.canonical h).access? x p = some u' ∧ (u' = Node.null ↔ u = Node.null) ∧
          ∀ y q v, q.length ≤ A.depth → h.access? y q = some v →
            ∃ v', (A.canonical h).access? y q = some v' ∧ (u' = v' ↔ u = v) := by
  refine ⟨(hh.agreesNear_foldAll A A.depth h.size).2, fun x p u hp hu => ?_⟩
  obtain ⟨f, hnull, hinj, haccess⟩ := hh.exists_access?_shapeAt A A.depth
  have hshape := hh.inRange_shapeAt A A.depth
  have hstands {y : String} {q : List String} {v : Node} (hq : q.length ≤ A.depth)
      (hv : h.access? y q = some v) :
      ∃ v' < (A.canonical h).size, (A.canonical h).access? y q = some v' ∧ f v' = v := by
    obtain ⟨v', hv', heq⟩ := Option.map_eq_some_iff.1 ((haccess y q hq).symm.trans hv)
    exact ⟨v', hshape.lt_of_access? hv', hv', heq⟩
  obtain ⟨u', hlt, hu', rfl⟩ := hstands hp hu
  refine ⟨u', hu', ⟨fun heq => heq ▸ hnull, fun heq => ?_⟩, fun y q v hq hv => ?_⟩
  · exact hinj u' hlt Node.null hshape.pos (heq.trans hnull.symm)
  · obtain ⟨v', hlt', hv', rfl⟩ := hstands hq hv
    exact ⟨v', hv', fun heq => heq ▸ rfl, hinj u' hlt v' hlt'⟩

/-- Lists are summarised from the third step on. -/
def behindSecond : Abstraction :=
  { depth := 2 }

/-- The lists of `x` and `y` join, behind two steps and behind one; the list of `z` has one node. -/
def joined : Heap :=
  ⟨[∅, .ofList [("next", 2)], .ofList [("next", 3)], .ofList [("next", 4)], .ofList [("next", 5)],
      .ofList [("next", 7)], .ofList [("next", 3)], .ofList [("next", 0)], .ofList [("next", 0)]],
    .ofList [("x", 1), ("y", 6), ("z", 8)], []⟩

theorem canonical_protects_joined : joined.InRange ∧
    joined.access? "x" ["next", "next"] = some 3 ∧ joined.access? "y" ["next"] = some 3 ∧
    joined.access? "z" ["next"] = some 0 ∧ (behindSecond.canonical joined).size = 7 ∧
    (behindSecond.foldAll 2 9 joined []).2 = [7, 5] ∧
    ∃ u', (behindSecond.canonical joined).access? "x" ["next", "next"] = some u' ∧
      u' ≠ Node.null ∧ (behindSecond.canonical joined).access? "y" ["next"] = some u' := by
  have hh : joined.InRange := by decide +kernel
  have hx : joined.access? "x" ["next", "next"] = some 3 := by decide +kernel
  have hy : joined.access? "y" ["next"] = some 3 := by decide +kernel
  obtain ⟨u', hu', hnull, hall⟩ := (canonical_protects behindSecond joined hh).2 "x"
    ["next", "next"] 3 (by decide) hx
  obtain ⟨v', hv', heq⟩ := hall "y" ["next"] 3 (by decide) hy
  obtain rfl := heq.2 rfl
  exact ⟨hh, hx, hy, by decide +kernel, by decide +kernel, by decide +kernel, u', hu',
    fun hzero => absurd (hnull.1 hzero) (by decide), hv'⟩

end Abstraction

end ShapeCheck
