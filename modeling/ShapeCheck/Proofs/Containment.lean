import ShapeCheck.Proofs.CallReturn
import ShapeCheck.Proofs.CanonicalShape

/-!
# References stay within a heap

Selectors, variables, summaries and the frames of calls all refer to nodes by their numbers, and
several operations drop nodes and renumber the others. Still no operation leaves a reference to a node
that is not there, and none gives null a selector.
-/

namespace ShapeCheck

open Call List

variable {A : Abstraction} {g g' h post : Heap} {u v w : Node} {sel : String}

namespace Heap

/-- `g` has the nodes of `h`, and only selectors, variables and summaries that `h` has. -/
structure IsPruning (g h : Heap) : Prop where
  size : g.size = h.size
  selector : ∀ v sel w, g.selector? v sel = some w → h.selector? v sel = some w
  var : ∀ x v, g.var? x = some v → h.var? x = some v
  summaries : ∀ e ∈ g.summaries, e ∈ h.summaries

namespace IsPruning

theorem refl (h : Heap) : IsPruning h h :=
  ⟨rfl, fun _ _ _ => id, fun _ _ => id, fun _ => id⟩

theorem trans (hg : IsPruning g' g) (hh : IsPruning g h) : IsPruning g' h where
  size := hg.size.trans hh.size
  selector v sel w := hh.selector v sel w ∘ hg.selector v sel w
  var x v := hh.var x v ∘ hg.var x v
  summaries e := hh.summaries e ∘ hg.summaries e

theorem inRange (hg : IsPruning g h) (hh : h.InRange) : g.InRange where
  pos := hg.size ▸ hh.pos
  selector v sel w hw := hg.size ▸ hh.selector v sel w (hg.selector v sel w hw)
  var x v hv := hg.size ▸ hh.var x v (hg.var x v hv)
  ends e he v hv := hg.size ▸ hh.ends e (hg.summaries e he) v hv

end IsPruning

theorem isPruning_dropSelector (h : Heap) (v : Node) (sel : String) :
    IsPruning (h.dropSelector v sel) h := by
  refine ⟨size_dropSelector, fun u s w hw => ?_, fun _ _ => id, fun _ => id⟩
  rw [selector?_dropSelector] at hw
  split at hw
  · cases hw
  · exact hw

theorem isPruning_clearCell (h : Heap) (v : Node) : IsPruning (h.clearCell v) h := by
  refine ⟨size_modifyCell _, fun u s w hw => ?_, fun _ _ => id, fun _ => id⟩
  rw [selector?, cell_clearCell] at hw
  split at hw
  · cases hw
  · exact hw

theorem isPruning_foldl_clearCell (l : List Node) : IsPruning (l.foldl clearCell h) h := by
  induction l generalizing h with
  | nil => exact .refl h
  | cons v l ih => exact ih.trans (isPruning_clearCell h v)

theorem isPruning_dropVar (h : Heap) (x : String) : IsPruning (h.dropVar x) h := by
  refine ⟨rfl, fun _ _ _ => id, fun y v hv => ?_, fun _ => id⟩
  rw [var?, dropVar, SortedMap.find?_erase] at hv
  split at hv
  · cases hv
  · exact hv

theorem isPruning_dropSummaries (h : Heap) (positions : List Nat) :
    IsPruning (h.dropSummaries positions) h := by
  refine ⟨rfl, fun _ _ _ => id, fun _ _ => id, fun e he => ?_⟩
  obtain ⟨j, hj, -⟩ := mem_dropSummaries_iff.1 he
  exact mem_of_getElem? hj

theorem isPruning_keepSummaries (h : Heap) (p : Summary → Bool) : IsPruning (h.keepSummaries p) h :=
  ⟨rfl, fun _ _ _ => id, fun _ _ => id, fun _ => mem_of_mem_filter⟩

theorem InRange.setSelector (hh : h.InRange) (hw : w < h.size) :
    (h.setSelector v sel w).InRange := by
  refine ⟨by simpa using hh.pos, fun u s t ht => ?_, fun y u hu => ?_, fun e he u hu => ?_⟩ <;>
    rw [size_setSelector]
  · by_cases hne : v = Node.null
    · rw [Heap.setSelector, if_pos hne] at ht
      exact hh.selector u s t ht
    · rw [selector?_setSelector hne] at ht
      split at ht
      · exact Option.some.inj ht ▸ hw
      · exact hh.selector u s t ht
  · exact hh.var y u (by simpa using hu)
  · exact hh.ends e (by simpa using he) u hu

theorem InRange.addSummary (hh : h.InRange) {ends : List Node} (hends : ∀ v ∈ ends, v < h.size)
    (label : String) : (h.addSummary label ends).InRange := by
  refine ⟨hh.pos, hh.selector, hh.var, fun e he => ?_⟩
  rcases mem_append.1 he with he | he
  · exact hh.ends e he
  · rw [mem_singleton.1 he]
    exact hends

theorem InRange.splitOff (hh : h.InRange) (v : Node) (sel : String) (i : Nat) :
    (Abstraction.splitOff h v sel i).InRange :=
  ((isPruning_dropSummaries h [i]).inRange hh).grow.setSelector (by simp)

section Unfold

variable {i : Nat} {target : Node} (hh : h.InRange) (htarget : target < h.size)

include hh htarget

theorem InRange.splitOff_setSelector :
    ((Abstraction.splitOff h v sel i).setSelector h.size sel target).InRange :=
  (hh.splitOff v sel i).setSelector (by simpa using Nat.lt_succ_of_lt htarget)

theorem InRange.splitOff_addSummary (label : String) :
    ((Abstraction.splitOff h v sel i).addSummary label [h.size, target]).InRange :=
  (hh.splitOff v sel i).addSummary (by simpa using Nat.lt_succ_of_lt htarget) label

end Unfold

theorem InRange.of_unfoldAt (hh : h.InRange) {heaps : List Heap}
    (hheaps : A.unfoldAt h v sel = .ok heaps) (hg : g ∈ heaps) : g.InRange := by
  rcases Abstraction.unfoldAt_cases hheaps hg with
    ⟨rfl, -⟩ | ⟨chain, -, i, target, -, -, -, hi, hcases⟩
  · exact hh
  · have htarget : target < h.size := hh.ends _ (mem_of_getElem? hi) target (by simp)
    rcases hcases with rfl | rfl
    · exact (hh.splitOff_setSelector htarget).inRange_normalize
    · exact (hh.splitOff_addSummary htarget chain.label).inRange_normalize

/-- Null has no selectors. -/
def IsGrounded (h : Heap) : Prop :=
  ∀ sel, h.selector? Node.null sel = none

theorem isGrounded_iff : h.IsGrounded ↔ h.cell Node.null = ∅ :=
  ⟨fun hh => SortedMap.ext hh, fun hh sel => by rw [selector?, hh, SortedMap.find?_empty]⟩

instance (h : Heap) : Decidable h.IsGrounded :=
  decidable_of_iff _ isGrounded_iff.symm

theorem IsPruning.isGrounded (hg : IsPruning g h) (hh : h.IsGrounded) : g.IsGrounded := by
  intro sel
  refine Option.eq_none_iff_forall_ne_some.2 fun w hw => ?_
  have := hg.selector _ _ _ hw
  rw [hh sel] at this
  cases this

@[simp]
theorem selector?_setSelector_null {s : String} :
    (h.setSelector v sel w).selector? Node.null s = h.selector? Node.null s := by
  by_cases hv : v = Node.null
  · rw [setSelector, if_pos hv]
  · rw [selector?_setSelector hv, if_neg fun hand => hv hand.1.symm]

namespace IsGrounded

theorem setSelector (hh : h.IsGrounded) : (h.setSelector v sel w).IsGrounded := fun s =>
  selector?_setSelector_null.trans (hh s)

theorem grow (hh : h.IsGrounded) : h.grow.IsGrounded := fun s => selector?_grow.trans (hh s)

theorem relabel (hh : h.IsGrounded) {order : List Node} (horder : order.head? = some Node.null) :
    (h.relabel order).IsGrounded := by
  intro sel
  obtain ⟨rest, rfl⟩ := head?_eq_some_iff.1 horder
  have hnull : nodeAt (Node.null :: rest) Node.null = Node.null := rfl
  rw [selector?_relabel (Nat.succ_pos rest.length), hnull, hh sel, Option.bind_none]

theorem normalize (hg : h.IsGrounded) (hh : h.InRange) : h.normalize.IsGrounded :=
  hg.relabel hh.head?_canonicalOrder

theorem dropNodes (hg : h.IsGrounded) (hh : h.InRange) (dead : List Bool) :
    (h.dropNodes dead).IsGrounded := by
  rw [Heap.dropNodes]
  split
  · exact hg.relabel (head?_filter_nodes hh (by simp))
  · exact hg

theorem collect (hg : h.IsGrounded) (hh : h.InRange) : h.collect.IsGrounded := by
  rw [Heap.collect]
  split
  · exact hg
  · exact hg.relabel (head?_filter_nodes hh (by simpa using hh.mem_reach_roots_iff.2 .null))

theorem contraction (hg : g.IsGrounded) {chain : Chain} (hc : IsContraction chain u v w g g') :
    g'.IsGrounded := by
  intro sel
  refine Option.eq_none_iff_forall_ne_some.2 fun t ht => ?_
  rcases hc.mem_connections_iff.1 (selector_mem_connections.2 ht) with heq | ⟨hold, -⟩
  · cases heq
  · rw [selector_mem_connections, hg sel] at hold
    cases hold

theorem shapeAt (hg : h.IsGrounded) (hh : h.InRange) (A : Abstraction) (depth : Nat) :
    (A.shapeAt depth h).IsGrounded := by
  obtain ⟨hred, hfolded⟩ := Abstraction.IsReducing.foldAll_induction A depth h.size
    (P := fun g _ => g.IsGrounded)
    (fun _ _ _ _ _ _ _ _ _ hc _ _ _ _ _ hP => hP.contraction hc) (.start hh) hg
  exact (hfolded.dropNodes hred.inRange _).normalize (hred.inRange.inRange_dropNodes _)

theorem of_unfoldAt (hg : h.IsGrounded) (hh : h.InRange) {heaps : List Heap}
    (hheaps : A.unfoldAt h v sel = .ok heaps) (hg' : g' ∈ heaps) : g'.IsGrounded := by
  rcases Abstraction.unfoldAt_cases hheaps hg' with
    ⟨rfl, -⟩ | ⟨chain, -, i, target, -, -, -, hi, hcases⟩
  · exact hg
  · have htarget : target < h.size := hh.ends _ (mem_of_getElem? hi) target (by simp)
    have hsplit : (Abstraction.splitOff h v sel i).IsGrounded :=
      ((isPruning_dropSummaries h [i]).isGrounded hg).grow.setSelector
    rcases hcases with rfl | rfl
    · exact hsplit.setSelector.normalize (hh.splitOff_setSelector htarget)
    · exact normalize (h := (Abstraction.splitOff h v sel i).addSummary _ _) hsplit
        (hh.splitOff_addSummary htarget chain.label)

end IsGrounded

end Heap

namespace Call

variable {nodes : List Node} {frame : Frame}

theorem inRange_bindInterface (hh : h.InRange) (hnodes : ∀ u ∈ nodes, u < h.size) :
    (bindInterface h nodes).InRange := by
  refine ⟨by simpa using hh.pos, fun u s t ht => ?_, fun y u hu => ?_, fun e he u hu => ?_⟩ <;>
    rw [size_bindInterface]
  · exact hh.selector u s t (by simpa using ht)
  · rw [var?_bindInterface, Option.or_eq_some_iff] at hu
    rcases hu with hu | ⟨-, hu⟩
    · obtain ⟨i, -, hi⟩ := interfaceMap_eq_some_iff.1 hu
      exact hnodes u (mem_of_getElem? hi)
    · exact hh.var y u hu
  · exact hh.ends e (by simpa using he) u hu

/-- The heap that a callee starts with. It takes from the caller's heap only what it has a number
for. -/
theorem inRange_enter (h : Heap) (params : List String) (args : List Node) :
    (enter h params args).1.InRange := by
  refine inRange_bindInterface inRange_callee fun u hu => ?_
  obtain ⟨u, -, rfl⟩ := mem_map.1 hu
  rw [size_callee]
  exact calleeNode_lt

theorem isGrounded_enter (h : Heap) (params : List String) (args : List Node) :
    (enter h params args).1.IsGrounded := fun _ =>
  selector?_bindInterface.trans selector?_callee_null

theorem isPruning_outer (h : Heap) (params : List String) (args : List Node) :
    Heap.IsPruning (enter h params args).2.outer h :=
  (Heap.isPruning_keepSummaries _ _).trans (Heap.isPruning_foldl_clearCell _)

/-- The caller's part of a heap, and the interface, refer to nodes of the caller's part only. -/
structure Frame.InRange (frame : Frame) : Prop where
  outer : frame.outer.InRange
  interface : ∀ u ∈ frame.interface, u < frame.outer.size

theorem inRange_frame (hh : h.InRange) (params : List String) (args : List Node) :
    (enter h params args).2.InRange := by
  have houter := isPruning_outer h params args
  refine ⟨houter.inRange hh, fun u hu => ?_⟩
  have hinside := (mem_interfaceNodes_iff.1 hu).1
  exact houter.size ▸ (isFragment_fragment hh args).lt u hinside

/-- The caller's heap after a call before garbage is collected. -/
def Frame.assigned (frame : Frame) (post : Heap) (result? : Option String) : Heap :=
  match result? with
  | none => frame.glued post
  | some x => (frame.glued post).setVar x
      (((post.var? returnVar).map (frame.callerNode post)).getD Node.null)

theorem selector?_foldl_setSelector_cases {writes : List (Node × String × Node)}
    (hw : (writes.foldl (fun h e => h.setSelector e.1 e.2.1 e.2.2) g).selector? u sel = some w) :
    g.selector? u sel = some w ∨ u ≠ Node.null ∧ (u, sel, w) ∈ writes := by
  induction writes generalizing g with
  | nil => exact .inl hw
  | cons e writes ih =>
    rw [foldl_cons] at hw
    rcases ih hw with hold | ⟨hne, hnew⟩
    · by_cases hne : e.1 = Node.null
      · rw [Heap.setSelector, if_pos hne] at hold
        exact .inl hold
      · rw [Heap.selector?_setSelector hne] at hold
        split at hold
        · next heq =>
          obtain ⟨rfl, -, rfl⟩ := heq
          exact .inr ⟨hne, Option.some.inj hold ▸ mem_cons_self⟩
        · exact .inl hold
    · exact .inr ⟨hne, mem_cons_of_mem _ hnew⟩

/-- A selector of the glued heap was there before, or was copied to a node other than null. -/
theorem Frame.selector?_glued_cases (hw : (frame.glued post).selector? u sel = some w) :
    frame.outer.selector? u sel = some w ∨ u ≠ Node.null ∧ (u, sel, w) ∈ frame.writes post := by
  rw [glued, foldl_addSummary_eq, copyCells_eq] at hw
  refine (selector?_foldl_setSelector_cases hw).imp_left fun hw => ?_
  rwa [(foldl_grow_eq _).2.1] at hw

theorem Frame.isGrounded_glued (hframe : frame.outer.IsGrounded) : (frame.glued post).IsGrounded := by
  intro sel
  refine Option.eq_none_iff_forall_ne_some.2 fun w hw => ?_
  rcases selector?_glued_cases hw with hw | ⟨hne, -⟩
  · rw [hframe sel] at hw
    cases hw
  · exact hne rfl

namespace Frame.InRange

variable (hframe : frame.InRange)
include hframe

theorem callerNode_lt (hv : v < post.size) : frame.callerNode post v < (frame.glued post).size := by
  rw [size_glued, callerNode]
  split
  · next u hu =>
    obtain ⟨l, l', heq, -⟩ := lookup_eq_some_iff.1 hu
    have hmem : (v, u) ∈ frame.named post := by
      rw [← mem_reverse, heq]
      exact mem_append_right _ mem_cons_self
    obtain ⟨-, i, -, -, hi⟩ := mem_named_iff.1 hmem
    exact Nat.lt_add_right _ (hframe.interface u (mem_of_getElem? hi))
  · next hnone =>
    split
    · exact Nat.lt_add_right _ hframe.outer.pos
    · next hne =>
      refine Nat.add_lt_add_left (idxOf_lt_length_of_mem ?_) _
      refine mem_freshNodes_iff.2 ⟨hv, hne, fun u hu => ?_⟩
      have := lookup_eq_none_iff.1 hnone (v, u) (mem_reverse.2 hu)
      simp at this

theorem glued (hpost : post.InRange) : (frame.glued post).InRange := by
  have hle : frame.outer.size ≤ (frame.glued post).size := size_glued ▸ Nat.le_add_right _ _
  refine ⟨Nat.lt_of_lt_of_le hframe.outer.pos hle, fun u s t ht => ?_, fun y u hu => ?_,
    fun e he u hu => ?_⟩
  · rcases selector?_glued_cases ht with ht | ⟨-, ht⟩
    · exact Nat.lt_of_lt_of_le (hframe.outer.selector u s t ht) hle
    · obtain ⟨v, t, -, hsel, -, rfl⟩ := mem_writes_iff.1 ht
      exact hframe.callerNode_lt (hpost.selector v s t hsel)
  · rw [var?_glued] at hu
    exact Nat.lt_of_lt_of_le (hframe.outer.var y u hu) hle
  · rw [summaries_glued, mem_append] at he
    rcases he with he | he
    · exact Nat.lt_of_lt_of_le (hframe.outer.ends e he u hu) hle
    · obtain ⟨e', he', rfl⟩ := mem_map.1 he
      obtain ⟨v, hv, rfl⟩ := mem_map.1 hu
      exact hframe.callerNode_lt (hpost.ends e' he' v hv)

theorem result_lt (hpost : post.InRange) :
    ((post.var? returnVar).map (frame.callerNode post)).getD Node.null < (frame.glued post).size := by
  cases hv : post.var? returnVar with
  | none => exact (hframe.glued hpost).pos
  | some v => exact hframe.callerNode_lt (hpost.var _ v hv)

theorem assigned (hpost : post.InRange) (result? : Option String) :
    (frame.assigned post result?).InRange := by
  cases result? with
  | none => exact hframe.glued hpost
  | some x => exact (hframe.glued hpost).setVar (hframe.result_lt hpost)

theorem resume (hpost : post.InRange) (result? : Option String) :
    (frame.resume post result?).InRange :=
  (hframe.assigned hpost result?).inRange_collect

theorem isGrounded_resume (hground : frame.outer.IsGrounded) (hpost : post.InRange)
    (result? : Option String) : (frame.resume post result?).IsGrounded := by
  refine Heap.IsGrounded.collect ?_ (hframe.assigned hpost result?)
  cases result? <;> exact isGrounded_glued hground

end Frame.InRange

end Call

end ShapeCheck
