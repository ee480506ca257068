import ShapeCheck.Proofs.Guarded

/-!
# Sequences of operations

An analysis holds many heaps at once, and a frame for every call that it has entered. Each operation
takes one of the heaps, or a frame and a heap, and adds its results to them. Whatever the sequence of
operations, all heaps and frames keep their references in range, null stays a node without selectors, and
no operation looks up a node or a position that is not there.
-/

namespace ShapeCheck

open Call List

/-- An operation that takes one heap to another. -/
inductive Edit where
  | grow
  | setSelector (v : Node) (sel : String) (t : Node)
  | dropSelector (v : Node) (sel : String)
  | clearCell (v : Node)
  | setVar (x : String) (v : Node)
  | dropVar (x : String)
  | keepVars (p : String → Bool)
  | addSummary (label : String) (ends : List Node)
  | dropSummary (i : Nat)
  | keepSummaries (p : Summary → Bool)
  | collect
  | dropNodes (dead : List Bool)
  | normalize
  | canonical (A : Abstraction)
  | coarsest (A : Abstraction)

namespace Edit

/-- The heap after an operation. -/
def apply (h : Heap) : Edit → Heap
  | grow => h.grow
  | setSelector v sel t => h.setSelector v sel t
  | dropSelector v sel => h.dropSelector v sel
  | clearCell v => h.clearCell v
  | setVar x v => h.setVar x v
  | dropVar x => h.dropVar x
  | keepVars p => h.keepVars p
  | addSummary label ends => h.addSummary label ends
  | dropSummary i => h.dropSummaries [i]
  | keepSummaries p => h.keepSummaries p
  | collect => h.collect
  | dropNodes dead => h.dropNodes dead
  | normalize => h.normalize
  | canonical A => A.canonical h
  | coarsest A => A.coarsest h

/-- Whether the nodes that the heap is made to refer to, and the position of a summary, are there. -/
def fits (h : Heap) : Edit → Bool
  | setSelector _ _ t => h.contains t
  | setVar _ v => h.contains v
  | addSummary _ ends => ends.all h.contains
  | dropSummary i => i < h.summaries.length
  | _ => true

/-- The heap after an operation, if all lookups succeed. -/
def guarded (h : Heap) : Edit → Option Heap
  | setSelector v sel t => do
    Guarded.touch h.size [t]
    return h.setSelector v sel t
  | setVar x v => do
    Guarded.touch h.size [v]
    return h.setVar x v
  | dropSummary i => do
    Guarded.require (i < h.summaries.length)
    return h.dropSummaries [i]
  | collect => Guarded.collect h
  | dropNodes dead => Guarded.dropNodes h dead
  | normalize => Guarded.normalize h
  | canonical A => Guarded.shapeAt A A.depth h
  | coarsest A => Guarded.shapeAt A 0 h
  | e => some (e.apply h)

variable {e : Edit} {h : Heap}

theorem inRange_apply (hh : h.InRange) (hfits : e.fits h) : (e.apply h).InRange := by
  cases e with
  | grow => exact hh.grow
  | setSelector v sel t => exact hh.setSelector (of_decide_eq_true hfits)
  | dropSelector v sel => exact (h.isPruning_dropSelector v sel).inRange hh
  | clearCell v => exact (h.isPruning_clearCell v).inRange hh
  | setVar x v => exact hh.setVar (of_decide_eq_true hfits)
  | dropVar x => exact (h.isPruning_dropVar x).inRange hh
  | keepVars p => exact hh.keepVars p
  | addSummary label ends =>
    exact hh.addSummary (fun v hv => of_decide_eq_true (all_eq_true.1 hfits v hv)) label
  | dropSummary i => exact (h.isPruning_dropSummaries [i]).inRange hh
  | keepSummaries p => exact (h.isPruning_keepSummaries p).inRange hh
  | collect => exact hh.inRange_collect
  | dropNodes dead => exact hh.inRange_dropNodes dead
  | normalize => exact hh.inRange_normalize
  | canonical A => exact hh.inRange_shapeAt A _
  | coarsest A => exact hh.inRange_shapeAt A _

theorem isGrounded_apply (hground : h.IsGrounded) (hh : h.InRange) : (e.apply h).IsGrounded := by
  cases e with
  | grow => exact hground.grow
  | setSelector v sel t => exact hground.setSelector
  | dropSelector v sel => exact (h.isPruning_dropSelector v sel).isGrounded hground
  | clearCell v => exact (h.isPruning_clearCell v).isGrounded hground
  | setVar x v => exact hground
  | dropVar x => exact hground
  | keepVars p => exact hground
  | addSummary label ends => exact hground
  | dropSummary i => exact hground
  | keepSummaries p => exact hground
  | collect => exact hground.collect hh
  | dropNodes dead => exact hground.dropNodes hh dead
  | normalize => exact hground.normalize hh
  | canonical A => exact hground.shapeAt hh A _
  | coarsest A => exact hground.shapeAt hh A _

theorem guarded_eq (hh : h.InRange) (hfits : e.fits h) : e.guarded h = some (e.apply h) := by
  have htouch {v : Node} (hv : h.contains v) : Guarded.touch h.size [v] = some () :=
    Guarded.touch_eq (by simpa [Heap.contains] using hv)
  cases e with
  | setSelector v sel t =>
    rw [guarded, htouch hfits]
    rfl
  | setVar x v =>
    rw [guarded, htouch hfits]
    rfl
  | dropSummary i =>
    rw [guarded, Guarded.require_eq (of_decide_eq_true hfits)]
    rfl
  | collect => exact Guarded.collect_eq hh
  | dropNodes dead => exact Guarded.dropNodes_eq hh dead
  | normalize => exact Guarded.normalize_eq hh
  | canonical A => exact Guarded.shapeAt_eq hh A _
  | coarsest A => exact Guarded.shapeAt_eq hh A _
  | _ => rfl

end Edit

/-- The heaps and frames that were made so far. -/
structure Store where
  heaps : List Heap
  frames : List Frame
  deriving DecidableEq

/-- An operation on heaps and frames, which are given by their positions. -/
inductive Action where
  | edit (i : Nat) (e : Edit)
  | unfoldAt (i : Nat) (A : Abstraction) (v : Node) (sel : String)
  | enter (i : Nat) (params : List String) (args : List Node)
  | resume (j i : Nat) (result? : Option String)

namespace Store

/-- The heap at a position. -/
def heap (store : Store) (i : Nat) : Heap :=
  store.heaps.getD i default

/-- The frame at a position. -/
def frame (store : Store) (i : Nat) : Frame :=
  store.frames.getD i default

/-- Add heaps and frames. All old ones are kept. -/
def extend (store new : Store) : Store :=
  ⟨store.heaps ++ new.heaps, store.frames ++ new.frames⟩

end Store

namespace Action

/-- The heaps and frames that an operation makes. -/
def results (store : Store) : Action → Store
  | edit i e => ⟨[e.apply (store.heap i)], []⟩
  | unfoldAt i A v sel => ⟨(A.unfoldAt (store.heap i) v sel).toOption.getD [], []⟩
  | enter i params args =>
    let (start, frame) := Call.enter (store.heap i) params args
    ⟨[start], [frame]⟩
  | resume j i result? => ⟨[(store.frame j).resume (store.heap i) result?], []⟩

/-- Whether the heaps and frames of an operation are there, and its nodes belong to them. -/
def fits (store : Store) : Action → Bool
  | edit i e => i < store.heaps.length && e.fits (store.heap i)
  | unfoldAt i _ _ _ => i < store.heaps.length
  | enter i _ args => i < store.heaps.length && args.all (store.heap i).contains
  | resume j i _ => j < store.frames.length && i < store.heaps.length

/-- The heaps and frames that an operation makes, if all lookups succeed. -/
def guarded (store : Store) : Action → Option Store
  | edit i e => do
    let h ← store.heaps[i]?
    return ⟨[← e.guarded h], []⟩
  | unfoldAt i A v sel => do
    let h ← store.heaps[i]?
    return ⟨(← Guarded.unfoldAt A h v sel).toOption.getD [], []⟩
  | enter i params args => do
    let h ← store.heaps[i]?
    let (start, frame) ← Guarded.enter h params args
    return ⟨[start], [frame]⟩
  | resume j i result? => do
    let frame ← store.frames[j]?
    let post ← store.heaps[i]?
    return ⟨[← Guarded.resume frame post result?], []⟩

end Action

namespace Store

variable {store new : Store} {op : Action} {ops : List Action} {i : Nat}

/-- The heaps and frames after a sequence of operations, with all that were made on the way. -/
def run (store : Store) : List Action → Store
  | [] => store
  | op :: ops => (store.extend (op.results store)).run ops

/-- The heaps and frames after a sequence of operations, if all lookups succeed. -/
def runGuarded (store : Store) : List Action → Option Store
  | [] => some store
  | op :: ops => do (store.extend (← op.guarded store)).runGuarded ops

/-- Whether each operation of a sequence fits the heaps and frames that are there by then. -/
def fitAll (store : Store) : List Action → Bool
  | [] => true
  | op :: ops => op.fits store && (store.extend (op.results store)).fitAll ops

/-- All references are in range. -/
structure InRange (store : Store) : Prop where
  heaps : ∀ h ∈ store.heaps, h.InRange
  frames : ∀ frame ∈ store.frames, frame.InRange

/-- Null has no selectors in any heap, nor in the caller's part of one. -/
structure IsGrounded (store : Store) : Prop where
  heaps : ∀ h ∈ store.heaps, h.IsGrounded
  frames : ∀ frame ∈ store.frames, frame.outer.IsGrounded

theorem getElem?_heaps (hi : i < store.heaps.length) : store.heaps[i]? = some (store.heap i) := by
  rw [heap, List.getD, getElem?_eq_getElem hi, Option.getD_some]

theorem getElem?_frames (hi : i < store.frames.length) :
    store.frames[i]? = some (store.frame i) := by
  rw [frame, List.getD, getElem?_eq_getElem hi, Option.getD_some]

theorem InRange.extend (hstore : store.InRange) (hnew : new.InRange) :
    (store.extend new).InRange where
  heaps := forall_mem_append.2 ⟨hstore.heaps, hnew.heaps⟩
  frames := forall_mem_append.2 ⟨hstore.frames, hnew.frames⟩

theorem IsGrounded.extend (hstore : store.IsGrounded) (hnew : new.IsGrounded) :
    (store.extend new).IsGrounded where
  heaps := forall_mem_append.2 ⟨hstore.heaps, hnew.heaps⟩
  frames := forall_mem_append.2 ⟨hstore.frames, hnew.frames⟩

theorem InRange.heap (hstore : store.InRange) (hi : i < store.heaps.length) :
    (store.heap i).InRange :=
  hstore.heaps _ (mem_of_getElem? (getElem?_heaps hi))

theorem InRange.frame (hstore : store.InRange) (hi : i < store.frames.length) :
    (store.frame i).InRange :=
  hstore.frames _ (mem_of_getElem? (getElem?_frames hi))

theorem IsGrounded.heap (hstore : store.IsGrounded) (hi : i < store.heaps.length) :
    (store.heap i).IsGrounded :=
  hstore.heaps _ (mem_of_getElem? (getElem?_heaps hi))

theorem IsGrounded.frame (hstore : store.IsGrounded) (hi : i < store.frames.length) :
    (store.frame i).outer.IsGrounded :=
  hstore.frames _ (mem_of_getElem? (getElem?_frames hi))

theorem inRange_singleton {h : Heap} (hh : h.InRange) : (Store.mk [h] []).InRange :=
  ⟨by simpa using hh, by simp⟩

theorem isGrounded_singleton {h : Heap} (hh : h.IsGrounded) : (Store.mk [h] []).IsGrounded :=
  ⟨by simpa using hh, by simp⟩

/-- Where a selector cannot be made concrete, unfolding gives no heap. -/
theorem exists_unfoldAt_eq_ok {A : Abstraction} {g : Heap} {v : Node} {sel : String}
    (hg : g ∈ ((Action.unfoldAt i A v sel).results store).heaps) :
    ∃ heaps, A.unfoldAt (store.heap i) v sel = .ok heaps ∧ g ∈ heaps := by
  rw [Action.results] at hg
  cases hheaps : A.unfoldAt (store.heap i) v sel with
  | error err =>
    rw [hheaps] at hg
    cases hg
  | ok heaps =>
    rw [hheaps] at hg
    exact ⟨heaps, rfl, hg⟩

theorem InRange.results (hstore : store.InRange) (hfits : op.fits store) :
    (op.results store).InRange := by
  cases op with
  | edit i e =>
    obtain ⟨hi, hfits⟩ := Bool.and_eq_true_iff.1 hfits
    exact inRange_singleton (Edit.inRange_apply (hstore.heap (of_decide_eq_true hi)) hfits)
  | unfoldAt i A v sel =>
    have hh := hstore.heap (of_decide_eq_true hfits)
    refine ⟨fun g hg => ?_, by simp [Action.results]⟩
    obtain ⟨heaps, hheaps, hg⟩ := exists_unfoldAt_eq_ok hg
    exact hh.of_unfoldAt hheaps hg
  | enter i params args =>
    have hh := hstore.heap (of_decide_eq_true (Bool.and_eq_true_iff.1 hfits).1)
    exact ⟨forall_mem_singleton.2 (inRange_enter _ params args),
      forall_mem_singleton.2 (inRange_frame hh params args)⟩
  | resume j i result? =>
    obtain ⟨hj, hi⟩ := Bool.and_eq_true_iff.1 hfits
    exact inRange_singleton ((hstore.frame (of_decide_eq_true hj)).resume
      (hstore.heap (of_decide_eq_true hi)) result?)

theorem IsGrounded.results (hground : store.IsGrounded) (hstore : store.InRange)
    (hfits : op.fits store) : (op.results store).IsGrounded := by
  cases op with
  | edit i e =>
    have hi := of_decide_eq_true (Bool.and_eq_true_iff.1 hfits).1
    exact isGrounded_singleton (Edit.isGrounded_apply (hground.heap hi) (hstore.heap hi))
  | unfoldAt i A v sel =>
    have hi : i < store.heaps.length := of_decide_eq_true hfits
    refine ⟨fun g hg => ?_, by simp [Action.results]⟩
    obtain ⟨heaps, hheaps, hg⟩ := exists_unfoldAt_eq_ok hg
    exact (hground.heap hi).of_unfoldAt (hstore.heap hi) hheaps hg
  | enter i params args =>
    have hi := of_decide_eq_true (Bool.and_eq_true_iff.1 hfits).1
    exact ⟨forall_mem_singleton.2 (isGrounded_enter _ params args),
      forall_mem_singleton.2 ((isPruning_outer _ params args).isGrounded (hground.heap hi))⟩
  | resume j i result? =>
    obtain ⟨hj, hi⟩ := Bool.and_eq_true_iff.1 hfits
    exact isGrounded_singleton ((hstore.frame (of_decide_eq_true hj)).isGrounded_resume
      (hground.frame (of_decide_eq_true hj)) (hstore.heap (of_decide_eq_true hi)) result?)

theorem InRange.guarded_eq (hstore : store.InRange) (hfits : op.fits store) :
    op.guarded store = some (op.results store) := by
  cases op with
  | edit i e =>
    obtain ⟨hi, hfits⟩ := Bool.and_eq_true_iff.1 hfits
    have hi := of_decide_eq_true hi
    rw [Action.guarded, getElem?_heaps hi]
    dsimp only [Option.bind_eq_bind, Option.bind_some]
    rw [Edit.guarded_eq (hstore.heap hi) hfits]
    rfl
  | unfoldAt i A v sel =>
    have hi : i < store.heaps.length := of_decide_eq_true hfits
    rw [Action.guarded, getElem?_heaps hi]
    dsimp only [Option.bind_eq_bind, Option.bind_some]
    rw [Guarded.unfoldAt_eq (hstore.heap hi)]
    rfl
  | enter i params args =>
    obtain ⟨hi, hargs⟩ := Bool.and_eq_true_iff.1 hfits
    have hi := of_decide_eq_true hi
    rw [Action.guarded, getElem?_heaps hi]
    dsimp only [Option.bind_eq_bind, Option.bind_some]
    rw [Guarded.enter_eq (hstore.heap hi) params fun v hv =>
      of_decide_eq_true (all_eq_true.1 hargs v hv)]
    rfl
  | resume j i result? =>
    obtain ⟨hj, hi⟩ := Bool.and_eq_true_iff.1 hfits
    have hj := of_decide_eq_true hj
    have hi := of_decide_eq_true hi
    rw [Action.guarded, getElem?_frames hj, getElem?_heaps hi]
    dsimp only [Option.bind_eq_bind, Option.bind_some]
    rw [Guarded.resume_eq (hstore.frame hj) (hstore.heap hi)]
    rfl

theorem InRange.run (hstore : store.InRange) (hfits : store.fitAll ops) : (store.run ops).InRange := by
  induction ops generalizing store with
  | nil => exact hstore
  | cons op ops ih =>
    obtain ⟨hop, hops⟩ := Bool.and_eq_true_iff.1 hfits
    exact ih (hstore.extend (hstore.results hop)) hops

theorem IsGrounded.run (hground : store.IsGrounded) (hstore : store.InRange)
    (hfits : store.fitAll ops) : (store.run ops).IsGrounded := by
  induction ops generalizing store with
  | nil => exact hground
  | cons op ops ih =>
    obtain ⟨hop, hops⟩ := Bool.and_eq_true_iff.1 hfits
    exact ih (hground.extend (hground.results hstore hop)) (hstore.extend (hstore.results hop)) hops

theorem InRange.runGuarded_eq (hstore : store.InRange) (hfits : store.fitAll ops) :
    store.runGuarded ops = some (store.run ops) := by
  induction ops generalizing store with
  | nil => rfl
  | cons op ops ih =>
    obtain ⟨hop, hops⟩ := Bool.and_eq_true_iff.1 hfits
    rw [runGuarded, hstore.guarded_eq hop]
    exact ih (hstore.extend (hstore.results hop)) hops

/-- No sequence of operations, each on nodes of the heap that it is applied to, leads out of range: all
lookups succeed, all heaps and frames refer to their own nodes only, and null gets no selectors. -/
theorem operations_stay_in_range {h : Heap} (hh : h.InRange) (ops : List Action)
    (hfits : (Store.mk [h] []).fitAll ops) :
    (Store.mk [h] []).runGuarded ops = some ((Store.mk [h] []).run ops) ∧
      ((Store.mk [h] []).run ops).InRange ∧
      (h.IsGrounded → ((Store.mk [h] []).run ops).IsGrounded) :=
  have hstore := inRange_singleton hh
  ⟨hstore.runGuarded_eq hfits, hstore.run hfits, fun hground =>
    (isGrounded_singleton hground).run hstore hfits⟩

/-- A list of three nodes. -/
def chained : Heap :=
  ⟨[∅, .ofList [("next", 2)], .ofList [("next", 3)], .ofList [("next", 0)]],
    .ofList [("x", 1), ("y", 3)], []⟩

/-- A list that is made longer and summarised, a call that cuts it behind its first node, and the end of
the list after its beginning is forgotten. -/
def session : List Action :=
  [.edit 0 .grow, .edit 1 (.setSelector 3 "next" 4), .edit 2 (.addSummary "SLL" [4, 0]),
    .edit 3 (.canonical {}), .unfoldAt 4 {} 1 "next", .enter 6 ["p"] [1],
    .edit 7 (.dropSelector 1 "next"), .resume 0 8 (some "z"), .edit 9 (.setVar "x" 0),
    .edit 10 .collect, .edit 11 (.dropNodes [false, true]), .edit 12 .normalize]

theorem operations_stay_in_range_session : chained.InRange ∧ chained.IsGrounded ∧
    (Store.mk [chained] []).fitAll session ∧
    ((Store.mk [chained] []).run session).heaps.map Heap.size =
      [4, 5, 5, 5, 3, 4, 4, 4, 4, 3, 3, 2, 1, 1] ∧
    ((Store.mk [chained] []).run session).frames.map Frame.interface = [[1, 2]] ∧
    (Store.mk [chained] []).runGuarded session = some ((Store.mk [chained] []).run session) ∧
    ((Store.mk [chained] []).run session).InRange ∧
    ((Store.mk [chained] []).run session).IsGrounded := by
  have hchained : chained.InRange := by decide +kernel
  have hground : chained.IsGrounded := by decide +kernel
  have hfits : (Store.mk [chained] []).fitAll session := by decide +kernel
  obtain ⟨hguarded, hrange, hgrounded⟩ := operations_stay_in_range hchained session hfits
  exact ⟨hchained, hground, hfits, by decide +kernel, by decide +kernel, hguarded, hrange,
    hgrounded hground⟩

end Store

end ShapeCheck
