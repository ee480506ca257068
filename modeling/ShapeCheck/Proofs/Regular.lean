import ShapeCheck.Proofs.Containment
import ShapeCheck.Proofs.Contracts

/-!
# Analyses keep heaps regular

Statements, unfoldings, garbage collection, the scope of calls and their results all keep the
references of a heap within its nodes and give every summary two ends. So an analysis that starts
from regular heaps meets regular heaps only, and all its preconditions and postconditions are
canonical shapes of regular heaps.
-/

namespace ShapeCheck

open Code Call List

variable {E : Engine} {A : Abstraction} {g h post : Heap} {v w : Node} {x sel : String}

namespace Heap

theorem isRegular_empty : Heap.empty.IsRegular := by
  decide

namespace IsRegular

variable (hh : h.IsRegular)
include hh

theorem setVar (hv : v < h.size) : (h.setVar x v).IsRegular :=
  ⟨hh.inRange.setVar hv, hh.paired⟩

theorem change (hchange : h.Change g) : g.IsRegular := by
  cases hchange with
  | same => exact hh
  | assign _ hv => exact hh.setVar (hv.lt_size hh.inRange)
  | load _ _ hw => exact hh.setVar (hh.inRange.selector _ _ _ hw)
  | new _ => exact ⟨hh.inRange.grow.setVar (by simp), hh.paired⟩
  | store hv hne hw =>
    refine ⟨hh.inRange.stored hne (hv.lt_size hh.inRange) (hw.lt_size hh.inRange), ?_⟩
    rw [summaries_stored]
    exact hh.paired

theorem collect : h.collect.IsRegular := by
  obtain ⟨f, hf, -⟩ := hh.inRange.isPart_collect
  exact hh.ofPart hf hh.inRange.inRange_collect

theorem keepVars (p : String → Bool) : (h.keepVars p).IsRegular :=
  ⟨hh.inRange.keepVars p, hh.paired⟩

theorem ofPruning (hg : IsPruning g h) : g.IsRegular :=
  ⟨hg.inRange hh.inRange, fun e he => hh.paired e (hg.summaries e he)⟩

theorem splitOff (v : Node) (sel : String) (i : Nat) : (Abstraction.splitOff h v sel i).IsRegular :=
  ⟨hh.inRange.splitOff v sel i, fun e he =>
    (hh.ofPruning (isPruning_dropSummaries h [i])).paired e (by simpa using he)⟩

theorem setSelector (hw : w < h.size) : (h.setSelector v sel w).IsRegular :=
  ⟨hh.inRange.setSelector hw, fun e he => hh.paired e (by simpa using he)⟩

theorem addSummary (hv : v < h.size) (hw : w < h.size) (label : String) :
    (h.addSummary label [v, w]).IsRegular := by
  refine ⟨hh.inRange.addSummary (by simp [hv, hw]) label, fun e he => ?_⟩
  rcases mem_append.1 he with he | he
  · exact hh.paired e he
  · rw [mem_singleton.1 he]
    rfl

theorem unfoldAt {heaps : List Heap} (hheaps : A.unfoldAt h v sel = .ok heaps) (hg : g ∈ heaps) :
    g.IsRegular := by
  rcases Abstraction.unfoldAt_cases hheaps hg with
    ⟨rfl, -⟩ | ⟨chain, -, i, target, -, -, -, hi, hcases⟩
  · exact hh
  · have hsplit := hh.splitOff v sel i
    have htarget : target < (Abstraction.splitOff h v sel i).size := by
      rw [Abstraction.size_splitOff]
      exact Nat.lt_succ_of_lt (hh.inRange.ends _ (mem_of_getElem? hi) target (by simp))
    rcases hcases with rfl | rfl
    · exact (hsplit.setSelector htarget).normalize
    · exact (hsplit.addSummary (by simp) htarget chain.label).normalize

theorem unfoldPoint {p : AccessPoint} {heaps : List Heap} (hheaps : A.unfoldPoint p h = .ok heaps)
    (hg : g ∈ heaps) : g.IsRegular := by
  rw [Abstraction.unfoldPoint] at hheaps
  split at hheaps
  · split at hheaps
    · exact hh.unfoldAt hheaps hg
    · cases hheaps
      exact mem_singleton.1 hg ▸ hh
  · cases hheaps
    exact mem_singleton.1 hg ▸ hh

theorem of_sources {stmt : Statement} {gs : List Heap} (hgs : E.sources stmt h = .ok gs)
    (hg : g ∈ gs) : g.IsRegular := by
  rcases Engine.sources_cases hgs hg with ⟨rfl, -⟩ | ⟨p, heaps, -, hheaps, hg | ⟨rfl, -⟩⟩
  · exact hh
  · exact hh.unfoldPoint hheaps hg
  · exact hh

theorem harvestHeap (E : Engine) : (E.harvestHeap h).IsRegular :=
  (hh.keepVars isReserved).collect.shapeAt E.abstraction _

theorem settled (E : Engine) (loc : Location) : (E.settled loc h).heap.IsRegular := by
  rw [Engine.settled]
  split
  · exact hh.collect.shapeAt E.abstraction _
  · exact hh.shapeAt E.abstraction _

end IsRegular

end Heap

namespace Call

theorem isRegular_enter (hh : h.IsRegular) (params : List String) (args : List Node) :
    (enter h params args).1.IsRegular := by
  refine ⟨inRange_enter h params args, fun e he => ?_⟩
  rw [enter, summaries_bindInterface] at he
  obtain ⟨e', he', rfl⟩ := mem_map.1 he
  rw [length_map]
  exact hh.paired e' (mem_of_mem_filter he')

/-- The caller's part of the heap, with interface nodes that are its own. -/
structure Frame.IsRegular (frame : Frame) : Prop where
  outer : frame.outer.IsRegular
  interface : ∀ u ∈ frame.interface, u < frame.outer.size

theorem isRegular_frame (hh : h.IsRegular) (params : List String) (args : List Node) :
    (enter h params args).2.IsRegular :=
  ⟨hh.ofPruning (isPruning_outer h params args), (inRange_frame hh.inRange params args).interface⟩

namespace Frame.IsRegular

variable {frame : Frame}

theorem inRange (hframe : frame.IsRegular) : frame.InRange :=
  ⟨hframe.outer.inRange, hframe.interface⟩

theorem glued (hframe : frame.IsRegular) (hpost : post.IsRegular) :
    (frame.glued post).IsRegular := by
  refine ⟨hframe.inRange.glued hpost.inRange, fun e he => ?_⟩
  rw [summaries_glued, mem_append] at he
  rcases he with he | he
  · exact hframe.outer.paired e he
  · obtain ⟨e', he', rfl⟩ := mem_map.1 he
    simpa [Summary.map] using hpost.paired e' he'

theorem resume (hframe : frame.IsRegular) (hpost : post.IsRegular) (result? : Option String) :
    (frame.resume post result?).IsRegular := by
  have hglued := hframe.glued hpost
  rw [resume_eq]
  cases result? with
  | none => exact hglued.collect
  | some x => exact (hglued.setVar (hframe.inRange.result_lt hpost.inRange)).collect

end Frame.IsRegular

end Call

namespace Engine

variable {m : Method} {Ans : Answering} {heaps : List Heap} {t : State}

/-- If calls from regular heaps are answered by regular heaps, then only regular heaps are reached. -/
theorem Reached.isRegular (ht : Reached E m Ans heaps t) (hm : m.IsUnreserved)
    (hheaps : ∀ h ∈ heaps, h.IsRegular)
    (hAns : ∀ site g results, g.IsRegular → Ans site g results → ∀ h ∈ results, h.IsRegular) :
    t.heap.IsRegular := by
  induction ht with
  | start hh => exact (hheaps _ hh).shapeAt E.abstraction _
  | source _ _ hgs hg ih => exact ih.of_sources hgs hg
  | @step g i stmt next p _ hstmt hnext hp ih =>
    refine Heap.IsRegular.settled ?_ E p.1
    unfold Statement.Yields at hnext
    split at hnext
    · next moves hmoves =>
      exact ih.change (Statement.change (hm.statement hstmt) hmoves (hnext ▸ hp))
    · obtain ⟨results, hanswer, rfl⟩ := hnext
      obtain ⟨h, hh, rfl⟩ := mem_map.1 hp
      exact hAns _ g results ih hanswer h hh
    · exact hnext.elim

/-- Regular postconditions give regular answers. -/
theorem CallAnswer.isRegular {Good : String → Heap → HeapSet → Prop}
    (hGood : ∀ method pre posts, Good method pre posts → ∀ q ∈ posts, q.IsRegular)
    (site : CallSite) (g : Heap) (results : List Heap) (hg : g.IsRegular)
    (hanswer : E.CallAnswer Good site g results) : ∀ h ∈ results, h.IsRegular := by
  intro h hh
  obtain ⟨-, rfl⟩ | ⟨-, m, posts, -, hgood, rfl⟩ := hanswer
  · rw [skipCall] at hh
    split at hh
    · exact mem_singleton.1 hh ▸ hg.setVar hg.inRange.pos
    · exact mem_singleton.1 hh ▸ hg
  · obtain ⟨q, hq, rfl⟩ := mem_map.1 hh
    exact (Call.isRegular_frame hg m.params site.args).resume (hGood _ _ _ hgood q hq) site.result

theorem isRegular_calleeStart (hg : g.IsRegular) (m : Method) (site : CallSite) :
    (E.calleeStart m site g).IsRegular :=
  (Call.isRegular_enter hg m.params site.args).shapeAt E.abstraction _

end Engine

end ShapeCheck
