import ShapeCheck.Proofs.Gluing

/-!
# The end of a call

When a callee returns, the nodes of its result that an interface variable names become the caller's
nodes again, null stays null, and all others become fresh nodes. The heap put together in this way
describes the plain heap after the call, since the callee changes nothing outside the region of the
fragment.
-/

namespace ShapeCheck

open List

namespace Call

section Clear

variable {h : Heap} {l : List Node} {u : Node}

theorem cell_foldl_clearCell :
    (l.foldl Heap.clearCell h).cell u = if u ∈ l then ∅ else h.cell u := by
  induction l generalizing h with
  | nil => rfl
  | cons v l ih =>
    rw [foldl_cons, ih, Heap.cell_clearCell]
    by_cases huv : u = v <;> by_cases hu : u ∈ l <;> simp [huv, hu]

theorem foldl_clearCell_eq : (l.foldl Heap.clearCell h).size = h.size ∧
    (l.foldl Heap.clearCell h).vars = h.vars ∧
      (l.foldl Heap.clearCell h).summaries = h.summaries := by
  induction l generalizing h with
  | nil => exact ⟨rfl, rfl, rfl⟩
  | cons v l ih =>
    obtain ⟨hsize, hvars, hsum⟩ := ih (h := h.clearCell v)
    exact ⟨hsize.trans (Heap.size_modifyCell _), hvars, hsum⟩

end Clear

section Copy

variable {g : Heap} {writes : List (Node × String × Node)} {u t : Node} {sel : String}

section

variable (hwrites : ∀ e ∈ writes, e.1 ≠ Node.null ∧ e.1 < g.size)
include hwrites

/-- Writes at nodes of the heap other than null: the last one to a selector counts. -/
theorem selector?_foldl_setSelector :
    (writes.foldl (fun h e => h.setSelector e.1 e.2.1 e.2.2) g).selector? u sel =
    ((writes.reverse.find? fun e => e.1 = u ∧ e.2.1 = sel).map (·.2.2)).or (g.selector? u sel) := by
  induction writes generalizing g with
  | nil => rfl
  | cons e writes ih =>
    obtain ⟨⟨hne, hlt⟩, hwrites⟩ := forall_mem_cons.1 hwrites
    rw [foldl_cons, ih (by simpa using hwrites), reverse_cons, find?_append,
      Heap.selector?_setSelector hne]
    cases writes.reverse.find? fun e => e.1 = u ∧ e.2.1 = sel with
    | some e' => rfl
    | none =>
      by_cases heq : e.1 = u ∧ e.2.1 = sel
      · obtain ⟨rfl, rfl⟩ := heq
        simp [hlt]
      · have hneg : ¬(u = e.1 ∧ e.1 < g.size ∧ sel = e.2.1) := fun hand =>
          heq ⟨hand.1.symm, hand.2.2.symm⟩
        rw [if_neg hneg, find?_cons_of_neg (by simpa using heq)]
        rfl

theorem selector?_of_mem_writes (hmem : (u, sel, t) ∈ writes)
    (huniq : ∀ t', (u, sel, t') ∈ writes → t' = t) :
    (writes.foldl (fun h e => h.setSelector e.1 e.2.1 e.2.2) g).selector? u sel = some t := by
  rw [selector?_foldl_setSelector hwrites]
  cases hfind : writes.reverse.find? fun e => e.1 = u ∧ e.2.1 = sel with
  | none =>
    rw [find?_eq_none] at hfind
    exact absurd (by simp) (hfind _ (mem_reverse.2 hmem))
  | some e =>
    obtain ⟨a, s, t'⟩ := e
    have hprop := find?_some hfind
    simp only [decide_eq_true_eq] at hprop
    obtain ⟨rfl, rfl⟩ := hprop
    have hmem' := mem_reverse.1 (mem_of_find?_eq_some hfind)
    exact congrArg some (huniq t' hmem')

theorem selector?_of_not_mem_writes (hnone : ∀ t, (u, sel, t) ∉ writes) :
    (writes.foldl (fun h e => h.setSelector e.1 e.2.1 e.2.2) g).selector? u sel =
      g.selector? u sel := by
  have hfind : (writes.reverse.find? fun e => e.1 = u ∧ e.2.1 = sel) = none := by
    refine find?_eq_none.2 fun e he heq => ?_
    obtain ⟨a, s, t⟩ := e
    simp only [decide_eq_true_eq] at heq
    obtain ⟨rfl, rfl⟩ := heq
    exact hnone t (mem_reverse.1 he)
  rw [selector?_foldl_setSelector hwrites, hfind, Option.map_none, Option.none_or]

end

theorem foldl_setSelector_eq :
    (writes.foldl (fun h e => h.setSelector e.1 e.2.1 e.2.2) g).size = g.size ∧
      (∀ x, (writes.foldl (fun h e => h.setSelector e.1 e.2.1 e.2.2) g).var? x = g.var? x) ∧
      (writes.foldl (fun h e => h.setSelector e.1 e.2.1 e.2.2) g).summaries = g.summaries := by
  induction writes generalizing g with
  | nil => exact ⟨rfl, fun _ => rfl, rfl⟩
  | cons e writes ih =>
    obtain ⟨hsize, hvar, hsum⟩ := ih (g := g.setSelector e.1 e.2.1 e.2.2)
    exact ⟨hsize.trans Heap.size_setSelector, fun x => (hvar x).trans Heap.var?_setSelector,
      hsum.trans Heap.summaries_setSelector⟩

theorem foldl_grow_eq (n : Nat) :
    ((List.range n).foldl (fun h _ => h.grow) g).size = g.size + n ∧
      (∀ v sel, ((List.range n).foldl (fun h _ => h.grow) g).selector? v sel = g.selector? v sel) ∧
      (∀ x, ((List.range n).foldl (fun h _ => h.grow) g).var? x = g.var? x) ∧
      ((List.range n).foldl (fun h _ => h.grow) g).summaries = g.summaries := by
  induction n with
  | zero => exact ⟨rfl, fun _ _ => rfl, fun _ => rfl, rfl⟩
  | succ n ih =>
    obtain ⟨hsize, hsel, hvar, hsum⟩ := ih
    rw [range_succ, foldl_append]
    refine ⟨?_, fun v sel => Heap.selector?_grow.trans (hsel v sel), hvar, hsum⟩
    simp [hsize, Nat.add_assoc]

theorem foldl_addSummary_eq (r : Node → Node) (summaries : List Summary) :
    summaries.foldl (fun h e => h.addSummary e.label (e.ends.map r)) g =
      ⟨g.cells, g.vars, g.summaries ++ summaries.map (Summary.map r)⟩ := by
  induction summaries generalizing g with
  | nil => simp
  | cons e summaries ih =>
    rw [foldl_cons, ih]
    simp [Heap.addSummary, Summary.map]

end Copy

/-- Pairs of nodes of a result and nodes of the caller that are one to one, without null, and within
the fragment. -/
structure IsNaming (pairs : List (Node × Node)) (inside : List Node) : Prop where
  left_unique : ∀ v w u, (v, u) ∈ pairs → (w, u) ∈ pairs → v = w
  right_unique : ∀ v u u', (v, u) ∈ pairs → (v, u') ∈ pairs → u = u'
  ne_null : ∀ v u, (v, u) ∈ pairs → v ≠ Node.null
  mem : ∀ v u, (v, u) ∈ pairs → u ∈ inside

namespace Frame

variable {frame : Frame} {post : Heap} {inside : List Node} {u v w : Node} {sel : String}

theorem mem_named_iff : (v, u) ∈ frame.named post ↔
    ∃ x i, post.var? x = some v ∧ interfaceIndex? x = some i ∧ frame.interface[i]? = some u := by
  simp only [named, mem_filterMap, Prod.exists, SortedMap.mem_toList_iff, Option.bind_eq_bind,
    Option.bind_eq_some_iff, Option.pure_def, Option.some.injEq, Prod.mk.injEq, Heap.var?]
  constructor
  · rintro ⟨x, _, hx, i, hi, _, hu, rfl, rfl⟩
    exact ⟨x, i, hx, hi, hu⟩
  · rintro ⟨x, i, hx, hi, hu⟩
    exact ⟨x, v, hx, i, hi, u, hu, rfl, rfl⟩

/-- The nodes of a result that become fresh nodes of the caller. -/
def freshNodes (frame : Frame) (post : Heap) : List Node :=
  post.nodes.filter fun u => u ≠ Node.null && ((frame.named post).lookup u).isNone

theorem mem_freshNodes_iff : v ∈ frame.freshNodes post ↔
    v < post.size ∧ v ≠ Node.null ∧ ∀ u, (v, u) ∉ frame.named post := by
  simp only [freshNodes, mem_filter, Heap.mem_nodes, Bool.and_eq_true, decide_eq_true_eq,
    Option.isNone_iff_eq_none, lookup_eq_none_iff, bne_iff_ne, Prod.forall]
  refine and_congr_right fun _ => and_congr_right fun _ => ⟨fun hnone u hu => ?_, ?_⟩
  · exact hnone v u hu rfl
  · rintro hnone w u hu rfl
    exact hnone u hu

theorem callerNode_of_mem (hN : IsNaming (frame.named post) inside)
    (hmem : (v, u) ∈ frame.named post) : frame.callerNode post v = u := by
  rw [callerNode]
  cases hlookup : (frame.named post).reverse.lookup v with
  | none =>
    rw [lookup_eq_none_iff] at hlookup
    have hne := hlookup _ (mem_reverse.2 hmem)
    simp at hne
  | some u' =>
    obtain ⟨l, l', heq, -⟩ := lookup_eq_some_iff.1 hlookup
    have hmem' : (v, u') ∈ (frame.named post).reverse := heq ▸ mem_append_right _ mem_cons_self
    exact hN.right_unique v u' u (mem_reverse.1 hmem') hmem

theorem lookup_reverse_eq_none (hnone : ∀ u, (v, u) ∉ frame.named post) :
    (frame.named post).reverse.lookup v = none := by
  refine lookup_eq_none_iff.2 fun p hp => ?_
  obtain ⟨w, u⟩ := p
  refine bne_iff_ne.2 ?_
  rintro rfl
  exact hnone u (mem_reverse.1 hp)

theorem callerNode_null (hN : IsNaming (frame.named post) inside) :
    frame.callerNode post Node.null = Node.null := by
  rw [callerNode, lookup_reverse_eq_none fun u hu => hN.ne_null _ u hu rfl]
  exact if_pos rfl

theorem callerNode_of_mem_freshNodes (hv : v ∈ frame.freshNodes post) :
    frame.callerNode post v = frame.outer.size + (frame.freshNodes post).idxOf v := by
  obtain ⟨-, hne, hnone⟩ := mem_freshNodes_iff.1 hv
  rw [callerNode, lookup_reverse_eq_none hnone]
  exact if_neg hne

theorem cases_node (frame : Frame) (hv : v < post.size) :
    (∃ u, (v, u) ∈ frame.named post) ∨ v = Node.null ∨ v ∈ frame.freshNodes post := by
  by_cases hname : ∃ u, (v, u) ∈ frame.named post
  · exact .inl hname
  · push Not at hname
    by_cases hne : v = Node.null
    · exact .inr (.inl hne)
    · exact .inr (.inr (mem_freshNodes_iff.2 ⟨hv, hne, hname⟩))

theorem callerNode_mem (hN : IsNaming (frame.named post) inside) (hv : v < post.size)
    (hne : v ≠ Node.null) : frame.callerNode post v ∈ inside ∨
      frame.outer.size ≤ frame.callerNode post v ∧
        frame.callerNode post v < frame.outer.size + frame.freshCount post := by
  rcases cases_node frame hv with ⟨u, hu⟩ | rfl | hfresh
  · rw [callerNode_of_mem hN hu]
    exact .inl (hN.mem v u hu)
  · exact absurd rfl hne
  · rw [callerNode_of_mem_freshNodes hfresh]
    exact .inr ⟨Nat.le_add_right _ _, Nat.add_lt_add_left (idxOf_lt_length_of_mem hfresh) _⟩

theorem callerNode_inj (hN : IsNaming (frame.named post) inside)
    (hinside : ∀ u ∈ inside, u < frame.outer.size ∧ u ≠ Node.null) (hpos : 0 < frame.outer.size)
    (hv : v < post.size) (hw : w < post.size)
    (heq : frame.callerNode post v = frame.callerNode post w) : v = w := by
  have hnull := callerNode_null hN
  have hsmall {v u} (hu : (v, u) ∈ frame.named post) :
      frame.callerNode post v < frame.outer.size ∧ frame.callerNode post v ≠ Node.null := by
    rw [callerNode_of_mem hN hu]
    exact hinside u (hN.mem v u hu)
  have hlarge {v} (hfresh : v ∈ frame.freshNodes post) :
      ¬frame.callerNode post v < frame.outer.size := by
    rw [callerNode_of_mem_freshNodes hfresh]
    exact Nat.not_lt.2 (Nat.le_add_right _ _)
  rcases cases_node frame hv with ⟨u, hu⟩ | rfl | hfresh <;>
    rcases cases_node frame hw with ⟨u', hu'⟩ | rfl | hfresh'
  · rw [callerNode_of_mem hN hu, callerNode_of_mem hN hu'] at heq
    exact hN.left_unique v w u hu (heq ▸ hu')
  · exact absurd (heq.trans hnull) (hsmall hu).2
  · exact absurd (heq ▸ (hsmall hu).1) (hlarge hfresh')
  · exact absurd (heq.symm.trans hnull) (hsmall hu').2
  · rfl
  · exact absurd (by rw [← heq, hnull]; exact hpos) (hlarge hfresh')
  · exact absurd (heq ▸ (hsmall hu').1) (hlarge hfresh)
  · exact absurd (by rw [heq, hnull]; exact hpos) (hlarge hfresh)
  · rw [callerNode_of_mem_freshNodes hfresh, callerNode_of_mem_freshNodes hfresh'] at heq
    exact (idxOf_inj hfresh).1 (Nat.add_left_cancel heq)

/-- The caller's heap with the result in place of the fragment. -/
def glued (frame : Frame) (post : Heap) : Heap :=
  post.summaries.foldl
    (fun h e => h.addSummary e.label (e.ends.map (frame.callerNode post)))
    (frame.copyCells post
      ((List.range (frame.freshCount post)).foldl (fun h _ => h.grow) frame.outer))

theorem resume_eq (result? : Option String) : frame.resume post result? =
    (match result? with
      | none => frame.glued post
      | some x => (frame.glued post).setVar x
          (((post.var? returnVar).map (frame.callerNode post)).getD Node.null)).collect :=
  rfl

/-- The writes that copy the selectors of a result. -/
def writes (frame : Frame) (post : Heap) : List (Node × String × Node) :=
  post.nodes.flatMap fun v => (post.cell v).toList.map fun (sel, t) =>
    (frame.callerNode post v, sel, frame.callerNode post t)

theorem mem_writes_iff : (u, sel, w) ∈ frame.writes post ↔ ∃ v t, v < post.size ∧
    post.selector? v sel = some t ∧ frame.callerNode post v = u ∧ frame.callerNode post t = w := by
  simp only [writes, mem_flatMap, mem_map, Prod.exists, SortedMap.mem_toList_iff,
    Heap.mem_nodes, Prod.mk.injEq, Heap.selector?]
  constructor
  · rintro ⟨v, hv, s, t, ht, rfl, rfl, rfl⟩
    exact ⟨v, t, hv, ht, rfl, rfl⟩
  · rintro ⟨v, t, hv, ht, rfl, rfl⟩
    exact ⟨v, hv, sel, t, ht, rfl, rfl, rfl⟩

theorem copyCells_eq (g : Heap) : frame.copyCells post g =
    (frame.writes post).foldl (fun h e => h.setSelector e.1 e.2.1 e.2.2) g := by
  rw [copyCells, writes, foldl_flatMap]
  simp only [foldl_map]

theorem size_glued : (frame.glued post).size = frame.outer.size + frame.freshCount post := by
  rw [glued, foldl_addSummary_eq, copyCells_eq]
  exact foldl_setSelector_eq.1.trans (foldl_grow_eq _).1

theorem var?_glued (x : String) : (frame.glued post).var? x = frame.outer.var? x := by
  rw [glued, foldl_addSummary_eq, copyCells_eq]
  exact (foldl_setSelector_eq.2.1 x).trans ((foldl_grow_eq _).2.2.1 x)

theorem summaries_glued : (frame.glued post).summaries =
    frame.outer.summaries ++ post.summaries.map (Summary.map (frame.callerNode post)) := by
  rw [glued, foldl_addSummary_eq, copyCells_eq]
  exact congrArg (· ++ _) (foldl_setSelector_eq.2.2.trans (foldl_grow_eq _).2.2.2)

section Selector

variable (hwrites : ∀ e ∈ frame.writes post,
  e.1 ≠ Node.null ∧ e.1 < frame.outer.size + frame.freshCount post)

include hwrites

theorem selector?_glued_of_mem (hmem : (u, sel, w) ∈ frame.writes post)
    (huniq : ∀ w', (u, sel, w') ∈ frame.writes post → w' = w) :
    (frame.glued post).selector? u sel = some w := by
  rw [glued, foldl_addSummary_eq, copyCells_eq]
  exact selector?_of_mem_writes (by rwa [(foldl_grow_eq _).1]) hmem huniq

theorem selector?_glued_of_not_mem (hnone : ∀ w, (u, sel, w) ∉ frame.writes post) :
    (frame.glued post).selector? u sel = frame.outer.selector? u sel := by
  rw [glued, foldl_addSummary_eq, copyCells_eq]
  exact (selector?_of_not_mem_writes (by rwa [(foldl_grow_eq _).1]) hnone).trans
    ((foldl_grow_eq _).2.1 u sel)

end Selector

end Frame

/-- The heap that `resume` computes before it collects garbage is glued from the caller's heap and
the result. -/
theorem isGlued_glued {h post : Heap} {inside args : List Node} {frame : Frame}
    (hfrag : IsFragment h args inside) (hh : h.InRange) (hpost : post.InRange)
    (hnull : ∀ w, ¬h.Leads Node.null w) (hnull' : ∀ w, ¬post.Leads Node.null w)
    (houter : frame.outer = (inside.foldl Heap.clearCell h).keepSummaries (!startsIn inside ·))
    (hN : IsNaming (frame.named post) inside) :
    IsGlued h post (frame.glued post) inside (frame.callerNode post) := by
  obtain ⟨hsize, hvars, hsum⟩ := foldl_clearCell_eq (h := h) (l := inside)
  have hosize : frame.outer.size = h.size := houter ▸ hsize
  have hosel (u : Node) (sel : String) : frame.outer.selector? u sel =
      if u ∈ inside then none else h.selector? u sel := by
    have hcell : frame.outer.cell u = if u ∈ inside then ∅ else h.cell u :=
      houter ▸ cell_foldl_clearCell
    rw [Heap.selector?, hcell]
    split <;> rfl
  have hinj : ∀ v < post.size, ∀ w < post.size,
      frame.callerNode post v = frame.callerNode post w → v = w := fun v hv w hw =>
    Frame.callerNode_inj hN (fun u hu => ⟨hosize ▸ hfrag.lt u hu, hfrag.ne_null u hu⟩)
      (hosize ▸ hh.pos) hv hw
  have hlt {v} (hv : v < post.size) :
      frame.callerNode post v < frame.outer.size + frame.freshCount post := by
    by_cases hne : v = Node.null
    · rw [hne, Frame.callerNode_null hN]
      exact Nat.add_pos_left (hosize ▸ hh.pos) _
    · rcases Frame.callerNode_mem hN hv hne with hmem | ⟨-, hlt⟩
      · exact (hosize ▸ hfrag.lt _ hmem : _ < frame.outer.size).trans_le (Nat.le_add_right _ _)
      · exact hlt
  have hwrites : ∀ e ∈ frame.writes post,
      e.1 ≠ Node.null ∧ e.1 < frame.outer.size + frame.freshCount post := by
    rintro ⟨u, sel, w⟩ he
    obtain ⟨v, t, hv, ht, rfl, rfl⟩ := Frame.mem_writes_iff.1 he
    refine ⟨fun heq => ?_, hlt hv⟩
    rw [hinj v hv Node.null hpost.pos (heq.trans (Frame.callerNode_null hN).symm),
      Heap.selector?_eq_none_of_not_leads hnull'] at ht
    cases ht
  have hkept {u} (hu : ∀ v < post.size, frame.callerNode post v ≠ u) (sel : String) :
      (frame.glued post).selector? u sel = frame.outer.selector? u sel := by
    refine Frame.selector?_glued_of_not_mem hwrites fun w hw => ?_
    obtain ⟨v, t, hv, -, heq, -⟩ := Frame.mem_writes_iff.1 hw
    exact hu v hv heq
  constructor
  case size =>
    rw [Frame.size_glued, hosize]
    exact Nat.le_add_right _ _
  case lt =>
    intro v hv
    rw [Frame.size_glued]
    exact hlt hv
  case null => exact Frame.callerNode_null hN
  case inj => exact hinj
  case image =>
    intro v hv hne
    rw [← hosize]
    exact (Frame.callerNode_mem hN hv hne).imp_right And.left
  case outer =>
    intro u hu hin hne sel
    rw [hkept _ sel, hosel, if_neg hin]
    rintro v hv rfl
    by_cases hv0 : v = Node.null
    · exact hne (hv0 ▸ Frame.callerNode_null hN)
    · rcases Frame.callerNode_mem hN hv hv0 with hmem | ⟨hle, -⟩
      · exact hin hmem
      · exact Nat.not_lt.2 (hosize ▸ hle) hu
  case selector =>
    intro v hv sel
    cases ht : post.selector? v sel with
    | some t =>
      refine Frame.selector?_glued_of_mem hwrites
        (Frame.mem_writes_iff.2 ⟨v, t, hv, ht, rfl, rfl⟩) fun w' hw' => ?_
      obtain ⟨v', t', hv', ht', heq, rfl⟩ := Frame.mem_writes_iff.1 hw'
      rw [hinj v' hv' v hv heq, ht] at ht'
      rw [Option.some.inj ht']
    | none =>
      rw [Frame.selector?_glued_of_not_mem hwrites fun w hw => ?_, hosel, Option.map_none]
      · split
        · rfl
        · next hin =>
          by_cases hv0 : v = Node.null
          · rw [hv0, Frame.callerNode_null hN, Heap.selector?_eq_none_of_not_leads hnull]
          · rcases Frame.callerNode_mem hN hv hv0 with hmem | ⟨hle, -⟩
            · exact absurd hmem hin
            · exact Heap.selector?_of_size_le (hosize ▸ hle)
      · obtain ⟨v', t', hv', ht', heq, -⟩ := Frame.mem_writes_iff.1 hw
        rw [hinj v' hv' v hv heq, ht] at ht'
        cases ht'
  case bare =>
    intro u hu hne sel
    rw [hkept hne sel, hosel]
    split
    · rfl
    · next hin => exact Heap.selector?_of_size_le (hu.resolve_left hin)
  case var =>
    intro x
    rw [Frame.var?_glued, houter]
    exact congrArg (·.find? x) hvars
  case summaries =>
    rw [Frame.summaries_glued, houter, Heap.keepSummaries, hsum]

section Resume

variable {A : Abstraction} {γ : String → Option Node} {S T F : Set Node} {h post c c' : Heap}
  {φ ψ : Node → Node} {inner inner' : Node → String → List Node}
  {args inside interface : List Node} {frame : Frame} {u v w : Node}

theorem not_mem_region (L : IsLayout A S h c φ inner) (hin : ∀ v ∈ inside, v ∈ S) (hu : u ∈ S)
    (hout : u ∉ inside) (hne : u ≠ Node.null) :
    φ u ∉ region c φ inner inside ∧ ∀ sel, ∀ z ∈ inner u sel, z ∉ region c φ inner inside := by
  constructor
  · rintro (heq | hle | ⟨v, hv, heq | ⟨sel, hz⟩⟩)
    · exact hne (L.inj u hu _ L.null_mem (heq.trans L.null.symm))
    · exact Nat.not_lt.2 hle (L.lt u hu)
    · exact hout (L.inj u hu v (hin v hv) heq ▸ hv)
    · exact L.fresh v (hin v hv) sel _ hz u hu rfl
  · rintro s z hz (rfl | hle | ⟨v, hv, rfl | ⟨sel, hz'⟩⟩)
    · exact L.fresh u hu s _ hz _ L.null_mem L.null.symm
    · exact Nat.not_lt.2 hle (L.lt_size_of_mem_inner hu hz)
    · exact L.fresh u hu s _ hz v (hin v hv) rfl
    · exact hout ((L.disjoint u hu v (hin v hv) s sel z hz hz').1 ▸ hv)

variable (L' : IsPlacement A (ghosts φ interface) T post (c'.keepVars isReserved) ψ inner')

include L'

theorem mem_of_confined (hlinks : ∀ e ∈ post.summaries, A.isLink e) (hF : Heap.Confined F c c')
    (hinterface : ∀ u ∈ interface, φ u ∈ F) (hv : post.IsLive v) :
    ψ v ∈ F ∧ ∀ sel, ∀ z ∈ inner' v sel, z ∈ F := by
  have hboth : v ∈ T ∧ ψ v ∈ F := by
    refine hv.induction (P := fun v => v ∈ T ∧ ψ v ∈ F)
      ⟨L'.null_mem, by rw [L'.null]; exact hF.null⟩ (fun x v hx => ⟨L'.named x v hx, ?_⟩)
      fun v w ⟨hv, hmem⟩ hvw => ?_
    · have hvar := L'.var x
      rw [hx, Option.map_some, Heap.var?_keepVars, Option.or_eq_some_iff] at hvar
      rcases hvar with hvar | ⟨-, hghost⟩
      · split at hvar
        · exact hF.var x _ hvar
        · cases hvar
      · obtain ⟨u, hu, heq⟩ := Option.map_eq_some_iff.1 hghost
        obtain ⟨i, -, hi⟩ := interfaceMap_eq_some_iff.1 hu
        exact heq ▸ hinterface u (mem_of_getElem? hi)
    · obtain ⟨sel, hsel⟩ := Abstraction.exists_arrow_of_leads hlinks hvw
      refine ⟨L'.closed v hv sel w hsel, ((L'.way v hv sel w hsel).forall_mem hmem ?_).2⟩
      exact fun a s b ha hab => hF.selector a ha s b hab
  refine ⟨hboth.2, fun sel z hz => ?_⟩
  obtain ⟨w, hw⟩ := L'.toIsLayout.exists_arrow hboth.1 _ (.inr (ne_nil_of_mem hz))
  refine ((L'.way v hboth.1 sel w hw).forall_mem hboth.2 ?_).1 z hz
  exact fun a s b ha hab => hF.selector a ha s b hab

theorem eq_of_mem_named (htidy : c'.IsTidy) (hframe : frame.interface = interface)
    (hmem : (v, u) ∈ frame.named post) :
    (∃ x, post.var? x = some v) ∧ u ∈ interface ∧ ψ v = φ u := by
  obtain ⟨x, i, hx, hi, hu⟩ := Frame.mem_named_iff.1 hmem
  rw [hframe] at hu
  refine ⟨⟨x, hx⟩, mem_of_getElem? hu, ?_⟩
  have hvar := L'.var x
  rw [hx, Option.map_some, Heap.var?_keepVars, Option.or_eq_some_iff] at hvar
  rcases hvar with hvar | ⟨-, hghost⟩
  · -- of the callee's reserved variables only the result is there
    split at hvar
    · next hreserved =>
      by_cases hassign : Heap.IsAssignable x
      · rcases hassign with hfree | rfl
        · rw [hreserved] at hfree
          cases hfree
        · rw [interfaceIndex?_returnVar] at hi
          cases hi
      · rw [htidy x hassign] at hvar
        cases hvar
    · cases hvar
  · obtain ⟨u', hu', heq⟩ := Option.map_eq_some_iff.1 hghost
    obtain ⟨j, rfl, hj⟩ := interfaceMap_eq_some_iff.1 hu'
    obtain rfl : j = i := Option.some.inj ((interfaceIndex?_interfaceVar j).symm.trans hi)
    rw [← heq, Option.some.inj (hj.symm.trans hu)]

theorem exists_mem_named (htidy : c'.IsTidy) (hframe : frame.interface = interface)
    (hu : u ∈ interface) : ∃ v, (v, u) ∈ frame.named post := by
  obtain ⟨i, hi⟩ := getElem?_of_mem hu
  have hvar := L'.var (interfaceVar i)
  rw [Heap.var?_keepVars, htidy _ (not_isAssignable_interfaceVar i), ite_self, Option.none_or,
    ghosts, interfaceMap_eq_some_iff.2 ⟨i, rfl, hi⟩, Option.map_some, eq_comm,
    Option.map_eq_some_iff] at hvar
  obtain ⟨v, hv, -⟩ := hvar
  exact ⟨v, Frame.mem_named_iff.2 ⟨_, i, hv, interfaceIndex?_interfaceVar i, hframe ▸ hi⟩⟩

theorem isNaming_named (L : IsLayout A S h c φ inner) (hfrag : IsFragment h args inside)
    (hin : ∀ v ∈ inside, v ∈ S) (hinterface : ∀ u ∈ interface, u ∈ inside) (htidy : c'.IsTidy)
    (hframe : frame.interface = interface) : IsNaming (frame.named post) inside := by
  have hspec {v u} (hmem : (v, u) ∈ frame.named post) : v ∈ T ∧ u ∈ inside ∧ ψ v = φ u := by
    obtain ⟨⟨x, hx⟩, hu, heq⟩ := eq_of_mem_named L' htidy hframe hmem
    exact ⟨L'.named x v hx, hinterface u hu, heq⟩
  constructor
  case left_unique =>
    intro v w u hv hw
    obtain ⟨hvT, -, heq⟩ := hspec hv
    obtain ⟨hwT, -, heq'⟩ := hspec hw
    exact L'.inj v hvT w hwT (heq.trans heq'.symm)
  case right_unique =>
    intro v u u' hu hu'
    obtain ⟨-, hmem, heq⟩ := hspec hu
    obtain ⟨-, hmem', heq'⟩ := hspec hu'
    exact L.inj u (hin u hmem) u' (hin u' hmem') (heq.symm.trans heq')
  case ne_null =>
    rintro v u hu rfl
    obtain ⟨-, hmem, heq⟩ := hspec hu
    refine hfrag.ne_null u hmem (L.inj u (hin u hmem) _ L.null_mem ?_)
    rw [← heq, L'.null, L.null]
  case mem => exact fun v u hu => (hspec hu).2.1

end Resume

end Call

section Resume

open Call

variable {A : Abstraction} {γ : String → Option Node} {S : Set Node} {h post c c' : Heap}
  {φ : Node → Node} {inner : Node → String → List Node} {args : List Node} {params : List String}

/-- The caller's heap after a call describes the heap after the call, if the result describes what
the callee leaves and the callee is confined to the region of the fragment. -/
theorem Describes.resume (hd : Describes A γ h c) (hc : c.IsPlain)
    (L : IsPlacement A γ S h c φ inner) (hargs : ∀ v ∈ args, v ∈ S) (hc' : c'.IsPlain)
    (htidy : c'.IsTidy)
    (hconfined : Heap.Confined (region c φ inner (fragment h args)) c c')
    (hpost : Describes A (ghosts φ (Call.enter h params args).2.interface) post
      (c'.keepVars isReserved)) (result? : Option String) :
    Describes A γ ((Call.enter h params args).2.resume post result?) (c.restore c' result?) := by
  have hfrag := isFragment_fragment hd.inRange args
  have houter : (Call.enter h params args).2.outer =
      ((fragment h args).foldl Heap.clearCell h).keepSummaries (!startsIn (fragment h args) ·) := rfl
  have hmem {u} : u ∈ (Call.enter h params args).2.interface ↔
      u ∈ fragment h args ∧ u ∈ referenced h (fragment h args) := mem_interfaceNodes_iff
  generalize (Call.enter h params args).2 = frame at hpost houter hmem ⊢
  generalize fragment h args = inside at hconfined hfrag houter hmem
  have hin : ∀ v ∈ inside, v ∈ S := fun v =>
    L.toIsLayout.mem_of_mem_fragment hd.links hfrag hargs
  obtain ⟨T₀, ψ, inner', L₀⟩ := hpost.placed
  have hN : IsNaming (frame.named post) inside :=
    isNaming_named L₀ L.toIsLayout hfrag hin (fun u hu => (hmem.1 hu).1) htidy rfl
  have G := isGlued_glued hfrag hd.inRange hpost.inRange (fun w => hd.not_leads_null hc)
    (fun w => hpost.not_leads_null (hc'.keepVars _)) houter hN
  -- only what is live in the result is known to be in the region
  have hlive {v} (hv : post.IsLive v) : v ∈ T₀ := L₀.mem_of_isLive hpost.links hv
  have L' : IsLayout A {v | post.IsLive v} post c' ψ inner' := by
    have hclosed : ∀ v ∈ {v | post.IsLive v}, ∀ sel w, A.Arrow post v sel w →
        w ∈ {v | post.IsLive v} := fun v hv sel w hw => Heap.IsLive.tail hv hw.leads
    exact (L₀.toIsLayout.restrict (fun v hv => hlive hv) Heap.IsLive.null hclosed).replace
      (Nat.le_refl _) (Nat.le_refl _) (fun _ _ _ _ _ _ => rfl)
      fun _ _ _ => .inl ⟨rfl, fun _ => .rfl, rfl⟩
  have hinterface : ∀ u ∈ inside, u ∈ referenced h inside →
      ∃ v ∈ {v | post.IsLive v}, frame.callerNode post v = u ∧ ψ v = φ u := by
    intro u hu href
    obtain ⟨v, hv⟩ := exists_mem_named L₀ htidy rfl (hmem.2 ⟨hu, href⟩)
    obtain ⟨⟨x, hx⟩, -, heq⟩ := eq_of_mem_named L₀ htidy rfl hv
    exact ⟨v, .var hx, Frame.callerNode_of_mem hN hv, heq⟩
  have hlayout := G.isLayout L.toIsLayout L' hd.inRange hpost.inRange (fun w => hd.not_leads_null hc)
    hconfined.size hconfined.outside
    (fun u hu hout hne => not_mem_region L.toIsLayout hin hu hout hne)
    (fun v hv => mem_of_confined L₀ hpost.links hconfined
      (fun u hu => .inr (.inr ⟨u, (hmem.1 hu).1, .inl rfl⟩)) hv)
    hinterface
  have hrefer {x v} (hx : h.var? x = some v) := G.mem_placed L.toIsLayout L' hinterface
    (L.named x v hx) (mem_referenced_of_var hx)
  have L₁ : IsPlacement A γ (IsGlued.placed S {v | post.IsLive v} inside (frame.callerNode post))
      (frame.glued post) (c.restore c' none) (glue {v | post.IsLive v} (frame.callerNode post) ψ φ)
      (glue {v | post.IsLive v} (frame.callerNode post) inner' inner) := by
    refine ⟨hlayout.replace (Nat.le_refl _) (Nat.le_refl _) (fun _ _ _ _ _ _ => rfl)
      fun _ _ _ => .inl ⟨rfl, fun _ => .rfl, rfl⟩, fun x v hx => ?_, fun x => ?_⟩
    · rw [G.var] at hx
      exact (hrefer hx).1
    · rw [G.var, Heap.var?_restore, if_neg (by simp), L.var]
      exact Option.map_congr fun v hv => (hrefer hv).2.symm
  have hglued : Describes A γ (frame.glued post) (c.restore c' none) :=
    ⟨G.inRange hd.inRange hpost.inRange, G.isDeterministic hd.inRange hpost.inRange
      (fun w => hd.not_leads_null hc) (fun w => hpost.not_leads_null (hc'.keepVars _)) hd.det hpost.det,
      G.isLink hd.links hpost.links, _, _, _, L₁⟩
  rw [Frame.resume_eq]
  refine collect ?_
  cases result? with
  | none => exact hglued
  | some x =>
    have hreturn : c'.var? returnVar = (post.var? returnVar).map ψ := by
      have hvar := L₀.var returnVar
      rwa [Heap.var?_keepVars, if_pos (by decide), isGhost_ghosts _ _ (.inr rfl), Option.or_none]
        at hvar
    have hvalue : c'.valueOf (some returnVar) = ((post.var? returnVar).map ψ).getD Node.null := by
      rw [← hreturn]
      rfl
    cases hv : post.var? returnVar with
    | none =>
      rw [hv] at hvalue
      exact hglued.setVar L₁ L₁.null_mem (hvalue.trans L₁.null.symm)
    | some v =>
      rw [hv] at hvalue
      have hinj : ∀ v ∈ {v | post.IsLive v}, ∀ w ∈ {v | post.IsLive v},
          frame.callerNode post v = frame.callerNode post w → v = w := fun v hv w hw =>
        G.inj v (L'.dom v hv) w (L'.dom w hw)
      exact hglued.setVar L₁ (.inr ⟨v, .var hv, rfl⟩) (hvalue.trans (glue_of_mem hinj (.var hv)).symm)

end Resume

end ShapeCheck
