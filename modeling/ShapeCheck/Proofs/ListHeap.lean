import ShapeCheck.Proofs.Regular
import ShapeCheck.Proofs.Soundness

/-!
# Heaps of singly linked lists

In a *list heap* all selectors are links of lists, all summaries are segments of lists, and nothing
starts at null. Since no node has both a link and a segment, or two segments, every node leads to one
node at most.

The analysis with the default abstraction stays within list heaps as long as statements go through
links only. What the sources of a statement can be is said once, for any abstraction: the heap itself,
or the normal form of a heap in which one summary has been opened.
-/

namespace ShapeCheck

open Code

variable {E : Engine} {A : Abstraction} {g h h' : Heap} {u v w w' : Node} {sel : String}
  {stmt : Statement} {p : AccessPoint}

/-- The default abstraction, which folds lists right up to the variables. -/
abbrev Abstraction.lists : Abstraction := {}

theorem Abstraction.isDistinct_lists : lists.IsDistinct := by
  decide

theorem Abstraction.selector_of_mem_lists {chain : Chain} (hchain : chain ∈ lists.chains) :
    chain.selector = linkSelector := by
  rw [List.mem_singleton.1 hchain]
  rfl

/-- All selectors are links, all summaries are segments of lists, nothing starts at null, and no node
has two ways on. -/
structure Heap.IsListHeap (h : Heap) : Prop extends Abstraction.lists.IsShape h where
  links : ∀ e ∈ h.summaries, Abstraction.lists.isLink e
  selector : ∀ v sel w, h.selector? v sel = some w → v ≠ Node.null ∧ sel = linkSelector

namespace Heap.IsListHeap

open Abstraction (lists isDistinct_lists selector_of_mem_lists)

theorem ofPlain (hh : h.IsPlain) (hsel : ∀ v sel w, h.selector? v sel = some w → sel = linkSelector) :
    h.IsListHeap := by
  have hnone {P : Summary → Prop} : ∀ e ∈ h.summaries, P e := by
    rw [hh.summaries]
    exact List.forall_mem_nil _
  refine ⟨⟨hh.inRange, ⟨fun chain _ v w he => ?_, fun chain _ => ?_⟩, fun _ _ => hnone⟩, hnone,
    fun v sel w hw => ⟨?_, hsel v sel w hw⟩⟩
  · exact hnone (P := fun _ => h.selector? v chain.selector = none) _ he
  · rw [hh.summaries]
    exact List.nodup_nil
  · rintro rfl
    rw [hh.selector?_null] at hw
    cases hw

theorem source_ne_null (hh : h.IsListHeap) {e : Summary} (he : e ∈ h.summaries) :
    e.source? ≠ some Node.null := by
  obtain ⟨chain, hchain, v, w, rfl⟩ := Abstraction.isLink_iff.1 (hh.links e he)
  exact (hh.proper chain hchain _ he rfl).2

theorem isRegular (hh : h.IsListHeap) : h.IsRegular := by
  refine ⟨hh.inRange, fun e he => ?_⟩
  obtain ⟨chain, -, v, w, rfl⟩ := Abstraction.isLink_iff.1 (hh.links e he)
  rfl

/-- A step starts at a node other than null, and it is a link or a segment of a list. -/
theorem of_arrow (hh : h.IsListHeap) (hw : lists.Arrow h v sel w) :
    v ≠ Node.null ∧ sel = linkSelector := by
  rcases hw with hw | ⟨chain, hchain, rfl, hw⟩
  · exact hh.selector v sel w hw
  · refine ⟨?_, selector_of_mem_lists hchain⟩
    rintro rfl
    exact hh.source_ne_null hw rfl

theorem leads_iff (hh : h.IsListHeap) : h.Leads v w ↔ lists.Arrow h v linkSelector w := by
  refine ⟨fun hvw => ?_, fun hvw => hvw.leads⟩
  obtain ⟨sel, hsel⟩ := Abstraction.exists_arrow_of_leads hh.links hvw
  exact (hh.of_arrow hsel).2 ▸ hsel

theorem leads_unique (hh : h.IsListHeap) (hw : h.Leads v w) (hw' : h.Leads v w') : w = w' :=
  hh.det.arrow_unique isDistinct_lists (hh.leads_iff.1 hw) (hh.leads_iff.1 hw')

theorem ne_null_of_leads (hh : h.IsListHeap) (hw : h.Leads v w) : v ≠ Node.null :=
  (hh.of_arrow (hh.leads_iff.1 hw)).1

theorem ofPart (hh : h.IsListHeap) {f : Node → Node} (hf : IsPart f g h) (hg : g.InRange) :
    g.IsListHeap where
  inRange := hg
  det := hf.isDeterministic hg hh.det
  proper := hf.isProper hh.proper
  links e he := Abstraction.isLink_map ▸ hh.links _ (hf.map_mem_summaries he)
  selector v sel w hw := by
    have hfw := hf.selector v (lt_size_of_selector? hw) sel
    rw [hw, Option.map_some] at hfw
    obtain ⟨hne, hsel⟩ := hh.selector (f v) sel (f w) hfw
    exact ⟨fun heq => hne (heq ▸ hf.null), hsel⟩

theorem normalize (hh : h.IsListHeap) : h.normalize.IsListHeap :=
  hh.ofPart (hh.inRange.isRenumbering_normalize.isPart hh.inRange) hh.inRange.inRange_normalize

theorem collect (hh : h.IsListHeap) : h.collect.IsListHeap := by
  obtain ⟨f, hf, -⟩ := hh.inRange.isPart_collect
  exact hh.ofPart hf hh.inRange.inRange_collect

theorem merge (hh : h.IsListHeap) (m : Merge lists h h') (hsize : h'.size = h.size) :
    h'.IsListHeap where
  inRange := m.inRange_coarse hh.inRange hsize
  det := m.isDeterministic_coarse isDistinct_lists hh.det
  proper chain hchain e he hlabel := by
    rcases m.mem_summaries_coarse_iff.1 he with rfl | he
    · refine ⟨rfl, fun hnull => (hh.of_arrow m.arrow_into).1 ?_⟩
      exact Option.some.inj hnull
    · exact hh.proper chain hchain e (m.mem_summaries_iff.2 (.inr (.inr he))) hlabel
  links e he := by
    rcases m.mem_summaries_coarse_iff.1 he with rfl | he
    · exact Abstraction.isLink_iff.2 ⟨m.chain, m.mem, _, _, rfl⟩
    · exact hh.links e (m.mem_summaries_iff.2 (.inr (.inr he)))
  selector v sel w hw := by
    rw [m.selector_coarse] at hw
    split at hw
    · cases hw
    · exact hh.selector v sel w hw

theorem shapeAt (hh : h.IsListHeap) (depth : Nat) : (lists.shapeAt depth h).IsListHeap := by
  obtain ⟨hfolding, hfolded⟩ := Abstraction.foldAll_induction depth h.size
    (P := fun g _ => g.IsListHeap) isDistinct_lists (fun _ _ _ m _ hsize hg => hg.merge m hsize)
    (.start hh.inRange hh.det) hh
  obtain ⟨f, hf, -⟩ := hfolding.isPart_dropNodes
  exact (hfolded.ofPart hf (hfolding.inRange.inRange_dropNodes _)).normalize

theorem opening (hh : h.IsListHeap) {m : Merge lists g h} (hm : m.IsOpening) : g.IsListHeap where
  toIsShape := hm.isShape isDistinct_lists hh.toIsShape
  links e he := by
    rcases m.mem_summaries_iff.1 he with he | he | he
    · rw [hm.into] at he
      cases he
    · exact Abstraction.isLink_iff.2 ⟨m.chain, m.mem, _, _, (m.isStep_out.eq_of_mem he).1⟩
    · exact hh.links e (m.mem_summaries_coarse_iff.2 (.inr he))
  selector v sel w hw := by
    by_cases hopened : sel = m.chain.selector ∧ (v = m.source ∨ v = m.node)
    · obtain ⟨rfl, hv⟩ := hopened
      refine ⟨?_, selector_of_mem_lists m.mem⟩
      rcases hv with rfl | rfl
      · exact (hh.of_arrow (.inr m.chained_coarse)).1
      · exact m.node_ne_null
    · refine hh.selector v sel w ?_
      rw [m.selector_coarse, if_neg hopened]
      exact hw

theorem source (hh : h.IsListHeap) (hE : E.abstraction = lists) {gs : List Heap}
    (hgs : E.sources stmt h = .ok gs) (hg : g ∈ gs) :
    g.IsListHeap ∧ (∀ p ∈ stmt.accessPoint?, lists.IsExposed g p) ∧ g.size ≤ h.size + 1 ∧
      ∀ x, (g.var? x).isSome ↔ (h.var? x).isSome := by
  obtain ⟨program, abstraction, settings⟩ := E
  subst hE
  obtain ⟨hcases, hexposed⟩ := Engine.source_cases hh.toIsShape isDistinct_lists
    (fun e he => hh.source_ne_null he) hgs hg
  rcases hcases with rfl | ⟨g', rfl, m, hm⟩
  · exact ⟨hh, hexposed, Nat.le_succ _, fun _ => .rfl⟩
  · have hopen := hh.opening hm
    have hnormal := hopen.inRange.isRenumbering_normalize
    refine ⟨hopen.normalize, hexposed, ?_, fun x => ?_⟩
    · rw [hnormal.size, hm.size]
    · rw [m.var, hnormal.var, Option.isSome_map]

/-- A statement that goes through a link, if at all, on a heap in which the link is exposed. -/
theorem step (hh : h.IsListHeap) (hstmt : stmt.IsUnreserved)
    (hlink : ∀ p ∈ stmt.accessPoint?, p.selector = linkSelector)
    (hexposed : ∀ p ∈ stmt.accessPoint?, lists.IsExposed h p) {next : List (Location × Heap)}
    (hstep : stmt.step h = .moves next) {loc : Location} (hnext : (loc, g) ∈ next) :
    g.IsListHeap := by
  have hchange := Statement.change hstmt hstep hnext
  have hsum := hchange.summaries_eq
  have hrange := (hh.isRegular.change hchange).inRange
  have hproper : lists.IsProper g := fun chain hchain e he => hh.proper chain hchain e (hsum ▸ he)
  rcases Statement.stored_or_selector?_eq hstep hnext with ⟨p, w, hp, hne, rfl⟩ | hsel
  · refine ⟨⟨hrange, hh.det.stored fun t => (hexposed p hp).not_chained hh.det rfl hne, hproper⟩,
      hsum ▸ hh.links, fun v sel t ht => ?_⟩
    by_cases hv : v = h.valueOf (some p.base) ∧ sel = p.selector
    · exact ⟨hv.1 ▸ hne, hv.2 ▸ hlink p hp⟩
    · rw [selector?_stored_of_ne hv] at ht
      exact hh.selector v sel t ht
  · exact ⟨⟨hrange, hh.det.congr hsel hsum, hproper⟩, hsum ▸ hh.links, fun v sel t ht =>
      hh.selector v sel t (hsel v sel ▸ ht)⟩

end Heap.IsListHeap

end ShapeCheck
