import ShapeCheck.Proofs.Concretization

/-!
# Merging two steps of a chain

Folding a node and using a rule backwards make the same change: a node in the middle of a chain,
which nothing else refers to, disappears, and the step into it and the step out of it become one
summary. Each of the two steps is a selector or a summary of the chain. A `Merge` says this once, and
what follows for selectors and summaries is derived from it in both directions.
-/

namespace ShapeCheck

open List

variable {A : Abstraction} {h h' : Heap} {chain : Chain} {u v w : Node} {sel : String}

/-- A step of a chain from `u` to `w`: a selector, and then no summary, or the one summary. -/
def Heap.IsStep (h : Heap) (chain : Chain) (u w : Node) (l : List Summary) : Prop :=
  h.selector? u chain.selector = some w ∧ l = [] ∨
    h.selector? u chain.selector = none ∧ l = [⟨chain.label, [u, w]⟩]

/-- In the heap `h`, a chain leads from `source` over `node` to `target`; in `h'`, one summary leads
from `source` to `target`, and nothing refers to `node`. All else is the same. -/
structure Merge (A : Abstraction) (h h' : Heap) where
  chain : Chain
  source : Node
  node : Node
  target : Node
  /-- The summaries of the step into the node. -/
  into : List Summary
  /-- The summaries of the step out of the node. -/
  out : List Summary
  /-- The summaries that both heaps have. -/
  rest : List Summary
  mem : chain ∈ A.chains
  node_ne_null : node ≠ Node.null
  source_ne : source ≠ node
  target_ne : target ≠ node
  isStep_into : h.IsStep chain source node into
  isStep_out : h.IsStep chain node target out
  summaries : h.summaries.Perm (into ++ out ++ rest)
  summaries_coarse : h'.summaries.Perm (⟨chain.label, [source, target]⟩ :: rest)
  selector_coarse : ∀ u sel, h'.selector? u sel =
    if sel = chain.selector ∧ (u = source ∨ u = node) then none else h.selector? u sel
  var : ∀ x, h'.var? x = h.var? x
  var_ne : ∀ x, h.var? x ≠ some node
  selector_into : ∀ u sel, h.selector? u sel = some node → u = source ∧ sel = chain.selector
  selector_out : ∀ sel, sel ≠ chain.selector → h.selector? node sel = none
  not_mem_ends : ∀ e ∈ rest, node ∉ e.ends

namespace Heap.IsStep

variable {l : List Summary}

theorem arrow (hstep : h.IsStep chain u w l) (hchain : chain ∈ A.chains) (hl : l ⊆ h.summaries) :
    A.Arrow h u chain.selector w := by
  rcases hstep with ⟨hsel, -⟩ | ⟨-, rfl⟩
  · exact .inl hsel
  · exact .inr ⟨chain, hchain, rfl, hl mem_cons_self⟩

theorem eq_of_mem (hstep : h.IsStep chain u w l) {e : Summary} (he : e ∈ l) :
    e = ⟨chain.label, [u, w]⟩ ∧ h.selector? u chain.selector = none := by
  rcases hstep with ⟨-, rfl⟩ | ⟨hsel, rfl⟩
  · cases he
  · exact ⟨mem_singleton.1 he, hsel⟩

theorem eq_of_selector? (hstep : h.IsStep chain u w l)
    (hv : h.selector? u chain.selector = some v) : v = w := by
  rcases hstep with ⟨hsel, -⟩ | ⟨hsel, -⟩
  · exact Option.some.inj (hv.symm.trans hsel)
  · rw [hsel] at hv
    cases hv

theorem lt_size (hstep : h.IsStep chain u w l) (hh : h.InRange) (hl : l ⊆ h.summaries) :
    u < h.size ∧ w < h.size := by
  rcases hstep with ⟨hsel, -⟩ | ⟨-, rfl⟩
  · exact ⟨Heap.lt_size_of_selector? hsel, hh.selector _ _ _ hsel⟩
  · have hmem := hl mem_cons_self
    exact ⟨hh.ends _ hmem u (by simp), hh.ends _ hmem w (by simp)⟩

end Heap.IsStep

namespace Merge

variable (m : Merge A h h')

theorem mem_summaries_iff {e : Summary} :
    e ∈ h.summaries ↔ e ∈ m.into ∨ e ∈ m.out ∨ e ∈ m.rest := by
  rw [m.summaries.mem_iff, mem_append, mem_append, or_assoc]

theorem mem_summaries_coarse_iff {e : Summary} :
    e ∈ h'.summaries ↔ e = ⟨m.chain.label, [m.source, m.target]⟩ ∨ e ∈ m.rest := by
  rw [m.summaries_coarse.mem_iff, mem_cons]

/-- The source starts no other summary of the chain, seen from the finer heap. -/
theorem source_not_mem (hdet : A.IsDeterministic h) :
    m.source ∉ m.rest.filterMap (·.linkSource? m.chain) := by
  intro hmem
  rcases m.isStep_into with ⟨hsel, -⟩ | ⟨-, hinto⟩
  · obtain ⟨w, hw⟩ := mem_linkSources_iff.1 hmem
    have hw := m.mem_summaries_iff.2 (.inr (.inr hw))
    rw [hdet.hidden m.chain m.mem _ w hw] at hsel
    cases hsel
  · have hnodup := (m.summaries.filterMap _).nodup_iff.1 (hdet.sources m.chain m.mem)
    rw [hinto] at hnodup
    simp [hmem] at hnodup

theorem source_not_mem_of_coarse (hdet : A.IsDeterministic h') :
    m.source ∉ m.rest.filterMap (·.linkSource? m.chain) := by
  have hnodup := (m.summaries_coarse.filterMap _).nodup_iff.1 (hdet.sources m.chain m.mem)
  rw [filterMap_cons, Summary.linkSource?_pair, if_pos rfl] at hnodup
  exact (nodup_cons.1 hnodup).1

theorem node_not_mem (chain : Chain) : m.node ∉ m.rest.filterMap (·.linkSource? chain) := by
  intro hmem
  obtain ⟨w, hw⟩ := mem_linkSources_iff.1 hmem
  exact m.not_mem_ends _ hw mem_cons_self

theorem isDeterministic_coarse (m : Merge A h h') (hA : A.IsDistinct) (hdet : A.IsDeterministic h) :
    A.IsDeterministic h' where
  hidden chain hchain v w hmem := by
    rw [m.selector_coarse]
    rcases m.mem_summaries_coarse_iff.1 hmem with heq | hmem
    · rw [Summary.mk.injEq] at heq
      obtain rfl := hA.eq_of_label hchain m.mem heq.1
      rw [if_pos ⟨rfl, .inl (cons_eq_cons.1 heq.2).1⟩]
    · rw [hdet.hidden chain hchain v w (m.mem_summaries_iff.2 (.inr (.inr hmem))), ite_self]
  sources chain hchain := by
    have hnodup := (m.summaries.filterMap _).nodup_iff.1 (hdet.sources chain hchain)
    rw [filterMap_append] at hnodup
    rw [(m.summaries_coarse.filterMap _).nodup_iff, filterMap_cons, Summary.linkSource?_pair]
    by_cases hlabel : m.chain.label = chain.label
    · obtain rfl := hA.eq_of_label m.mem hchain hlabel
      rw [if_pos rfl]
      exact nodup_cons.2 ⟨m.source_not_mem hdet, hnodup.of_append_right⟩
    · simpa [hlabel] using hnodup.of_append_right

theorem isDeterministic_fine (m : Merge A h h') (hA : A.IsDistinct) (hdet : A.IsDeterministic h') :
    A.IsDeterministic h where
  hidden chain hchain v w hmem := by
    rcases m.mem_summaries_iff.1 hmem with hmem | hmem | hmem
    · obtain ⟨heq, hsel⟩ := m.isStep_into.eq_of_mem hmem
      rw [Summary.mk.injEq] at heq
      rwa [hA.eq_of_label hchain m.mem heq.1, (cons_eq_cons.1 heq.2).1]
    · obtain ⟨heq, hsel⟩ := m.isStep_out.eq_of_mem hmem
      rw [Summary.mk.injEq] at heq
      rwa [hA.eq_of_label hchain m.mem heq.1, (cons_eq_cons.1 heq.2).1]
    · have hmem' := m.mem_summaries_coarse_iff.2 (.inr hmem)
      have hcoarse := hdet.hidden chain hchain v w hmem'
      rw [m.selector_coarse] at hcoarse
      by_cases hsel : chain.selector = m.chain.selector ∧ (v = m.source ∨ v = m.node)
      · obtain rfl := hA.eq_of_selector hchain m.mem hsel.1
        rcases hsel.2 with rfl | rfl
        · exact absurd (mem_linkSources_iff.2 ⟨w, hmem⟩) (m.source_not_mem_of_coarse hdet)
        · exact absurd (mem_linkSources_iff.2 ⟨w, hmem⟩) (m.node_not_mem m.chain)
      · rwa [if_neg hsel] at hcoarse
  sources chain hchain := by
    have hnodup := (m.summaries_coarse.filterMap _).nodup_iff.1 (hdet.sources chain hchain)
    rw [filterMap_cons, Summary.linkSource?_pair] at hnodup
    rw [(m.summaries.filterMap _).nodup_iff]
    have hnode := m.node_not_mem chain
    have hne := m.source_ne
    rcases m.isStep_into with ⟨-, hinto⟩ | ⟨-, hinto⟩ <;>
    rcases m.isStep_out with ⟨-, hout⟩ | ⟨-, hout⟩ <;>
    by_cases hlabel : m.chain.label = chain.label <;>
    simp_all

theorem arrow_into : A.Arrow h m.source m.chain.selector m.node :=
  m.isStep_into.arrow m.mem fun _ he => m.mem_summaries_iff.2 (.inl he)

theorem arrow_out : A.Arrow h m.node m.chain.selector m.target :=
  m.isStep_out.arrow m.mem fun _ he => m.mem_summaries_iff.2 (.inr (.inl he))

theorem eq_target_of_arrow (hA : A.IsDistinct) (hdet : A.IsDeterministic h)
    (hw : A.Arrow h m.node sel w) : sel = m.chain.selector ∧ w = m.target := by
  have hsel : sel = m.chain.selector := by
    rcases hw with hw | ⟨chain, hchain, rfl, hw⟩
    · by_contra hne
      rw [m.selector_out sel hne] at hw
      cases hw
    · rcases m.mem_summaries_iff.1 hw with hw | hw | hw
      · have heq := (m.isStep_into.eq_of_mem hw).1
        exact absurd (by simp_all) m.source_ne
      · have heq := (m.isStep_out.eq_of_mem hw).1
        rw [Summary.mk.injEq] at heq
        rw [hA.eq_of_label hchain m.mem heq.1]
      · exact absurd (by simp) (m.not_mem_ends _ hw)
  subst hsel
  exact ⟨rfl, hdet.arrow_unique hA hw m.arrow_out⟩

theorem chained_coarse : A.Chained h' m.source m.chain.selector m.target :=
  ⟨m.chain, m.mem, rfl, m.mem_summaries_coarse_iff.2 (.inl rfl)⟩

theorem selector?_source : h'.selector? m.source m.chain.selector = none := by
  rw [m.selector_coarse, if_pos ⟨rfl, .inl rfl⟩]

theorem not_arrow_node : ¬A.Arrow h' m.node sel w := by
  rintro (hw | ⟨chain, hchain, rfl, hw⟩)
  · rw [m.selector_coarse] at hw
    split at hw
    · cases hw
    · next hne =>
      rw [m.selector_out sel fun hsel => hne ⟨hsel, .inr rfl⟩] at hw
      cases hw
  · rcases m.mem_summaries_coarse_iff.1 hw with hw | hw
    · exact absurd (by simp_all) m.source_ne
    · exact absurd (by simp) (m.not_mem_ends _ hw)

theorem ne_node_of_arrow (hw : A.Arrow h' u sel w) : w ≠ m.node := by
  rintro rfl
  rcases hw with hw | ⟨chain, hchain, rfl, hw⟩
  · rw [m.selector_coarse] at hw
    split at hw
    · cases hw
    · next hne =>
      obtain ⟨rfl, rfl⟩ := m.selector_into u sel hw
      exact hne ⟨rfl, .inl rfl⟩
  · rcases m.mem_summaries_coarse_iff.1 hw with hw | hw
    · exact absurd (by simp_all) m.target_ne
    · exact absurd (by simp) (m.not_mem_ends _ hw)

section Elsewhere

variable (hu : u ≠ m.node) (hne : ¬(u = m.source ∧ sel = m.chain.selector))

include hu hne

theorem selector?_eq : h'.selector? u sel = h.selector? u sel := by
  rw [m.selector_coarse, if_neg]
  rintro ⟨hsel, rfl | rfl⟩
  · exact hne ⟨rfl, hsel⟩
  · exact hu rfl

theorem chained_iff (hA : A.IsDistinct) : A.Chained h' u sel w ↔ A.Chained h u sel w := by
  refine exists_congr fun chain => and_congr_right fun hchain => and_congr_right fun hsel => ?_
  rw [m.mem_summaries_iff, m.mem_summaries_coarse_iff]
  constructor
  · rintro (heq | hw)
    · rw [Summary.mk.injEq] at heq
      refine absurd ⟨(cons_eq_cons.1 heq.2).1, ?_⟩ hne
      rw [← hsel, hA.eq_of_label hchain m.mem heq.1]
    · exact .inr (.inr hw)
  · rintro (hw | hw | hw)
    · have heq := (m.isStep_into.eq_of_mem hw).1
      rw [Summary.mk.injEq] at heq
      refine absurd ⟨(cons_eq_cons.1 heq.2).1, ?_⟩ hne
      rw [← hsel, hA.eq_of_label hchain m.mem heq.1]
    · have heq := (m.isStep_out.eq_of_mem hw).1
      exact absurd (by simp_all) hu
    · exact .inr hw

theorem arrow_iff (hA : A.IsDistinct) : A.Arrow h' u sel w ↔ A.Arrow h u sel w := by
  rw [Abstraction.Arrow, Abstraction.Arrow, m.selector?_eq hu hne, m.chained_iff hu hne hA]

end Elsewhere

theorem source_lt (hh : h.InRange) : m.source < h.size :=
  (m.isStep_into.lt_size hh fun _ he => m.mem_summaries_iff.2 (.inl he)).1

theorem inRange_coarse (m : Merge A h h') (hh : h.InRange) (hsize : h'.size = h.size) :
    h'.InRange := by
  have htarget : m.target < h.size :=
    (m.isStep_out.lt_size hh fun _ he => m.mem_summaries_iff.2 (.inr (.inl he))).2
  refine ⟨hsize ▸ hh.pos, fun u s w hw => ?_, fun x v hv => ?_, fun e he v hv => ?_⟩
  · rw [m.selector_coarse] at hw
    split at hw
    · cases hw
    · exact hsize ▸ hh.selector u s w hw
  · exact hsize ▸ hh.var x v (m.var x ▸ hv)
  · rw [hsize]
    rcases m.mem_summaries_coarse_iff.1 he with rfl | he
    · rcases mem_cons.1 hv with rfl | hv
      · exact m.source_lt hh
      · exact mem_singleton.1 hv ▸ htarget
    · exact hh.ends e (m.mem_summaries_iff.2 (.inr (.inr he))) v hv

theorem inRange_fine (m : Merge A h h') (hh : h'.InRange) (hsize : h'.size ≤ h.size)
    (hnode : m.node < h.size) : h.InRange := by
  have hlt : ∀ v, v < h'.size → v < h.size := fun v hv => Nat.lt_of_lt_of_le hv hsize
  have hnew : (⟨m.chain.label, [m.source, m.target]⟩ : Summary) ∈ h'.summaries :=
    m.mem_summaries_coarse_iff.2 (.inl rfl)
  have hsource : m.source < h.size := hlt _ (hh.ends _ hnew _ (by simp))
  have htarget : m.target < h.size := hlt _ (hh.ends _ hnew _ (by simp))
  refine ⟨hlt _ hh.pos, fun u s w hw => ?_, fun x v hv => ?_, fun e he v hv => ?_⟩
  · by_cases hus : s = m.chain.selector ∧ (u = m.source ∨ u = m.node)
    · obtain ⟨rfl, rfl | rfl⟩ := hus
      · exact m.isStep_into.eq_of_selector? hw ▸ hnode
      · exact m.isStep_out.eq_of_selector? hw ▸ htarget
    · have hw' := m.selector_coarse u s
      rw [if_neg hus, hw] at hw'
      exact hlt _ (hh.selector u s w hw')
  · exact hlt _ (hh.var x v (m.var x ▸ hv))
  · rcases m.mem_summaries_iff.1 he with he | he | he
    · rw [(m.isStep_into.eq_of_mem he).1] at hv
      rcases mem_cons.1 hv with rfl | hv
      · exact hsource
      · exact mem_singleton.1 hv ▸ hnode
    · rw [(m.isStep_out.eq_of_mem he).1] at hv
      rcases mem_cons.1 hv with rfl | hv
      · exact hnode
      · exact mem_singleton.1 hv ▸ htarget
    · exact hlt _ (hh.ends e (m.mem_summaries_coarse_iff.2 (.inr he)) v hv)

section Unfold

variable {x y : Node} {rest : List Summary}

/-- A summary is replaced by a step to a fresh node and a step of the chain that leaves it. -/
def ofStep (out : List Summary) (hh : h.InRange) (hdet : A.IsDeterministic h)
    (hchain : chain ∈ A.chains) (hx : x < h.size) (hy : y < h.size)
    (hsummaries : h.summaries.Perm (⟨chain.label, [x, y]⟩ :: rest))
    (hout : h'.IsStep chain h.size y out) (hsummaries' : h'.summaries.Perm (out ++ rest))
    (hsel : ∀ u s, ¬(u = h.size ∧ s = chain.selector) → h'.selector? u s =
      if u = x ∧ s = chain.selector then some h.size else h.selector? u s)
    (hvar : ∀ a, h'.var? a = h.var? a) : Merge A h' h where
  chain := chain
  source := x
  node := h.size
  target := y
  into := []
  out := out
  rest := rest
  mem := hchain
  node_ne_null := Nat.ne_of_gt hh.pos
  source_ne := Nat.ne_of_lt hx
  target_ne := Nat.ne_of_lt hy
  isStep_into := by
    refine .inl ⟨?_, rfl⟩
    rw [hsel x _ fun heq => Nat.ne_of_lt hx heq.1, if_pos ⟨rfl, rfl⟩]
  isStep_out := hout
  summaries := hsummaries'
  summaries_coarse := hsummaries
  selector_coarse u s := by
    by_cases hu : u = h.size
    · rw [Heap.selector?_of_size_le (Nat.le_of_eq hu.symm)]
      split
      · rfl
      · next hne =>
        rw [hsel u s fun heq => hne ⟨heq.2, .inr hu⟩,
          if_neg fun heq => hne ⟨heq.2, .inl heq.1⟩,
          Heap.selector?_of_size_le (Nat.le_of_eq hu.symm)]
    · rw [hsel u s fun heq => hu heq.1]
      by_cases hux : u = x ∧ s = chain.selector
      · rw [if_pos ⟨hux.2, .inl hux.1⟩, hux.1, hux.2]
        exact hdet.hidden chain hchain x y (hsummaries.mem_iff.2 mem_cons_self)
      · rw [if_neg fun heq => heq.2.elim (fun heq' => hux ⟨heq', heq.1⟩) hu, if_neg hux]
  var a := (hvar a).symm
  var_ne a ha := Nat.lt_irrefl _ (hh.var a h.size (hvar a ▸ ha))
  selector_into u s hu := by
    by_cases hnew : u = h.size ∧ s = chain.selector
    · obtain ⟨rfl, rfl⟩ := hnew
      rcases hout with ⟨hsel', -⟩ | ⟨hsel', -⟩
      · rw [hu] at hsel'
        exact absurd (Option.some.inj hsel') (Nat.ne_of_gt hy)
      · rw [hu] at hsel'
        cases hsel'
    · rw [hsel u s hnew] at hu
      split at hu
      · assumption
      · exact absurd (hh.selector u s h.size hu) (Nat.lt_irrefl _)
  selector_out s hs := by
    rw [hsel _ s fun heq => hs heq.2, if_neg fun heq => hs heq.2,
      Heap.selector?_of_size_le (Nat.le_refl _)]
  not_mem_ends e he hmem := Nat.lt_irrefl _
    (hh.ends e (hsummaries.mem_iff.2 (mem_cons_of_mem _ he)) _ hmem)

variable {l r : List Summary}

/-- The merge that undoes the rule of a chain of two steps. -/
def short (hh : h.InRange) (hdet : A.IsDeterministic h) (hchain : chain ∈ A.chains)
    (hx : x < h.size) (hy : y < h.size)
    (hsummaries : h.summaries = l ++ ⟨chain.label, [x, y]⟩ :: r) :
    Merge A
      ((h.stepFrom x chain.selector (l ++ r)).modifyCell h.size (·.insert chain.selector y)) h :=
  ofStep [] hh hdet hchain hx hy (hsummaries ▸ perm_middle)
    (.inl ⟨by simp [Heap.selector?_modifyCell_insert], rfl⟩) (.refl _)
    (fun u s hne => by
      rw [Heap.selector?_modifyCell_insert, if_neg fun heq => hne ⟨heq.1, heq.2.2⟩,
        Heap.selector?_stepFrom hx])
    (fun _ => rfl)

/-- The merge that undoes the rule of a longer chain. -/
def long (hh : h.InRange) (hdet : A.IsDeterministic h) (hchain : chain ∈ A.chains)
    (hx : x < h.size) (hy : y < h.size)
    (hsummaries : h.summaries = l ++ ⟨chain.label, [x, y]⟩ :: r) :
    Merge A ((h.stepFrom x chain.selector (l ++ r)).addSummary chain.label [h.size, y]) h :=
  ofStep [⟨chain.label, [h.size, y]⟩] hh hdet hchain hx hy
    (hsummaries ▸ perm_middle)
    (.inr ⟨by
      rw [Heap.selector?_addSummary, Heap.selector?_stepFrom hx,
        if_neg fun heq => Nat.ne_of_gt hx heq.1, Heap.selector?_of_size_le (Nat.le_refl _)], rfl⟩)
    perm_append_comm
    (fun u s _ => by rw [Heap.selector?_addSummary, Heap.selector?_stepFrom hx])
    (fun _ => rfl)

end Unfold

end Merge

namespace Abstraction.Unfolds

theorem exists_merge (hstep : A.Unfolds h h') (hh : h.InRange) (hdet : A.IsDeterministic h) :
    ∃ m : Merge A h' h, m.node = h.size := by
  have hlt : ∀ {label x y l r}, h.summaries = l ++ ⟨label, [x, y]⟩ :: r →
      x < h.size ∧ y < h.size := by
    intro label x y l r heq
    have hmem : (⟨label, [x, y]⟩ : Summary) ∈ h.summaries := by simp [heq]
    exact ⟨hh.ends _ hmem x (by simp), hh.ends _ hmem y (by simp)⟩
  cases hstep with
  | short hchain hsummaries =>
    obtain ⟨hx, hy⟩ := hlt hsummaries
    exact ⟨.short hh hdet hchain hx hy hsummaries, rfl⟩
  | long hchain hsummaries =>
    obtain ⟨hx, hy⟩ := hlt hsummaries
    exact ⟨.long hh hdet hchain hx hy hsummaries, rfl⟩

theorem size_eq (hstep : A.Unfolds h h') : h'.size = h.size + 1 := by
  cases hstep <;> simp

theorem inRange (hstep : A.Unfolds h h') (hh : h.InRange) (hdet : A.IsDeterministic h) :
    h'.InRange := by
  obtain ⟨m, hm⟩ := hstep.exists_merge hh hdet
  exact m.inRange_fine hh (by simp [hstep.size_eq]) (by simp [hm, hstep.size_eq])

theorem isDeterministic (hstep : A.Unfolds h h') (hA : A.IsDistinct) (hh : h.InRange)
    (hdet : A.IsDeterministic h) : A.IsDeterministic h' :=
  let ⟨m, _⟩ := hstep.exists_merge hh hdet
  m.isDeterministic_fine hA hdet

end Abstraction.Unfolds

end ShapeCheck
