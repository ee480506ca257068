import ShapeCheck.Proofs.Renumber
import Mathlib.Data.List.Pairwise
import Mathlib.Data.List.Perm.Basic

/-!
# The heaps that a shape stands for

A summary `N(x, y)` of a chain along a selector is `x.sel = z, z.sel = y` or `x.sel = z, N(z, y)`,
with a fresh node `z`. A concretization of a heap replaces its chain summaries by these rules until
none is left, up to the numbers of the nodes. Summaries that no rule produces stay as they are.

For this to describe chains, no node may have both a selector and a summary that hides it, or two
summaries of one chain. The rules keep this.
-/

namespace ShapeCheck

open List

/-- The source of a summary of a chain. -/
def Summary.linkSource? (e : Summary) (chain : Chain) : Option Node :=
  (e.asLink? chain).map Prod.fst

/-- The heap with the given summaries and with a step from `x` to a fresh node. -/
def Heap.stepFrom (h : Heap) (x : Node) (sel : String) (summaries : List Summary) : Heap :=
  { h with summaries }.grow.modifyCell x (·.insert sel h.size)

namespace Abstraction

/-- The rules have different selectors and different labels. -/
def IsDistinct (A : Abstraction) : Prop :=
  (A.chains.map Chain.selector).Nodup ∧ (A.chains.map Chain.label).Nodup

instance (A : Abstraction) : Decidable A.IsDistinct :=
  inferInstanceAs (Decidable (_ ∧ _))

/-- Whether a summary is the left side of a rule. -/
def isLink (A : Abstraction) (e : Summary) : Bool :=
  A.chains.any fun chain => (e.asLink? chain).isSome

/-- One chain summary is replaced by a rule. -/
inductive Unfolds (A : Abstraction) (h : Heap) : Heap → Prop where
  /-- The chain has two steps. -/
  | short {chain : Chain} {x y : Node} {l r : List Summary} (hchain : chain ∈ A.chains)
      (hsummaries : h.summaries = l ++ ⟨chain.label, [x, y]⟩ :: r) :
      Unfolds A h
        ((h.stepFrom x chain.selector (l ++ r)).modifyCell h.size (·.insert chain.selector y))
  /-- The chain has more than two steps. -/
  | long {chain : Chain} {x y : Node} {l r : List Summary} (hchain : chain ∈ A.chains)
      (hsummaries : h.summaries = l ++ ⟨chain.label, [x, y]⟩ :: r) :
      Unfolds A h ((h.stepFrom x chain.selector (l ++ r)).addSummary chain.label [h.size, y])

/-- `c` is obtained from `h` by replacing chain summaries until none is left, up to the numbers of
the nodes. -/
def IsConcretization (A : Abstraction) (c h : Heap) : Prop :=
  ∃ d, Relation.ReflTransGen A.Unfolds h d ∧ (∀ e ∈ d.summaries, ¬A.isLink e) ∧ d.Isomorphic c

/-- No node has both a selector and a summary that hides it, or two summaries of one chain. -/
structure IsDeterministic (A : Abstraction) (h : Heap) : Prop where
  hidden : ∀ chain ∈ A.chains, ∀ v w, ⟨chain.label, [v, w]⟩ ∈ h.summaries →
    h.selector? v chain.selector = none
  sources : ∀ chain ∈ A.chains, (h.summaries.filterMap (·.linkSource? chain)).Nodup

/-- A summary along a selector. -/
def Chained (A : Abstraction) (h : Heap) (v : Node) (sel : String) (w : Node) : Prop :=
  ∃ chain ∈ A.chains, chain.selector = sel ∧ ⟨chain.label, [v, w]⟩ ∈ h.summaries

/-- A step along a selector, concrete or summarised. -/
def Arrow (A : Abstraction) (h : Heap) (v : Node) (sel : String) (w : Node) : Prop :=
  h.selector? v sel = some w ∨ A.Chained h v sel w

end Abstraction

variable {A : Abstraction} {h h' : Heap} {chain : Chain} {e : Summary} {u v w w' x y : Node}
  {sel : String}

theorem Summary.asLink?_eq_some_iff {p : Node × Node} :
    e.asLink? chain = some p ↔ e = ⟨chain.label, [p.1, p.2]⟩ := by
  obtain ⟨label, ends⟩ := e
  rw [asLink?]
  split
  · next source target hends =>
    by_cases hlabel : label = chain.label
    · simp_all [Prod.ext_iff]
    · simp_all
  · next hends =>
    constructor
    · rintro ⟨⟩
    · rintro heq
      cases heq
      exact absurd rfl (hends p.1 p.2)

theorem Summary.linkSource?_eq_some_iff :
    e.linkSource? chain = some v ↔ ∃ w, e = ⟨chain.label, [v, w]⟩ := by
  simp [linkSource?, asLink?_eq_some_iff]

@[simp]
theorem Summary.linkSource?_pair {label : String} :
    (⟨label, [v, w]⟩ : Summary).linkSource? chain = if label = chain.label then some v else none := by
  rw [linkSource?, asLink?]
  split <;> simp_all

theorem Summary.asLink?_map {f : Node → Node} :
    (e.map f).asLink? chain = (e.asLink? chain).map (Prod.map f f) := by
  obtain ⟨label, _ | ⟨a, _ | ⟨b, _ | ⟨d, ends⟩⟩⟩⟩ := e
  case cons.cons.nil =>
    simp only [Summary.map, map_cons, map_nil, asLink?]
    split <;> rfl
  all_goals rfl

theorem Summary.linkSource?_map {f : Node → Node} :
    (e.map f).linkSource? chain = (e.linkSource? chain).map f := by
  rw [linkSource?, linkSource?, asLink?_map, Option.map_map, Option.map_map]
  rfl

/-- Where the sources of the summaries of a chain are distinct, the source determines the
summary. -/
theorem eq_of_linkSource? {l : List Summary} (hl : (l.filterMap (·.linkSource? chain)).Nodup)
    {e e' : Summary} (he : e ∈ l) (he' : e' ∈ l) (hv : e.linkSource? chain = some v)
    (hv' : e'.linkSource? chain = some v) : e = e' := by
  let R (e e' : Summary) : Prop :=
    ∀ a, e.linkSource? chain = some a → ∀ b, e'.linkSource? chain = some b → a ≠ b
  have hpair : l.Pairwise R := List.pairwise_filterMap.1 hl
  have hsymm : Std.Symm R := ⟨fun e e' hee' a ha b hb => (hee' b hb a ha).symm⟩
  by_contra hne
  exact hpair.forall he he' hne v hv v hv' rfl

theorem mem_linkSources_iff {l : List Summary} :
    v ∈ l.filterMap (·.linkSource? chain) ↔ ∃ w, ⟨chain.label, [v, w]⟩ ∈ l := by
  simp only [mem_filterMap, Summary.linkSource?_eq_some_iff]
  constructor
  · rintro ⟨_, he, w, rfl⟩
    exact ⟨w, he⟩
  · rintro ⟨w, he⟩
    exact ⟨_, he, w, rfl⟩

namespace Heap

variable {summaries : List Summary} {s : String}

@[simp]
theorem size_stepFrom : (h.stepFrom x sel summaries).size = h.size + 1 := by
  rw [stepFrom, size_modifyCell, size_grow]
  rfl

theorem selector?_stepFrom (hx : x < h.size) : (h.stepFrom x sel summaries).selector? u s =
    if u = x ∧ s = sel then some h.size else h.selector? u s := by
  rw [stepFrom, selector?_modifyCell_insert, selector?_grow]
  simp only [size_grow]
  have hx' : x < ({ h with summaries } : Heap).size + 1 := Nat.lt_succ_of_lt hx
  simp only [hx', true_and]
  rfl

end Heap

namespace Abstraction

theorem isLink_iff : A.isLink e ↔ ∃ chain ∈ A.chains, ∃ v w, e = ⟨chain.label, [v, w]⟩ := by
  simp only [isLink, any_eq_true, Option.isSome_iff_exists, Summary.asLink?_eq_some_iff,
    Prod.exists]

theorem isLink_map {f : Node → Node} : A.isLink (e.map f) = A.isLink e := by
  simp only [isLink, Summary.asLink?_map, Option.isSome_map]

theorem IsDistinct.eq_of_selector (hA : A.IsDistinct) {chain chain' : Chain}
    (hchain : chain ∈ A.chains) (hchain' : chain' ∈ A.chains)
    (heq : chain.selector = chain'.selector) : chain = chain' :=
  inj_on_of_nodup_map hA.1 hchain hchain' heq

theorem IsDistinct.eq_of_label (hA : A.IsDistinct) {chain chain' : Chain}
    (hchain : chain ∈ A.chains) (hchain' : chain' ∈ A.chains)
    (heq : chain.label = chain'.label) : chain = chain' :=
  inj_on_of_nodup_map hA.2 hchain hchain' heq

theorem IsDistinct.chained_iff (hA : A.IsDistinct) (hchain : chain ∈ A.chains) :
    A.Chained h v chain.selector w ↔ ⟨chain.label, [v, w]⟩ ∈ h.summaries := by
  constructor
  · rintro ⟨chain', hchain', hsel, hmem⟩
    rwa [← hA.eq_of_selector hchain' hchain hsel]
  · intro hmem
    exact ⟨chain, hchain, rfl, hmem⟩

theorem isDeterministic_iff : A.IsDeterministic h ↔ ∀ chain ∈ A.chains,
    (∀ e ∈ h.summaries, ∀ v ∈ e.linkSource? chain, h.selector? v chain.selector = none) ∧
      (h.summaries.filterMap (·.linkSource? chain)).Nodup := by
  constructor
  · intro hdet chain hchain
    refine ⟨fun e he v hv => ?_, hdet.sources chain hchain⟩
    obtain ⟨w, rfl⟩ := Summary.linkSource?_eq_some_iff.1 hv
    exact hdet.hidden chain hchain v w he
  · intro hdet
    refine ⟨fun chain hchain v w he => ?_, fun chain hchain => (hdet chain hchain).2⟩
    exact (hdet chain hchain).1 _ he v (by simp)

instance (A : Abstraction) (h : Heap) : Decidable (A.IsDeterministic h) :=
  decidable_of_iff _ isDeterministic_iff.symm

theorem IsDeterministic.selector?_eq_none (hdet : A.IsDeterministic h) (hw : A.Chained h v sel w) :
    h.selector? v sel = none := by
  obtain ⟨chain, hchain, rfl, hw⟩ := hw
  exact hdet.hidden chain hchain v w hw

theorem IsDeterministic.arrow_unique (hdet : A.IsDeterministic h) (hA : A.IsDistinct)
    (hw : A.Arrow h v sel w) (hw' : A.Arrow h v sel w') : w = w' := by
  rcases hw with hw | hw <;> rcases hw' with hw' | hw'
  · exact Option.some.inj (hw.symm.trans hw')
  · rw [hdet.selector?_eq_none hw'] at hw
    cases hw
  · rw [hdet.selector?_eq_none hw] at hw'
    cases hw'
  · obtain ⟨chain, hchain, rfl, hw⟩ := hw
    rw [hA.chained_iff hchain] at hw'
    have heq := eq_of_linkSource? (v := v) (hdet.sources chain hchain) hw hw' (by simp) (by simp)
    simpa using heq

end Abstraction

namespace Heap.IsPart

variable {f : Node → Node} {g : Heap}

variable (hf : IsPart f g h)
include hf

theorem map_mem_summaries (he : e ∈ g.summaries) : e.map f ∈ h.summaries :=
  mem_of_mem_filter (hf.summaries.mem_iff.1 (mem_map_of_mem he))

theorem exists_mem_summaries (he : e ∈ h.summaries) (hends : ∀ v ∈ e.ends, ∃ u < g.size, f u = v) :
    ∃ e' ∈ g.summaries, e'.map f = e := by
  refine mem_map.1 (hf.summaries.mem_iff.2 (mem_filter.2 ⟨he, ?_⟩))
  refine all_eq_true.2 fun v hv => ?_
  obtain ⟨u, hu, rfl⟩ := hends v hv
  exact decide_eq_true (mem_map_of_mem (mem_nodes.2 hu))

theorem chained (hw : A.Chained g u sel w) : A.Chained h (f u) sel (f w) := by
  obtain ⟨chain, hchain, rfl, hw⟩ := hw
  exact ⟨chain, hchain, rfl, hf.map_mem_summaries hw⟩

theorem exists_chained (hg : g.InRange) (hu : u < g.size) (hw : A.Chained h (f u) sel w) :
    ∃ v, f v = w ∧ A.Chained g u sel v := by
  obtain ⟨chain, hchain, rfl, hw⟩ := hw
  have hwmem : ∃ v < g.size, f v = w :=
    hf.closed u hu w (mem_successors_iff.2 (.inr ⟨_, hw, rfl, by simp [Summary.targets]⟩))
  obtain ⟨⟨label, ends⟩, he, heq⟩ := hf.exists_mem_summaries hw fun v hv => by
    rcases mem_cons.1 hv with rfl | hv
    · exact ⟨u, hu, rfl⟩
    · exact mem_singleton.1 hv ▸ hwmem
  obtain ⟨rfl, hends⟩ := Summary.mk.inj heq
  obtain ⟨a, ha, b, rfl, rfl⟩ : ∃ a, f a = f u ∧ ∃ b, ends = [a, b] ∧ f b = w := by
    simp only [map_eq_cons_iff, map_eq_nil_iff] at hends
    obtain ⟨a, l, rfl, ha, b, l', rfl, hb, rfl⟩ := hends
    exact ⟨a, ha, b, rfl, hb⟩
  obtain rfl := hf.inj a (hg.ends _ he a (by simp)) u hu ha
  exact ⟨b, rfl, chain, hchain, rfl, he⟩

theorem arrow (hu : u < g.size) (hw : A.Arrow g u sel w) : A.Arrow h (f u) sel (f w) := by
  rcases hw with hw | hw
  · refine .inl ?_
    rw [hf.selector u hu, hw, Option.map_some]
  · exact .inr (hf.chained hw)

theorem exists_arrow (hg : g.InRange) (hu : u < g.size) (hw : A.Arrow h (f u) sel w) :
    ∃ v, f v = w ∧ A.Arrow g u sel v := by
  rcases hw with hw | hw
  · rw [hf.selector u hu, Option.map_eq_some_iff] at hw
    obtain ⟨v, hv, rfl⟩ := hw
    exact ⟨v, rfl, .inl hv⟩
  · obtain ⟨v, rfl, hv⟩ := hf.exists_chained hg hu hw
    exact ⟨v, rfl, .inr hv⟩

theorem isDeterministic (hg : g.InRange) (hdet : A.IsDeterministic h) : A.IsDeterministic g where
  hidden chain hchain v w hw := by
    have hnone := hdet.hidden chain hchain (f v) (f w) (hf.map_mem_summaries hw)
    rwa [hf.selector v (hg.ends _ hw v (by simp)), Option.map_eq_none_iff] at hnone
  sources chain hchain := by
    have hsub : ((g.summaries.map (Summary.map f)).filterMap (·.linkSource? chain)).Nodup :=
      (hf.summaries.filterMap _).nodup_iff.2
        ((hdet.sources chain hchain).sublist (filter_sublist.filterMap _))
    have hmap : (g.summaries.map (Summary.map f)).filterMap (·.linkSource? chain) =
        (g.summaries.filterMap (·.linkSource? chain)).map f := by
      rw [filterMap_map, map_filterMap]
      exact filterMap_congr fun e _ => Summary.linkSource?_map
    exact .of_map f (hmap ▸ hsub)

end Heap.IsPart

end ShapeCheck
