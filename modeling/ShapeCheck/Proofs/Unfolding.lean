import ShapeCheck.Proofs.Folding
import ShapeCheck.Shape.Unfold

/-!
# Unfolding keeps the concretizations

Unfolding a summary that hides a selector gives two heaps: one for a chain of two steps and one for
longer chains. Every concretization of the heap has one of both lengths, so the two heaps together
have exactly the concretizations of the heap. A point that is exposed, its selector being concrete or
hidden by no summary, stays so when other points are unfolded.
-/

namespace ShapeCheck

open List

namespace Abstraction

/-- The summaries of chains have two ends, and the first is not null. -/
def IsProper (A : Abstraction) (h : Heap) : Prop :=
  ∀ chain ∈ A.chains, ∀ e ∈ h.summaries, e.label = chain.label →
    e.ends.length = 2 ∧ e.source? ≠ some Node.null

instance (A : Abstraction) (h : Heap) : Decidable (A.IsProper h) :=
  inferInstanceAs (Decidable (∀ chain ∈ A.chains, ∀ e ∈ h.summaries, _ → _))

/-- The selector of an access point is concrete, or no summary of a chain along it starts at the
node. -/
def IsExposed (A : Abstraction) (h : Heap) (p : AccessPoint) : Prop :=
  ∀ v, h.var? p.base = some v → (h.selector? v p.selector).isSome ∨
    ∀ chain ∈ A.chains, chain.selector = p.selector → ∀ e ∈ h.summaries, e.label = chain.label →
      e.source? ≠ some v

end Abstraction

variable {A : Abstraction} {h h' g c : Heap} {chain : Chain} {v w target : Node} {sel : String}
  {p q : AccessPoint} {i : Nat}

/-- A merge of a node beyond the coarser heap, with a concrete step into it. -/
structure Merge.IsOpening (m : Merge A h h') : Prop where
  size : h.size = h'.size + 1
  node : m.node = h'.size
  into : m.into = []

theorem Heap.IsPart.isProper {f : Node → Node} (hf : Heap.IsPart f g h) (hproper : A.IsProper h) :
    A.IsProper g := by
  intro chain hchain e he hlabel
  obtain ⟨hlength, hsource⟩ := hproper chain hchain _ (hf.map_mem_summaries he) hlabel
  refine ⟨by simpa [Summary.map] using hlength, fun hnull => hsource ?_⟩
  rw [Summary.source?_map, hnull, Option.map_some, hf.null]

theorem Heap.IsPart.isExposed {f : Node → Node} (hf : Heap.IsPart f g h) (hg : g.InRange)
    (hp : A.IsExposed h p) : A.IsExposed g p := by
  intro v hv
  have hfv : h.var? p.base = some (f v) := by rw [hf.var, hv, Option.map_some]
  rcases hp (f v) hfv with hsome | hnone
  · left
    rwa [hf.selector v (hg.var _ v hv), Option.isSome_map] at hsome
  · right
    intro chain hchain hsel e he hlabel hsource
    refine hnone chain hchain hsel _ (hf.map_mem_summaries he) hlabel ?_
    rw [Summary.source?_map, hsource, Option.map_some]

namespace Merge

theorem isProper_fine (m : Merge A h h') (hproper : A.IsProper h') (hinto : m.into = []) :
    A.IsProper h := by
  intro chain hchain e he hlabel
  rcases m.mem_summaries_iff.1 he with he | he | he
  · rw [hinto] at he
    cases he
  · rw [(m.isStep_out.eq_of_mem he).1]
    simpa [Summary.source?] using m.node_ne_null
  · exact hproper chain hchain e (m.mem_summaries_coarse_iff.2 (.inr he)) hlabel

theorem isExposed_fine (m : Merge A h h') (hinto : m.into = []) (hp : A.IsExposed h' p) :
    A.IsExposed h p := by
  intro v hv
  rcases hp v ((m.var _).trans hv) with hsome | hnone
  · left
    rw [m.selector_coarse] at hsome
    split at hsome
    · cases hsome
    · exact hsome
  · right
    intro chain hchain hsel e he hlabel hsource
    rcases m.mem_summaries_iff.1 he with he | he | he
    · rw [hinto] at he
      cases he
    · rw [(m.isStep_out.eq_of_mem he).1] at hsource
      exact m.var_ne p.base (hv.trans hsource.symm)
    · exact hnone chain hchain hsel e (m.mem_summaries_coarse_iff.2 (.inr he)) hlabel hsource

end Merge

namespace Heap

theorem summaryFrom?_eq_some {label : String} (hi : h.summaryFrom? v label = some i) :
    ∃ e, h.summaries[i]? = some e ∧ e.label = label ∧ e.source? = some v := by
  obtain ⟨hlt, hp, -⟩ := findIdx?_eq_some_iff_getElem.1 hi
  simp only [Bool.and_eq_true, decide_eq_true_eq] at hp
  exact ⟨_, getElem?_eq_getElem hlt, hp⟩

theorem summaryFrom?_eq_none_iff {label : String} :
    h.summaryFrom? v label = none ↔ ∀ e ∈ h.summaries, e.label = label → e.source? ≠ some v := by
  simp [summaryFrom?, findIdx?_eq_none_iff]

end Heap

namespace Abstraction

theorem mem_chainsAlong_iff :
    chain ∈ A.chainsAlong sel ↔ chain ∈ A.chains ∧ chain.selector = sel := by
  simp [chainsAlong]

theorem hides_iff : A.hides h v sel ↔ v ≠ Node.null ∧ h.selector? v sel = none ∧
    ∃ chain ∈ A.chains, chain.selector = sel ∧ (h.summaryFrom? v chain.label).isSome := by
  simp only [hides, Bool.and_eq_true, decide_eq_true_eq, Option.isNone_iff_eq_none,
    any_eq_true, mem_chainsAlong_iff, and_assoc]

theorem hiding?_eq_some (hhiding : A.hiding? h v sel = some (chain, i, target)) :
    chain ∈ A.chains ∧ chain.selector = sel ∧
      h.summaries[i]? = some ⟨chain.label, [v, target]⟩ := by
  rw [hiding?] at hhiding
  obtain ⟨chain', hchain, hhiding⟩ := exists_of_findSome?_eq_some hhiding
  obtain ⟨j, hj, hhiding⟩ := Option.bind_eq_some_iff.1 hhiding
  obtain ⟨e, he, hhiding⟩ := Option.bind_eq_some_iff.1 hhiding
  obtain ⟨e', he', hlabel, hsource⟩ := Heap.summaryFrom?_eq_some hj
  obtain rfl := Option.some.inj (he.symm.trans he')
  split at hhiding
  · next a b hends =>
    obtain ⟨rfl, rfl, rfl⟩ := by simpa using hhiding
    obtain rfl : a = v := by simpa [Summary.source?, hends] using hsource
    obtain ⟨hmem, hsel⟩ := mem_chainsAlong_iff.1 hchain
    refine ⟨hmem, hsel, he.trans ?_⟩
    rw [← hlabel, ← hends]
  · cases hhiding

/-- Where the summaries of chains have two ends, a hidden selector is hidden by one that can be
unfolded. -/
theorem hiding?_ne_none (hpaired : ∀ chain ∈ A.chains, ∀ e ∈ h.summaries, e.label = chain.label →
    e.ends.length = 2) (hhides : A.hides h v sel) : A.hiding? h v sel ≠ none := by
  obtain ⟨-, -, chain, hchain, hsel, hsome⟩ := hides_iff.1 hhides
  obtain ⟨i, hi⟩ := Option.isSome_iff_exists.1 hsome
  obtain ⟨e, he, hlabel, -⟩ := Heap.summaryFrom?_eq_some hi
  obtain ⟨a, b, hends⟩ :=
    length_eq_two.1 (hpaired chain hchain e (mem_of_getElem? he) hlabel)
  intro hnone
  have hnone := findSome?_eq_none_iff.1 hnone chain (mem_chainsAlong_iff.2 ⟨hchain, hsel⟩)
  simp [hi, he, hends] at hnone

/-- A selector that nothing hides is concrete, or no summary of a chain along it starts there. -/
theorem isExposed_of_hides_eq_false (hproper : A.IsProper h)
    (hhides : ∀ v, h.var? p.base = some v → A.hides h v p.selector = false) : A.IsExposed h p := by
  intro v hv
  refine or_iff_not_imp_left.2 fun hnone chain hchain hsel e he hlabel hsource => ?_
  by_cases hnull : v = Node.null
  · exact (hproper chain hchain e he hlabel).2 (hnull ▸ hsource)
  · have hfalse := hhides v hv
    have hsome : (h.summaryFrom? v chain.label).isSome := by
      rw [Option.isSome_iff_ne_none, ne_eq, Heap.summaryFrom?_eq_none_iff]
      exact fun hall => hall e he hlabel hsource
    rw [hides_iff.2 ⟨hnull, by simpa using hnone, chain, hchain, hsel, hsome⟩] at hfalse
    cases hfalse

@[simp]
theorem size_splitOff : (splitOff h v sel i).size = h.size + 1 := by
  simp [splitOff]

@[simp]
theorem var?_splitOff {x : String} : (splitOff h v sel i).var? x = h.var? x := by
  simp [splitOff]

@[simp]
theorem summaries_splitOff :
    (splitOff h v sel i).summaries = (h.dropSummaries [i]).summaries := by
  simp [splitOff]

theorem selector?_splitOff {u : Node} {s : String} (hnull : v ≠ Node.null) (hv : v < h.size) :
    (splitOff h v sel i).selector? u s =
      if u = v ∧ s = sel then some h.size else h.selector? u s := by
  rw [splitOff, Heap.selector?_setSelector hnull, Heap.selector?_grow, Heap.selector?_dropSummaries]
  have hlt : v < h.size + 1 := Nat.lt_succ_of_lt hv
  simp [hlt]

/-- What unfolding gives: the heap itself if the selector is concrete, and otherwise the normal forms of
the heaps in which a step to a fresh node, and a step or a summary after it, replace a summary. -/
theorem unfoldAt_cases {heaps : List Heap} (hheaps : A.unfoldAt h v sel = .ok heaps)
    (hg : g ∈ heaps) :
    g = h ∧ (h.selector? v sel).isSome ∨
      ∃ chain ∈ A.chains, ∃ i target, chain.selector = sel ∧ v ≠ Node.null ∧
        h.selector? v sel = none ∧ h.summaries[i]? = some ⟨chain.label, [v, target]⟩ ∧
        (g = ((splitOff h v sel i).setSelector h.size sel target).normalize ∨
          g = ((splitOff h v sel i).addSummary chain.label [h.size, target]).normalize) := by
  rw [unfoldAt] at hheaps
  split at hheaps
  · next hsome =>
    cases hheaps
    exact .inl ⟨mem_singleton.1 hg, hsome⟩
  next hnone =>
  split at hheaps
  · cases hheaps
  next hnull =>
  split at hheaps
  · cases hheaps
  next chain i target hhiding =>
  obtain ⟨hchain, hsel, hi⟩ := hiding?_eq_some hhiding
  cases hheaps
  exact .inr ⟨chain, hchain, i, target, hsel, hnull, by simpa using hnone, hi, by simpa using hg⟩

/-- What the heaps of an analysis satisfy. -/
structure IsShape (A : Abstraction) (h : Heap) : Prop where
  inRange : h.InRange
  det : A.IsDeterministic h
  proper : A.IsProper h

/-- Unfolding the summary at a position undoes two merges: one with a chain that ends, and one with
a chain that goes on. -/
theorem exists_isOpening (hh : A.IsShape h) (hchain : chain ∈ A.chains)
    (hi : h.summaries[i]? = some ⟨chain.label, [v, target]⟩) :
    (∃ m : Merge A ((splitOff h v chain.selector i).setSelector h.size chain.selector target) h,
      m.IsOpening ∧ m.source = v ∧ m.chain = chain ∧ m.out = []) ∧
    ∃ m : Merge A ((splitOff h v chain.selector i).addSummary chain.label [h.size, target]) h,
      m.IsOpening ∧ m.source = v ∧ m.chain = chain ∧ m.out ≠ [] := by
  have hmem := mem_of_getElem? hi
  have hv : v < h.size := hh.inRange.ends _ hmem v (by simp)
  have ht : target < h.size := hh.inRange.ends _ hmem target (by simp)
  have hnull : v ≠ Node.null := fun heq => (hh.proper chain hchain _ hmem rfl).2 (heq ▸ rfl)
  have hsize : h.size ≠ Node.null := Nat.ne_of_gt hh.inRange.pos
  have hperm : h.summaries.Perm
      (⟨chain.label, [v, target]⟩ :: (h.dropSummaries [i]).summaries) := by
    simpa [hi] using h.dropSummaries_perm [i] (by simp)
  constructor
  · refine ⟨.ofStep [] hh.inRange hh.det hchain hv ht hperm (.inl ⟨?_, rfl⟩) ?_
      (fun u s hne => ?_) (fun x => by simp), ⟨by simp, rfl, rfl⟩, rfl, rfl, rfl⟩
    · rw [Heap.selector?_setSelector hsize, if_pos ⟨rfl, by simp, rfl⟩]
    · simp
    · rw [Heap.selector?_setSelector hsize, if_neg fun heq => hne ⟨heq.1, heq.2.2⟩,
        selector?_splitOff hnull hv]
  · refine ⟨.ofStep [⟨chain.label, [h.size, target]⟩] hh.inRange hh.det hchain hv ht hperm
      (.inr ⟨?_, rfl⟩) ?_ (fun u s _ => ?_) (fun x => by simp), ⟨by simp, rfl, rfl⟩, rfl, rfl,
      cons_ne_nil _ _⟩
    · rw [Heap.selector?_addSummary, selector?_splitOff hnull hv,
        if_neg fun heq => Nat.ne_of_gt hv heq.1, Heap.selector?_of_size_le (Nat.le_refl _)]
    · rw [Heap.addSummary, summaries_splitOff]
      exact perm_append_comm
    · rw [Heap.selector?_addSummary, selector?_splitOff hnull hv]

/-- Unfolding at a point leaves an exposed point as it is, and otherwise undoes two merges: one
with a chain that ends, and one with a chain that goes on. -/
theorem unfoldPoint_cases (hh : A.IsShape h) (p : AccessPoint) :
    A.unfoldPoint p h = .ok [h] ∧ A.IsExposed h p ∨
      ∃ v g₁ g₂, h.var? p.base = some v ∧ A.unfoldPoint p h = .ok [g₁.normalize, g₂.normalize] ∧
        (∃ m : Merge A g₁ h, m.IsOpening ∧ m.source = v ∧ m.chain.selector = p.selector ∧
          m.out = []) ∧
        ∃ m : Merge A g₂ h, m.IsOpening ∧ m.source = v ∧ m.chain.selector = p.selector ∧
          m.out ≠ [] := by
  rw [unfoldPoint]
  cases hv : h.var? p.base with
  | none => exact .inl ⟨rfl, fun v hv' => by rw [hv] at hv'; cases hv'⟩
  | some v =>
    by_cases hhides : A.hides h v p.selector
    · right
      obtain ⟨hnull, hnone, -⟩ := hides_iff.1 hhides
      obtain ⟨⟨chain, i, target⟩, hhiding⟩ := Option.ne_none_iff_exists'.1
        (hiding?_ne_none (fun c hc e he hlabel => (hh.proper c hc e he hlabel).1) hhides)
      obtain ⟨hchain, hsel, hi⟩ := hiding?_eq_some hhiding
      obtain ⟨⟨m₁, hm₁, hv₁, hc₁, ho₁⟩, m₂, hm₂, hv₂, hc₂, ho₂⟩ := exists_isOpening hh hchain hi
      refine ⟨v, _, _, rfl, ?_, ⟨m₁, hm₁, hv₁, by rw [hc₁, hsel], ho₁⟩,
        m₂, hm₂, hv₂, by rw [hc₂, hsel], ho₂⟩
      simp only [if_pos hhides]
      rw [unfoldAt, hnone, if_neg (by simp), if_neg hnull, hhiding, ← hsel]
    · left
      simp only [if_neg hhides]
      refine ⟨trivial, isExposed_of_hides_eq_false hh.proper fun v' hv' => ?_⟩
      rw [hv] at hv'
      obtain rfl := Option.some.inj hv'
      exact Bool.eq_false_iff.2 hhides

theorem IsShape.normalize (hh : A.IsShape h) : A.IsShape h.normalize :=
  have hpart := hh.inRange.isRenumbering_normalize.isPart hh.inRange
  ⟨hh.inRange.inRange_normalize, hpart.isDeterministic hh.inRange.inRange_normalize hh.det,
    hpart.isProper hh.proper⟩

theorem IsShape.isConcretization_normalize_iff (hh : A.IsShape h) (hA : A.IsDistinct) :
    A.IsConcretization c h.normalize ↔ A.IsConcretization c h :=
  (hh.inRange.isomorphic_normalize.isConcretization_iff hA hh.inRange hh.det).symm

theorem IsShape.isExposed_normalize (hh : A.IsShape h) (hp : A.IsExposed h p) :
    A.IsExposed h.normalize p :=
  (hh.inRange.isRenumbering_normalize.isPart hh.inRange).isExposed hh.inRange.inRange_normalize hp

end Abstraction

namespace Merge.IsOpening

variable {m : Merge A g h}

theorem isShape (hm : m.IsOpening) (hA : A.IsDistinct) (hh : A.IsShape h) : A.IsShape g where
  inRange := m.inRange_fine hh.inRange (by simp [hm.size]) (by simp [hm.size, hm.node])
  det := m.isDeterministic_fine hA hh.det
  proper := m.isProper_fine hh.proper hm.into

theorem isExposed (hm : m.IsOpening) (hv : h.var? p.base = some m.source)
    (hsel : m.chain.selector = p.selector) : A.IsExposed g p := by
  intro v hv'
  rw [← m.var, hv] at hv'
  obtain rfl := Option.some.inj hv'
  rcases m.isStep_into with ⟨hconcrete, -⟩ | ⟨-, hcons⟩
  · left
    rw [← hsel, hconcrete, Option.isSome_some]
  · rw [hm.into] at hcons
    cases hcons

theorem isConcretization_coarse (hm : m.IsOpening) (hA : A.IsDistinct) (hh : A.IsShape h)
    (hc : A.IsConcretization c g) : A.IsConcretization c h := by
  have hg := hm.isShape hA hh
  obtain ⟨φ, inner, R⟩ :=
    (isConcretization_iff_exists_isRealization hA hg.inRange hg.det).1 hc
  exact (R.merge_last m hA hg.det hg.inRange hm.size hm.node).isConcretization hA hh.inRange hh.det

end Merge.IsOpening

namespace Abstraction

theorem exists_isConcretization_of_openings (hA : A.IsDistinct) (hh : A.IsShape h) {g₁ g₂ : Heap}
    {m₁ : Merge A g₁ h} {m₂ : Merge A g₂ h} (hm₁ : m₁.IsOpening) (hm₂ : m₂.IsOpening)
    (hsource : m₁.source = m₂.source) (hsel : m₁.chain.selector = m₂.chain.selector)
    (hout₁ : m₁.out = []) (hout₂ : m₂.out ≠ []) (hc : A.IsConcretization c h) :
    A.IsConcretization c g₁ ∨ A.IsConcretization c g₂ := by
  obtain ⟨φ, inner, R⟩ :=
    (isConcretization_iff_exists_isRealization hA hh.inRange hh.det).1 hc
  have hsource₁ : m₁.source < h.size :=
    hh.inRange.ends _ (m₁.mem_summaries_coarse_iff.2 (.inl rfl)) _ (by simp)
  obtain ⟨z, zs, hinner⟩ := exists_cons_of_ne_nil (R.chained _ hsource₁ _ _ m₁.chained_coarse)
  have hg₁ := hm₁.isShape hA hh
  have hg₂ := hm₂.isShape hA hh
  by_cases hzs : zs = []
  · exact .inl ((R.split_last _ m₁ hA hh.det hm₁.size hm₁.node hm₁.into hinner
      (iff_of_true hout₁ hzs)).isConcretization hA hg₁.inRange hg₁.det)
  · rw [hsource, hsel] at hinner
    exact .inr ((R.split_last _ m₂ hA hh.det hm₂.size hm₂.node hm₂.into hinner
      (iff_of_false hout₂ hzs)).isConcretization hA hg₂.inRange hg₂.det)

theorem unfoldPoint_exact (hA : A.IsDistinct) (hh : A.IsShape h) (p : AccessPoint) :
    ∃ heaps, A.unfoldPoint p h = .ok heaps ∧
      (∀ g ∈ heaps, A.IsShape g ∧ A.IsExposed g p ∧ ∀ q, A.IsExposed h q → A.IsExposed g q) ∧
      ∀ c, A.IsConcretization c h ↔ ∃ g ∈ heaps, A.IsConcretization c g := by
  rcases unfoldPoint_cases hh p with ⟨heq, hp⟩ | ⟨v, g₁, g₂, hv, heq, hopen₁, hopen₂⟩
  · refine ⟨[h], heq, fun g hg => ?_, fun c => by simp⟩
    obtain rfl := mem_singleton.1 hg
    exact ⟨hh, hp, fun _ => id⟩
  · obtain ⟨m₁, hm₁, rfl, hsel₁, hout₁⟩ := hopen₁
    obtain ⟨m₂, hm₂, hsource, hsel₂, hout₂⟩ := hopen₂
    have hg₁ := hm₁.isShape hA hh
    have hg₂ := hm₂.isShape hA hh
    refine ⟨_, heq, fun g hg => ?_, fun c => ?_⟩
    · rcases mem_cons.1 hg with rfl | hg
      · exact ⟨hg₁.normalize, hg₁.isExposed_normalize (hm₁.isExposed hv hsel₁), fun q hq =>
          hg₁.isExposed_normalize (m₁.isExposed_fine hm₁.into hq)⟩
      · obtain rfl := mem_singleton.1 hg
        exact ⟨hg₂.normalize, hg₂.isExposed_normalize (hm₂.isExposed (hsource ▸ hv) hsel₂),
          fun q hq => hg₂.isExposed_normalize (m₂.isExposed_fine hm₂.into hq)⟩
    · simp only [mem_cons, not_mem_nil, or_false, exists_eq_or_imp, exists_eq_left,
        hg₁.isConcretization_normalize_iff hA, hg₂.isConcretization_normalize_iff hA]
      exact ⟨exists_isConcretization_of_openings hA hh hm₁ hm₂ hsource.symm
        (hsel₁.trans hsel₂.symm) hout₁ hout₂,
        fun hc => hc.elim (hm₁.isConcretization_coarse hA hh) (hm₂.isConcretization_coarse hA hh)⟩

theorem mapM_unfoldPoint (hA : A.IsDistinct) (p : AccessPoint) {heaps : List Heap}
    (hheaps : ∀ g ∈ heaps, A.IsShape g) :
    ∃ unfolded, heaps.mapM (A.unfoldPoint p) = .ok unfolded ∧
      (∀ g' ∈ unfolded.flatten, A.IsShape g' ∧ A.IsExposed g' p ∧
        ∃ g ∈ heaps, ∀ q, A.IsExposed g q → A.IsExposed g' q) ∧
      ∀ c, (∃ g ∈ heaps, A.IsConcretization c g) ↔
        ∃ g' ∈ unfolded.flatten, A.IsConcretization c g' := by
  induction heaps with
  | nil => exact ⟨[], rfl, by simp, by simp⟩
  | cons g heaps ih =>
    obtain ⟨first, hfirst, hshape, hiff⟩ := unfoldPoint_exact hA (hheaps g mem_cons_self) p
    obtain ⟨rest, hrest, hshapes, hiffs⟩ := ih fun g' hg' => hheaps g' (mem_cons_of_mem _ hg')
    refine ⟨first :: rest, ?_, fun g' hg' => ?_, fun c => ?_⟩
    · rw [mapM_cons, hfirst, hrest]
      rfl
    · rw [flatten_cons, mem_append] at hg'
      rcases hg' with hg' | hg'
      · obtain ⟨hg, hp, hq⟩ := hshape g' hg'
        exact ⟨hg, hp, g, mem_cons_self, hq⟩
      · obtain ⟨hg, hp, g₀, hg₀, hq⟩ := hshapes g' hg'
        exact ⟨hg, hp, g₀, mem_cons_of_mem _ hg₀, hq⟩
    · simp only [mem_cons, flatten_cons, mem_append, or_and_right, exists_or,
        exists_eq_left, hiff c, hiffs c]

/-- Unfolding at one point after the other keeps the concretizations of all heaps together, and a
point that was exposed stays exposed. -/
theorem foldlM_unfoldPoint (hA : A.IsDistinct) (points : List AccessPoint) {heaps : List Heap}
    (hheaps : ∀ g ∈ heaps, A.IsShape g) :
    ∃ result, points.foldlM (fun heaps p => return (← heaps.mapM (A.unfoldPoint p)).flatten) heaps =
        .ok result ∧
      (∀ g' ∈ result, A.IsShape g' ∧ (∀ p ∈ points, A.IsExposed g' p) ∧
        ∃ g ∈ heaps, ∀ q, A.IsExposed g q → A.IsExposed g' q) ∧
      ∀ c, (∃ g ∈ heaps, A.IsConcretization c g) ↔ ∃ g' ∈ result, A.IsConcretization c g' := by
  induction points generalizing heaps with
  | nil => exact ⟨heaps, rfl, fun g hg => ⟨hheaps g hg, by simp, g, hg, fun _ => id⟩, fun c => .rfl⟩
  | cons p points ih =>
    obtain ⟨unfolded, hmap, hunfolded, hiff⟩ := mapM_unfoldPoint hA p hheaps
    obtain ⟨result, hresult, hshapes, hiffs⟩ := ih fun g hg => (hunfolded g hg).1
    refine ⟨result, ?_, fun g' hg' => ?_, fun c => (hiff c).trans (hiffs c)⟩
    · rw [foldlM_cons, hmap]
      exact hresult
    · obtain ⟨hshape, hpoints, g, hg, hkept⟩ := hshapes g' hg'
      obtain ⟨-, hp, g₀, hg₀, hkept₀⟩ := hunfolded g hg
      refine ⟨hshape, fun q hq => ?_, g₀, hg₀, fun q hq => hkept q (hkept₀ q hq)⟩
      rcases mem_cons.1 hq with rfl | hq
      · exact hkept q hp
      · exact hpoints q hq

/-- Unfolding succeeds. The heaps that it returns have together exactly the concretizations of the
heap, and every access point is exposed in each of them. -/
theorem unfold_exact (hA : A.IsDistinct) (hh : h.InRange) (hdet : A.IsDeterministic h)
    (hproper : A.IsProper h) (points : List AccessPoint) :
    ∃ heaps, A.unfold points h = .ok heaps ∧
      (∀ c, A.IsConcretization c h ↔ ∃ g ∈ heaps, A.IsConcretization c g) ∧
      ∀ g ∈ heaps, ∀ p ∈ points, A.IsExposed g p := by
  have hshape : ∀ g ∈ [h], A.IsShape g := by simpa using ⟨hh, hdet, hproper⟩
  obtain ⟨heaps, heq, hshapes, hiff⟩ := foldlM_unfoldPoint hA points hshape
  refine ⟨heaps, heq, fun c => ?_, fun g hg => (hshapes g hg).2.1⟩
  simpa using hiff c

/-- A summarised ring whose first node has two names. -/
def sharedRing : Heap :=
  ⟨[∅, ∅], .ofList [("x", 1), ("y", 1)], [⟨"SLL", [1, 1]⟩]⟩

/-- The same selector is unfolded through both names. -/
theorem unfold_exact_sharedRing :
    IsDistinct {} ∧ sharedRing.InRange ∧ IsDeterministic {} sharedRing ∧ IsProper {} sharedRing ∧
      ∃ heaps, unfold {} [⟨"x", "next"⟩, ⟨"y", "next"⟩] sharedRing = .ok heaps ∧
        (∀ c, IsConcretization {} c sharedRing ↔ ∃ g ∈ heaps, IsConcretization {} c g) ∧
        ∀ g ∈ heaps, ∀ p ∈ [⟨"x", "next"⟩, ⟨"y", "next"⟩], IsExposed {} g p := by
  have hA : IsDistinct {} := by decide
  have hh : sharedRing.InRange := by decide +kernel
  have hdet : IsDeterministic {} sharedRing := by decide +kernel
  have hproper : IsProper {} sharedRing := by decide +kernel
  exact ⟨hA, hh, hdet, hproper, unfold_exact hA hh hdet hproper _⟩

end Abstraction

end ShapeCheck
