import ShapeCheck.Proofs.Unfolding
import ShapeCheck.Proofs.Execution

/-!
# Shapes that describe a heap

A shape describes a plain heap if the part of the shape that its variables reach has a layout in the
heap, and the variables agree. The rest of the heap is not looked at: it may be garbage, or belong to
callers. Some variables of the shape name nodes without being variables of the heap; these are the
*ghosts*, which mark the nodes that a caller still refers to.
-/

namespace ShapeCheck

open List

variable {A : Abstraction} {γ : String → Option Node} {S : Set Node} {h h' g c c' : Heap}
  {φ : Node → Node} {inner : Node → String → List Node} {a b u v w y z : Node} {zs : List Node}
  {sel s x : String}

namespace Heap.Way

theorem mem_of_selector? (hway : c.Way sel a zs b) (hy : c.selector? a sel = some y) :
    y ∈ zs ∨ y = b := by
  cases zs with
  | nil => exact .inr (Option.some.inj (hy.symm.trans hway))
  | cons z zs => exact .inl (Option.some.inj (hy.symm.trans hway.1) ▸ mem_cons_self)

theorem mem_of_mem (hway : c.Way sel a zs b) (hz : z ∈ zs) (hy : c.selector? z s = some y) :
    y ∈ zs ∨ y = b := by
  obtain ⟨l, r, rfl⟩ := append_of_mem hz
  obtain ⟨-, hinner, hrest⟩ := way_append.1 hway
  by_cases hs : s = sel
  · subst hs
    rcases hrest.mem_of_selector? hy with hr | rfl
    · exact .inl (by simp [hr])
    · exact .inr rfl
  · rw [hinner s hs] at hy
    cases hy

theorem selector?_ne_none (hway : c.Way sel a zs b) : c.selector? a sel ≠ none := by
  cases zs with
  | nil => exact fun hnone => by cases hnone.symm.trans hway
  | cons z zs => exact fun hnone => by cases hnone.symm.trans hway.1

theorem forall_mem {P : Node → Prop} (hway : c.Way sel a zs b) (ha : P a)
    (hstep : ∀ v sel w, P v → c.selector? v sel = some w → P w) : (∀ z ∈ zs, P z) ∧ P b := by
  induction zs generalizing a with
  | nil => exact ⟨by simp, hstep _ _ _ ha hway⟩
  | cons z zs ih =>
    obtain ⟨hz, -, hway⟩ := hway
    have hPz := hstep _ _ _ ha hz
    obtain ⟨hall, hb⟩ := ih hway hPz
    exact ⟨forall_mem_cons.2 ⟨hPz, hall⟩, hb⟩

end Heap.Way

/-- A layout is kept if both heaps change alike: at each node and selector, nothing changes in either
heap, or a concrete step takes the place of whatever was there. -/
theorem IsLayout.replace (L : IsLayout A S h c φ inner) (hsize : h.size ≤ h'.size)
    (hsize' : c.size ≤ c'.size)
    (hinner : ∀ v ∈ S, ∀ sel, ∀ z ∈ inner v sel, ∀ s, c'.selector? z s = c.selector? z s)
    (hpair : ∀ v ∈ S, ∀ sel,
      h'.selector? v sel = h.selector? v sel ∧ (∀ w, A.Chained h' v sel w ↔ A.Chained h v sel w) ∧
          c'.selector? (φ v) sel = c.selector? (φ v) sel ∨
        (∀ w, h'.selector? v sel = some w → w ∈ S) ∧ (∀ w, ¬A.Chained h' v sel w) ∧
          c'.selector? (φ v) sel = (h'.selector? v sel).map φ ∧ inner v sel = []) :
    IsLayout A S h' c' φ inner := by
  refine .ofLaid L.null_mem L.null (fun v hv => (L.dom v hv).trans_le hsize)
    (fun v hv => (L.lt v hv).trans_le hsize') (fun v hv sel => ?_) L.isApart
  rcases hpair v hv sel with ⟨hsel, hchained, hc⟩ | ⟨hmem, hnone, hc, hnil⟩
  · exact (L.laid hv sel).congr hsel hchained (fun w hw => ⟨L.closed v hv sel w hw, rfl⟩) hc
      (hinner v hv sel)
  · rw [hnil]
    exact .ofSelector hnone hmem hc

theorem IsLayout.selector?_eq (L : IsLayout A S h c φ inner) (hv : v ∈ S)
    (hnone : ∀ w, ¬A.Chained h v sel w) :
    c.selector? (φ v) sel = (h.selector? v sel).map φ ∧ inner v sel = [] := by
  cases hw : h.selector? v sel with
  | none =>
    refine L.idle v hv sel fun w hw' => hw'.elim (fun hw' => ?_) (hnone w)
    rw [hw] at hw'
    cases hw'
  | some w =>
    have hnil := L.direct v hv sel w hw
    have hway := L.way v hv sel w (.inl hw)
    rw [hnil, Heap.way_nil] at hway
    exact ⟨hway, hnil⟩

theorem IsLayout.exists_arrow (L : IsLayout A S h c φ inner) (hv : v ∈ S) (sel : String)
    (hsome : c.selector? (φ v) sel ≠ none ∨ inner v sel ≠ []) : ∃ w, A.Arrow h v sel w := by
  by_contra hidle
  push Not at hidle
  obtain ⟨hnone, hnil⟩ := L.idle v hv sel hidle
  exact hsome.elim (· hnone) (· hnil)

theorem IsLayout.not_arrow_null (L : IsLayout A S h c φ inner) (hc : c.IsPlain) :
    ¬A.Arrow h Node.null sel w := by
  intro hw
  have hway := L.way _ L.null_mem _ _ hw
  rw [L.null] at hway
  exact hway.selector?_ne_none hc.selector?_null

/-- A layout of a part of a shape that has all its variables. Each of them is a variable of the heap
or a ghost, which `γ` gives the node of. -/
structure IsPlacement (A : Abstraction) (γ : String → Option Node) (S : Set Node) (h c : Heap)
    (φ : Node → Node) (inner : Node → String → List Node) : Prop
    extends IsLayout A S h c φ inner where
  named : ∀ x v, h.var? x = some v → v ∈ S
  var : ∀ x, (c.var? x).or (γ x) = (h.var? x).map φ

namespace IsPlacement

theorem comp (L : IsPlacement A γ S h c φ inner) {f : Node → Node} (hf : Heap.IsPart f g h)
    (hg : g.InRange) :
    IsPlacement A γ {u | u < g.size ∧ f u ∈ S} g c (φ ∘ f) fun u => inner (f u) where
  toIsLayout := L.toIsLayout.comp hf hg
  named x u hu := by
    refine ⟨hg.var x u hu, L.named x (f u) ?_⟩
    rw [hf.var, hu, Option.map_some]
  var x := by rw [L.var, hf.var, Option.map_map]

theorem merge (L : IsPlacement A γ S h c φ inner) (m : Merge A h h') (hA : A.IsDistinct)
    (hdet : A.IsDeterministic h) (hdom : ∀ v < h.size, v ≠ m.node → v < h'.size) :
    IsPlacement A γ (S \ {m.node}) h' c φ (m.join φ inner) where
  toIsLayout := L.toIsLayout.merge m hA hdet hdom
  named x v hv := by
    rw [m.var] at hv
    exact ⟨L.named x v hv, fun heq => m.var_ne x (hv.trans (congrArg some heq))⟩
  var x := by rw [L.var, m.var]

theorem split (L : IsPlacement A γ S h' c φ inner) {m : Merge A h h'} (hm : m.IsOpening)
    (hA : A.IsDistinct) (hdet : A.IsDeterministic h') (hsource : m.source ∈ S)
    (hinner : inner m.source m.chain.selector = z :: zs) (hout : m.out = [] ↔ zs = []) :
    IsPlacement A γ (insert m.node S) h c (Function.update φ m.node z) (m.separate zs inner) := by
  have hnew : m.node ∉ S := fun hmem => Nat.lt_irrefl _ (hm.node ▸ L.dom _ hmem)
  have hdom : ∀ v < h'.size, v < h.size := fun v hv => hm.size ▸ Nat.lt_succ_of_lt hv
  have hnode : m.node < h.size := by rw [hm.node, hm.size]; exact Nat.lt_succ_self _
  refine ⟨L.toIsLayout.split m hA hdet hdom hnode hnew hsource hm.into hinner hout,
    fun x v hv => .inr (L.named x v (m.var x ▸ hv)), fun x => ?_⟩
  rw [L.var, m.var]
  refine Option.map_congr fun v hv => ?_
  rw [Function.update_of_ne fun heq => m.var_ne x (by rw [← heq]; exact hv)]

end IsPlacement

/-- A shape whose summaries all stand for chains describes a heap if it has a placement there. -/
structure Describes (A : Abstraction) (γ : String → Option Node) (h c : Heap) : Prop where
  inRange : h.InRange
  det : A.IsDeterministic h
  links : ∀ e ∈ h.summaries, A.isLink e
  placed : ∃ S φ inner, IsPlacement A γ S h c φ inner

namespace Describes

variable (hd : Describes A γ h c)
include hd

theorem ofPart {f : Node → Node} (hf : Heap.IsPart f g h) (hg : g.InRange) : Describes A γ g c where
  inRange := hg
  det := hf.isDeterministic hg hd.det
  links e he := Abstraction.isLink_map ▸ hd.links _ (hf.map_mem_summaries he)
  placed := by
    obtain ⟨S, φ, inner, L⟩ := hd.placed
    exact ⟨_, _, _, L.comp hf hg⟩

theorem normalize : Describes A γ h.normalize c :=
  hd.ofPart (hd.inRange.isRenumbering_normalize.isPart hd.inRange) hd.inRange.inRange_normalize

theorem collect : Describes A γ h.collect c := by
  obtain ⟨f, hf, -⟩ := hd.inRange.isPart_collect
  exact hd.ofPart hf hd.inRange.inRange_collect

theorem shapeAt (hA : A.IsDistinct) (depth : Nat) : Describes A γ (A.shapeAt depth h) c := by
  obtain ⟨S, φ, inner, L⟩ := hd.placed
  -- each fold takes its node out of the placement
  let P (g : Heap) (folded : List Node) : Prop :=
    (∀ e ∈ g.summaries, A.isLink e) ∧ ∃ inner, IsPlacement A γ (S \ {v | v ∈ folded}) g c φ inner
  have hstart : P h [] := by
    have hset : S \ {v | v ∈ ([] : List Node)} = S := by
      ext v
      simp
    exact ⟨hd.links, inner, hset.symm ▸ L⟩
  have hstep : ∀ g g' folded (m : Merge A g g'), A.IsFolding h.size g folded → g'.size = g.size →
      P g folded → P g' (m.node :: folded) := by
    rintro g g' folded m hfolding hsize ⟨hlinks, inner, L⟩
    refine ⟨fun e he => ?_, m.join φ inner, ?_⟩
    · rcases m.mem_summaries_coarse_iff.1 he with rfl | he
      · exact Abstraction.isLink_iff.2 ⟨m.chain, m.mem, _, _, rfl⟩
      · exact hlinks e (m.mem_summaries_iff.2 (.inr (.inr he)))
    · have hset : S \ {v | v ∈ m.node :: folded} = (S \ {v | v ∈ folded}) \ {m.node} := by
        ext v
        simp only [Set.mem_sdiff, Set.mem_ofPred_eq, mem_cons, not_or, Set.mem_singleton_iff]
        tauto
      rw [hset]
      exact L.merge m hA hfolding.det fun v hv _ => hsize.symm ▸ hv
  obtain ⟨hfolding, hlinks, inner, L⟩ := Abstraction.foldAll_induction depth h.size
    (P := P) hA hstep (.start hd.inRange hd.det) hstart
  have hfolded : Describes A γ (A.foldAll depth h.size h []).1 c :=
    ⟨hfolding.inRange, hfolding.det, hlinks, _, _, _, L⟩
  obtain ⟨f, hf, -⟩ := hfolding.isPart_dropNodes
  exact (hfolded.ofPart hf (hfolding.inRange.inRange_dropNodes _)).normalize

theorem ofView (hA : A.IsDistinct) (hg : g ∈ A.views h) : Describes A γ g c := by
  simp only [Abstraction.views, mem_cons, not_mem_nil, or_false] at hg
  rcases hg with rfl | rfl | rfl | rfl
  · exact hd
  · exact hd.normalize
  · exact hd.shapeAt hA _
  · exact hd.shapeAt hA _

theorem isShape (hc : c.IsPlain) : A.IsShape h := by
  obtain ⟨S, φ, inner, L⟩ := hd.placed
  refine ⟨hd.inRange, hd.det, fun chain hchain e he hlabel => ?_⟩
  obtain ⟨chain', hchain', a, b, rfl⟩ := Abstraction.isLink_iff.1 (hd.links e he)
  refine ⟨rfl, fun hnull => ?_⟩
  obtain rfl : a = Node.null := by simpa [Summary.source?] using hnull
  exact L.not_arrow_null hc (.inr ⟨chain', hchain', rfl, he⟩)

theorem exists_unfoldPoint (hc : c.IsPlain) (hA : A.IsDistinct) (p : AccessPoint) :
    ∃ heaps, A.unfoldPoint p h = .ok heaps ∧
      ∃ g ∈ heaps, Describes A γ g c ∧ A.IsExposed g p := by
  have hh := hd.isShape hc
  rcases Abstraction.unfoldPoint_cases hh p with ⟨heq, hp⟩ | ⟨v, g₁, g₂, hv, heq, hopen₁, hopen₂⟩
  · exact ⟨[h], heq, h, mem_singleton_self h, hd, hp⟩
  obtain ⟨S, φ, inner, L⟩ := hd.placed
  have hvS := L.named _ _ hv
  have hopened {g : Heap} {m : Merge A g h} {z} (zs) (hm : m.IsOpening) (hsource : m.source = v)
      (hsel : m.chain.selector = p.selector) (hinner : inner m.source m.chain.selector = z :: zs)
      (hout : m.out = [] ↔ zs = []) :
      Describes A γ g.normalize c ∧ A.IsExposed g.normalize p := by
    have hg := hm.isShape hA hh
    refine ⟨normalize ⟨hg.inRange, hg.det, fun e he => ?_, _, _, _,
      L.split hm hA hd.det (hsource ▸ hvS) hinner hout⟩, hg.isExposed_normalize ?_⟩
    · rcases m.mem_summaries_iff.1 he with he | he | he
      · rw [hm.into] at he
        cases he
      · exact Abstraction.isLink_iff.2 ⟨m.chain, m.mem, _, _, (m.isStep_out.eq_of_mem he).1⟩
      · exact hd.links e (m.mem_summaries_coarse_iff.2 (.inr he))
    · exact hm.isExposed (hsource ▸ hv) hsel
  obtain ⟨m₁, hm₁, hsource₁, hsel₁, hout₁⟩ := hopen₁
  obtain ⟨m₂, hm₂, hsource₂, hsel₂, hout₂⟩ := hopen₂
  refine ⟨_, heq, ?_⟩
  obtain ⟨z, zs, hinner⟩ := exists_cons_of_ne_nil
    (L.chained _ hvS _ _ (hsource₁ ▸ m₁.chained_coarse))
  -- the number of inner nodes tells which rule gives the variant
  by_cases hzs : zs = []
  · refine ⟨_, mem_cons_self, hopened zs hm₁ hsource₁ hsel₁ (hsource₁ ▸ hinner) ?_⟩
    exact iff_of_true hout₁ hzs
  · refine ⟨_, mem_cons_of_mem _ (mem_singleton_self _),
      hopened zs hm₂ hsource₂ hsel₂ (z := z) ?_ (iff_of_false hout₂ hzs)⟩
    rw [hsource₂, hsel₂, ← hsel₁, hinner]

end Describes

section Live

variable {d : Heap} {k κ : Node → Node} {T : Set Node}

/-- A layout in a heap that stays in a closed part of it gives a layout in the part; `κ` undoes the
placement of the part. -/
theorem IsLayout.pullback (L : IsLayout A S h c φ inner) (hk : Heap.IsPart k d c) (hd : d.InRange)
    (hκ : ∀ z ∈ T, κ z < d.size ∧ k (κ z) = z) (hφ : ∀ v ∈ S, φ v ∈ T)
    (hinner : ∀ v ∈ S, ∀ sel, ∀ z ∈ inner v sel, z ∈ T) :
    IsLayout A S h d (κ ∘ φ) fun v sel => (inner v sel).map κ := by
  have hinj {y z} (hy : y ∈ T) (hz : z ∈ T) (heq : κ y = κ z) : y = z := by
    rw [← (hκ y hy).2, ← (hκ z hz).2, heq]
  have hselector {a b sel} (ha : a ∈ T) (hb : b ∈ T) (hab : c.selector? a sel = some b) :
      d.selector? (κ a) sel = some (κ b) := by
    rw [← (hκ a ha).2, hk.selector _ (hκ a ha).1, Option.map_eq_some_iff] at hab
    obtain ⟨y, hy, hyb⟩ := hab
    rw [hy, hk.inj y (hd.selector _ _ _ hy) _ (hκ b hb).1 (hyb.trans (hκ b hb).2.symm)]
  have hnone {a sel} (ha : a ∈ T) (hab : c.selector? a sel = none) : d.selector? (κ a) sel = none := by
    rwa [← (hκ a ha).2, hk.selector _ (hκ a ha).1, Option.map_eq_none_iff] at hab
  have hway {sel a zs b} (ha : a ∈ T) (hzs : ∀ z ∈ zs, z ∈ T) (hb : b ∈ T)
      (hway : c.Way sel a zs b) : d.Way sel (κ a) (zs.map κ) (κ b) := by
    induction zs generalizing a with
    | nil => exact hselector ha hb hway
    | cons z zs ih =>
      obtain ⟨hz, hrest⟩ := forall_mem_cons.1 hzs
      exact ⟨hselector ha hz hway.1, fun s hs => hnone hz (hway.2.1 s hs), ih hz hrest hway.2.2⟩
  constructor
  case null_mem => exact L.null_mem
  case null =>
    have hmem := hφ _ L.null_mem
    obtain ⟨hlt, heq⟩ := hκ _ hmem
    exact hk.inj _ hlt _ hd.pos (by rw [heq, L.null]; exact hk.null.symm)
  case dom => exact L.dom
  case lt => exact fun v hv => (hκ _ (hφ v hv)).1
  case inj => exact fun v hv w hw heq => L.inj v hv w hw (hinj (hφ v hv) (hφ w hw) heq)
  case closed => exact L.closed
  case way =>
    intro v hv sel w hw
    exact hway (hφ v hv) (hinner v hv sel) (hφ w (L.closed v hv sel w hw)) (L.way v hv sel w hw)
  case direct => exact fun v hv sel w hw => by rw [L.direct v hv sel w hw, map_nil]
  case chained =>
    exact fun v hv sel w hw => fun hnil => L.chained v hv sel w hw (map_eq_nil_iff.1 hnil)
  case idle =>
    intro v hv sel hidle
    obtain ⟨hnone', hnil⟩ := L.idle v hv sel hidle
    exact ⟨hnone (hφ v hv) hnone', by rw [hnil, map_nil]⟩
  case fresh =>
    intro v hv sel z hmem w hw heq
    obtain ⟨z, hz, rfl⟩ := mem_map.1 hmem
    exact L.fresh v hv sel z hz w hw (hinj (hinner v hv sel z hz) (hφ w hw) heq)
  case nodup =>
    intro v hv sel
    exact (L.nodup v hv sel).map_on fun y hy z hz heq =>
      hinj (hinner v hv sel y hy) (hinner v hv sel z hz) heq
  case disjoint =>
    intro v hv w hw sel sel' z hmem hmem'
    obtain ⟨z, hz, rfl⟩ := mem_map.1 hmem
    obtain ⟨z', hz', heq⟩ := mem_map.1 hmem'
    obtain rfl := hinj (hinner w hw sel' z' hz') (hinner v hv sel z hz) heq
    exact L.disjoint v hv w hw sel sel' z' hz hz'

theorem Abstraction.exists_arrow_of_leads (hlinks : ∀ e ∈ h.summaries, A.isLink e)
    (hvw : h.Leads v w) : ∃ sel, A.Arrow h v sel w := by
  rcases Heap.mem_successors_iff.1 hvw with ⟨sel, hsel⟩ | ⟨e, he, hsource, htarget⟩
  · exact ⟨sel, .inl hsel⟩
  · obtain ⟨chain, hchain, a, b, rfl⟩ := isLink_iff.1 (hlinks e he)
    obtain rfl : a = v := by simpa [Summary.source?] using hsource
    obtain rfl : w = b := by simpa [Summary.targets] using htarget
    exact ⟨chain.selector, .inr ⟨chain, hchain, rfl, he⟩⟩

theorem Abstraction.Arrow.leads (hw : A.Arrow h v sel w) : h.Leads v w := by
  rcases hw with hw | ⟨chain, -, -, hw⟩
  · exact Heap.mem_successors_iff.2 (.inl ⟨sel, hw⟩)
  · exact Heap.mem_successors_iff.2 (.inr ⟨_, hw, rfl, by simp [Summary.targets]⟩)

theorem Heap.IsPlain.exists_selector?_of_leads (hc : c.IsPlain) (hvw : c.Leads v w) :
    ∃ sel, c.selector? v sel = some w := by
  rcases mem_successors_iff.1 hvw with hsel | ⟨e, he, -⟩
  · exact hsel
  · rw [hc.summaries] at he
    cases he

namespace IsPlacement

theorem mem_of_isLive (L : IsPlacement A γ S h c φ inner) (hlinks : ∀ e ∈ h.summaries, A.isLink e)
    (hv : h.IsLive v) : v ∈ S := by
  refine hv.induction (P := (· ∈ S)) L.null_mem L.named fun v w hv hvw => ?_
  obtain ⟨sel, hsel⟩ := Abstraction.exists_arrow_of_leads hlinks hvw
  exact L.closed v hv sel w hsel

theorem isLive (L : IsPlacement A (fun _ => none) S h c φ inner)
    (hlinks : ∀ e ∈ h.summaries, A.isLink e) (hv : h.IsLive v) : c.IsLive (φ v) := by
  have hboth : v ∈ S ∧ c.IsLive (φ v) := by
    refine hv.induction (P := fun v => v ∈ S ∧ c.IsLive (φ v))
      ⟨L.null_mem, by rw [L.null]; exact .null⟩
      (fun x v hx => ⟨L.named x v hx, .var (x := x) ?_⟩) fun v w ⟨hv, hlive⟩ hvw => ?_
    · have hvar := L.var x
      rwa [Option.or_none, hx, Option.map_some] at hvar
    · obtain ⟨sel, hsel⟩ := Abstraction.exists_arrow_of_leads hlinks hvw
      refine ⟨L.closed v hv sel w hsel, ((L.way v hv sel w hsel).forall_mem hlive ?_).2⟩
      exact fun a s b ha hab => ha.tail (Heap.mem_successors_iff.2 (.inl ⟨s, hab⟩))
  exact hboth.2

theorem isLive_inner (L : IsPlacement A (fun _ => none) S h c φ inner)
    (hlinks : ∀ e ∈ h.summaries, A.isLink e) (hv : h.IsLive v) (hz : z ∈ inner v sel) :
    c.IsLive z := by
  have hvS := L.mem_of_isLive hlinks hv
  obtain ⟨w, hw⟩ := L.toIsLayout.exists_arrow hvS _ (.inr (ne_nil_of_mem hz))
  refine ((L.way v hvS sel w hw).forall_mem (L.isLive hlinks hv) ?_).1 z hz
  exact fun a s b ha hab => ha.tail (Heap.mem_successors_iff.2 (.inl ⟨s, hab⟩))

theorem cover_of_isLive (L : IsPlacement A (fun _ => none) S h c φ inner) (hc : c.IsPlain)
    (hz : c.IsLive z) : (∃ v ∈ S, φ v = z) ∨ ∃ v ∈ S, ∃ sel, z ∈ inner v sel := by
  refine hz.induction (P := fun z => (∃ v ∈ S, φ v = z) ∨ ∃ v ∈ S, ∃ sel, z ∈ inner v sel)
    (.inl ⟨_, L.null_mem, L.null⟩) (fun x z hx => ?_) fun y z hy hyz => ?_
  · have hvar := L.var x
    rw [hx, Option.some_or, eq_comm, Option.map_eq_some_iff] at hvar
    obtain ⟨v, hv, hφ⟩ := hvar
    exact .inl ⟨v, L.named x v hv, hφ⟩
  obtain ⟨s, hs⟩ := hc.exists_selector?_of_leads hyz
  have hplace {v sel w} (hv : v ∈ S) (hw : A.Arrow h v sel w) (hz : z ∈ inner v sel ∨ z = φ w) :
      (∃ v ∈ S, φ v = z) ∨ ∃ v ∈ S, ∃ sel, z ∈ inner v sel := by
    rcases hz with hz | rfl
    · exact .inr ⟨v, hv, sel, hz⟩
    · exact .inl ⟨w, L.closed v hv sel w hw, rfl⟩
  rcases hy with ⟨v, hv, rfl⟩ | ⟨v, hv, sel, hy⟩
  · obtain ⟨w, hw⟩ := L.toIsLayout.exists_arrow hv s (.inl (by rw [hs]; simp))
    exact hplace hv hw ((L.way v hv s w hw).mem_of_selector? hs)
  · obtain ⟨w, hw⟩ := L.toIsLayout.exists_arrow hv _ (.inr (ne_nil_of_mem hy))
    exact hplace hv hw ((L.way v hv sel w hw).mem_of_mem hy hs)

end IsPlacement

/-- Without ghosts, the live part of a described heap is a concretization of the live part of the
shape. -/
theorem Describes.isConcretization (hd : Describes A (fun _ => none) h c) (hc : c.IsPlain)
    (hA : A.IsDistinct) : A.IsConcretization c.collect h.collect := by
  obtain ⟨S, φ, inner, L⟩ := hd.placed
  obtain ⟨f, hf, hlive⟩ := hd.inRange.isPart_collect
  obtain ⟨k, hk, hclive⟩ := hc.inRange.isPart_collect
  have hg := hd.inRange.inRange_collect
  have hrange := hc.inRange.inRange_collect
  have hall : {u | u < h.collect.size ∧ f u ∈ S} = h.collect.nodeSet := by
    refine Set.ext fun u => ⟨And.left, fun hu => ⟨hu, ?_⟩⟩
    exact L.mem_of_isLive hd.links ((hlive _).2 ⟨u, hu, rfl⟩)
  have hundo : ∀ z, ∃ y, c.IsLive z → y < c.collect.size ∧ k y = z := by
    intro z
    by_cases hz : c.IsLive z
    · obtain ⟨y, hy⟩ := (hclive z).1 hz
      exact ⟨y, fun _ => hy⟩
    · exact ⟨0, fun hz' => absurd hz' hz⟩
  choose κ hκ using hundo
  have L' := L.comp hf hg
  rw [hall] at L'
  have hfu {u} (hu : u ∈ h.collect.nodeSet) : h.IsLive (f u) := (hlive _).2 ⟨u, hu, rfl⟩
  have hlayout := L'.toIsLayout.pullback (κ := κ) (T := {z | c.IsLive z}) hk hrange hκ
    (fun u hu => L.isLive hd.links (hfu hu))
    (fun u hu sel z hz => L.isLive_inner hd.links (hfu hu) hz)
  have hback {y} (hy : y < c.collect.size) : κ (k y) = y := by
    obtain ⟨hlt, heq⟩ := hκ (k y) ((hclive _).2 ⟨y, hy, rfl⟩)
    exact hk.inj _ hlt _ hy heq
  suffices R : IsRealization A h.collect.nodeSet h.collect c.collect (κ ∘ φ ∘ f)
      fun u sel => (inner (f u) sel).map κ from
    R.isConcretization hA hg (hf.isDeterministic hg hd.det)
  refine ⟨hlayout, L'.named, ?_, hg.ends, ?_, ?_⟩
  · intro x
    have hvar := L'.var x
    rw [Option.or_none, hk.var] at hvar
    cases hx : h.collect.var? x with
    | none =>
      rw [hx] at hvar
      exact Option.map_eq_none_iff.1 hvar
    | some u =>
      rw [hx, Option.map_some, Option.map_eq_some_iff] at hvar
      obtain ⟨y, hy, heq⟩ := hvar
      rw [hy, Option.map_some, ← hback (hrange.var x y hy), heq]
      rfl
  · have hnone : c.collect.summaries = [] := by
      have hperm := hk.summaries
      rw [hc.summaries, filter_nil] at hperm
      exact map_eq_nil_iff.1 hperm.eq_nil
    have hlinks : (h.collect.summaries.filter fun e => !A.isLink e) = [] := by
      refine filter_eq_nil_iff.2 fun e he => ?_
      have hlink := hd.links _ (hf.map_mem_summaries he)
      rw [Abstraction.isLink_map] at hlink
      simp [hlink]
    rw [hnone, hlinks]
    exact .nil
  · intro y hy
    rcases L'.cover_of_isLive hc ((hclive _).2 ⟨y, hy, rfl⟩) with ⟨u, hu, heq⟩ | ⟨u, hu, sel, hz⟩
    · exact .inl ⟨u, hu, by rw [← hback hy, ← heq]; rfl⟩
    · exact .inr ⟨u, hu, sel, hback hy ▸ mem_map_of_mem hz⟩

end Live

end ShapeCheck
