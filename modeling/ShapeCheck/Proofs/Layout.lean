import ShapeCheck.Proofs.Merge
import Mathlib.Data.Set.Insert

/-!
# Laying out a shape in a heap

A layout shows how a heap `c` without chain summaries is one of those that a heap `h` stands for. It
places the nodes of `h` in `c` one to one, and it lists for every node and selector the *inner*
nodes, those that a summary along the selector hides. The inner nodes have no other selector, no
other place, and belong to one summary only.

A layout need not cover all of `h`: it is over a set of nodes that no step leaves. So the same notion
serves with garbage and without it.
-/

namespace ShapeCheck

open Option

variable {A : Abstraction} {S T : Set Node} {h h' c g : Heap} {φ : Node → Node}
  {inner : Node → String → List Node} {a b u v w z : Node} {zs : List Node} {sel : String}

namespace Heap

/-- A node has no selector but the given one. -/
def IsInner (c : Heap) (sel : String) (z : Node) : Prop :=
  ∀ s, s ≠ sel → c.selector? z s = none

/-- The selector leads from one node over the listed inner nodes to the other node. -/
def Way (c : Heap) (sel : String) : Node → List Node → Node → Prop
  | a, [], b => c.selector? a sel = some b
  | a, z :: zs, b => c.selector? a sel = some z ∧ c.IsInner sel z ∧ c.Way sel z zs b

@[simp]
theorem way_nil : c.Way sel a [] b ↔ c.selector? a sel = some b :=
  Iff.rfl

@[simp]
theorem way_cons :
    c.Way sel a (z :: zs) b ↔ c.selector? a sel = some z ∧ c.IsInner sel z ∧ c.Way sel z zs b :=
  Iff.rfl

theorem way_append {l : List Node} :
    c.Way sel a (l ++ z :: zs) b ↔ c.Way sel a l z ∧ c.IsInner sel z ∧ c.Way sel z zs b := by
  induction l generalizing a with
  | nil => rfl
  | cons y l ih => simp [ih, and_assoc]

theorem Way.lt_size (hway : c.Way sel a zs b) : a < c.size := by
  cases zs with
  | nil => exact lt_size_of_selector? hway
  | cons z zs => exact lt_size_of_selector? hway.1

theorem Way.congr {c' : Heap} (hway : c.Way sel a zs b)
    (ha : c'.selector? a sel = c.selector? a sel)
    (hzs : ∀ z ∈ zs, ∀ s, c'.selector? z s = c.selector? z s) : c'.Way sel a zs b := by
  induction zs generalizing a with
  | nil => rwa [way_nil, ha]
  | cons z zs ih =>
    obtain ⟨hz, hinner, hway⟩ := hway
    have hsame := hzs z List.mem_cons_self
    refine ⟨ha.trans hz, fun s hs => (hsame s).trans (hinner s hs), ih hway (hsame sel) ?_⟩
    exact fun z' hz' => hzs z' (List.mem_cons_of_mem _ hz')

end Heap

/-- The nodes of `S` are placed in `c` by `φ`, with the inner nodes of the summaries given by
`inner`. -/
structure IsLayout (A : Abstraction) (S : Set Node) (h c : Heap) (φ : Node → Node)
    (inner : Node → String → List Node) : Prop where
  null_mem : Node.null ∈ S
  null : φ Node.null = Node.null
  dom : ∀ v ∈ S, v < h.size
  lt : ∀ v ∈ S, φ v < c.size
  inj : ∀ v ∈ S, ∀ w ∈ S, φ v = φ w → v = w
  closed : ∀ v ∈ S, ∀ sel w, A.Arrow h v sel w → w ∈ S
  way : ∀ v ∈ S, ∀ sel w, A.Arrow h v sel w → c.Way sel (φ v) (inner v sel) (φ w)
  direct : ∀ v ∈ S, ∀ sel w, h.selector? v sel = some w → inner v sel = []
  chained : ∀ v ∈ S, ∀ sel w, A.Chained h v sel w → inner v sel ≠ []
  idle : ∀ v ∈ S, ∀ sel, (∀ w, ¬A.Arrow h v sel w) →
    c.selector? (φ v) sel = none ∧ inner v sel = []
  fresh : ∀ v ∈ S, ∀ sel, ∀ z ∈ inner v sel, ∀ w ∈ S, z ≠ φ w
  nodup : ∀ v ∈ S, ∀ sel, (inner v sel).Nodup
  disjoint : ∀ v ∈ S, ∀ w ∈ S, ∀ sel sel', ∀ z ∈ inner v sel, z ∈ inner w sel' →
    v = w ∧ sel = sel'

/-- What a layout says of one selector of a node: the arrows are laid out from the place `a` over the
inner nodes `zs`. -/
structure IsLaid (A : Abstraction) (S : Set Node) (h c : Heap) (φ : Node → Node) (v : Node)
    (sel : String) (a : Node) (zs : List Node) : Prop where
  closed : ∀ w, A.Arrow h v sel w → w ∈ S
  way : ∀ w, A.Arrow h v sel w → c.Way sel a zs (φ w)
  direct : ∀ w, h.selector? v sel = some w → zs = []
  chained : ∀ w, A.Chained h v sel w → zs ≠ []
  idle : (∀ w, ¬A.Arrow h v sel w) → c.selector? a sel = none ∧ zs = []
  nodup : zs.Nodup

namespace IsLaid

theorem ofIdle (hnone : ∀ w, ¬A.Arrow h v sel w) (hc : c.selector? a sel = none) :
    IsLaid A S h c φ v sel a [] where
  closed w hw := absurd hw (hnone w)
  way w hw := absurd hw (hnone w)
  direct _ _ := rfl
  chained w hw := absurd (.inr hw) (hnone w)
  idle _ := ⟨hc, rfl⟩
  nodup := .nil

theorem ofSelector (hnone : ∀ w, ¬A.Chained h v sel w)
    (hmem : ∀ w, h.selector? v sel = some w → w ∈ S)
    (hc : c.selector? a sel = (h.selector? v sel).map φ) : IsLaid A S h c φ v sel a [] where
  closed w hw := hmem w (hw.resolve_right (hnone w))
  way w hw := by rw [Heap.way_nil, hc, hw.resolve_right (hnone w), map_some]
  direct _ _ := rfl
  chained w hw := absurd hw (hnone w)
  idle hidle := by
    rw [hc, eq_none_iff_forall_ne_some.2 fun w hw => hidle w (.inl hw)]
    exact ⟨rfl, rfl⟩
  nodup := .nil

theorem rename {c' : Heap} {φ' : Node → Node} (H : IsLaid A S h c φ v sel a zs) (r : Node → Node)
    (hsel : h'.selector? u sel = (h.selector? v sel).map r)
    (hchained : ∀ w, A.Chained h' u sel w ↔ ∃ t, r t = w ∧ A.Chained h v sel t)
    (htarget : ∀ t, A.Arrow h v sel t → r t ∈ T ∧ φ' (r t) = φ t)
    (hc : c'.selector? a sel = c.selector? a sel)
    (hzs : ∀ z ∈ zs, ∀ s, c'.selector? z s = c.selector? z s) :
    IsLaid A T h' c' φ' u sel a zs := by
  have harrow (w : Node) : A.Arrow h' u sel w ↔ ∃ t, r t = w ∧ A.Arrow h v sel t := by
    rw [Abstraction.Arrow, hchained, hsel, map_eq_some_iff]
    simp only [Abstraction.Arrow, and_or_left, exists_or, and_comm]
  constructor
  case closed =>
    intro w hw
    obtain ⟨t, rfl, ht⟩ := (harrow w).1 hw
    exact (htarget t ht).1
  case way =>
    intro w hw
    obtain ⟨t, rfl, ht⟩ := (harrow w).1 hw
    rw [(htarget t ht).2]
    exact (H.way t ht).congr hc hzs
  case direct =>
    intro w hw
    rw [hsel, map_eq_some_iff] at hw
    obtain ⟨t, ht, -⟩ := hw
    exact H.direct t ht
  case chained =>
    intro w hw
    obtain ⟨t, -, ht⟩ := (hchained w).1 hw
    exact H.chained t ht
  case idle =>
    intro hidle
    rw [hc]
    exact H.idle fun t ht => hidle (r t) ((harrow _).2 ⟨t, rfl, ht⟩)
  case nodup => exact H.nodup

theorem congr {c' : Heap} {φ' : Node → Node} (H : IsLaid A S h c φ v sel a zs)
    (hsel : h'.selector? v sel = h.selector? v sel)
    (hchained : ∀ w, A.Chained h' v sel w ↔ A.Chained h v sel w)
    (htarget : ∀ w, A.Arrow h v sel w → w ∈ T ∧ φ' w = φ w)
    (hc : c'.selector? a sel = c.selector? a sel)
    (hzs : ∀ z ∈ zs, ∀ s, c'.selector? z s = c.selector? z s) :
    IsLaid A T h' c' φ' v sel a zs :=
  H.rename id (by rw [hsel, Option.map_id]; rfl) (fun w => by simp [hchained]) htarget hc hzs

end IsLaid

namespace IsLayout

/-- A place that a node takes: its own, or that of an inner node of a selector. -/
def Takes (φ : Node → Node) (inner : Node → String → List Node) (v : Node) :
    Option String → Node → Prop
  | none, z => z = φ v
  | some sel, z => z ∈ inner v sel

/-- No place is taken twice. -/
def IsApart (S : Set Node) (φ : Node → Node) (inner : Node → String → List Node) : Prop :=
  ∀ v ∈ S, ∀ w ∈ S, ∀ p q z, Takes φ inner v p z → Takes φ inner w q z → v = w ∧ p = q

theorem laid (L : IsLayout A S h c φ inner) (hv : v ∈ S) (sel : String) :
    IsLaid A S h c φ v sel (φ v) (inner v sel) :=
  ⟨L.closed v hv sel, L.way v hv sel, L.direct v hv sel, L.chained v hv sel, L.idle v hv sel,
    L.nodup v hv sel⟩

theorem isApart (L : IsLayout A S h c φ inner) : IsApart S φ inner := by
  intro v hv w hw p q z hp hq
  cases p with
  | none =>
    cases q with
    | none => exact ⟨L.inj v hv w hw (hp.symm.trans hq), rfl⟩
    | some sel => exact absurd hp (L.fresh w hw sel z hq v hv)
  | some sel =>
    cases q with
    | none => exact absurd hq (L.fresh v hv sel z hp w hw)
    | some sel' => exact (L.disjoint v hv w hw sel sel' z hp hq).imp_right (congrArg some)

theorem ofLaid (hmem : Node.null ∈ S) (hnull : φ Node.null = Node.null) (hdom : ∀ v ∈ S, v < h.size)
    (hlt : ∀ v ∈ S, φ v < c.size)
    (hlaid : ∀ v ∈ S, ∀ sel, IsLaid A S h c φ v sel (φ v) (inner v sel))
    (hapart : IsApart S φ inner) : IsLayout A S h c φ inner where
  null_mem := hmem
  null := hnull
  dom := hdom
  lt := hlt
  inj v hv w hw heq := (hapart v hv w hw none none _ rfl heq).1
  closed v hv sel := (hlaid v hv sel).closed
  way v hv sel := (hlaid v hv sel).way
  direct v hv sel := (hlaid v hv sel).direct
  chained v hv sel := (hlaid v hv sel).chained
  idle v hv sel := (hlaid v hv sel).idle
  fresh v hv sel z hz w hw heq := by cases (hapart v hv w hw (some sel) none z hz heq).2
  nodup v hv sel := (hlaid v hv sel).nodup
  disjoint v hv w hw sel sel' z hz hz' :=
    (hapart v hv w hw (some sel) (some sel') z hz hz').imp_right Option.some.inj

/-- Places stay apart if a place that is taken now was taken before, and that tells by what it is
taken now. -/
theorem IsApart.of_forall {φ' : Node → Node} {inner' : Node → String → List Node}
    (H : IsApart S φ inner) (k : Node → Option String → Node → Node × Option String)
    (hk : ∀ v ∈ T, ∀ p z, Takes φ' inner' v p z →
      ∃ u ∈ S, ∃ q, Takes φ inner u q z ∧ k u q z = (v, p)) : IsApart T φ' inner' := by
  intro v hv w hw p q z hp hq
  obtain ⟨v', hv', p', hp', hkv⟩ := hk v hv p z hp
  obtain ⟨w', hw', q', hq', hkw⟩ := hk w hw q z hq
  obtain ⟨rfl, rfl⟩ := H v' hv' w' hw' p' q' z hp' hq'
  exact Prod.mk.inj (hkv.symm.trans hkw)

theorem comp (L : IsLayout A S h c φ inner) {f : Node → Node} (hf : Heap.IsPart f g h)
    (hg : g.InRange) :
    IsLayout A {u | u < g.size ∧ f u ∈ S} g c (φ ∘ f) fun u => inner (f u) := by
  constructor
  case null_mem => exact ⟨hg.pos, by rw [hf.null]; exact L.null_mem⟩
  case null => exact (congrArg φ hf.null).trans L.null
  case dom => exact fun v hv => hv.1
  case lt => exact fun v hv => L.lt _ hv.2
  case inj => exact fun v hv w hw heq => hf.inj v hv.1 w hw.1 (L.inj _ hv.2 _ hw.2 heq)
  case closed =>
    intro v hv sel w hw
    refine ⟨?_, L.closed _ hv.2 sel _ (hf.arrow hv.1 hw)⟩
    rcases hw with hw | ⟨chain, -, -, hw⟩
    · exact hg.selector v sel w hw
    · exact hg.ends _ hw w (by simp)
  case way => exact fun v hv sel w hw => L.way _ hv.2 sel _ (hf.arrow hv.1 hw)
  case direct =>
    intro v hv sel w hw
    refine L.direct _ hv.2 sel (f w) ?_
    rw [hf.selector v hv.1, hw, map_some]
  case chained => exact fun v hv sel w hw => L.chained _ hv.2 sel _ (hf.chained hw)
  case idle =>
    intro v hv sel hidle
    refine L.idle _ hv.2 sel fun w hw => ?_
    obtain ⟨w, -, hw⟩ := hf.exists_arrow hg hv.1 hw
    exact hidle w hw
  case fresh => exact fun v hv sel z hz w hw => L.fresh _ hv.2 sel z hz _ hw.2
  case nodup => exact fun v hv sel => L.nodup _ hv.2 sel
  case disjoint =>
    intro v hv w hw sel sel' z hz hz'
    obtain ⟨heq, hsel⟩ := L.disjoint _ hv.2 _ hw.2 sel sel' z hz hz'
    exact ⟨hf.inj v hv.1 w hw.1 heq, hsel⟩

/-- A layout over a set gives one over each smaller set that no step leaves. -/
theorem restrict (L : IsLayout A S h c φ inner) (hT : T ⊆ S) (hnull : Node.null ∈ T)
    (hclosed : ∀ v ∈ T, ∀ sel w, A.Arrow h v sel w → w ∈ T) : IsLayout A T h c φ inner :=
  .ofLaid hnull L.null (fun v hv => L.dom v (hT hv)) (fun v hv => L.lt v (hT hv))
    (fun v hv sel => (L.laid (hT hv) sel).congr rfl (fun _ => .rfl)
      (fun w hw => ⟨hclosed v hv sel w hw, rfl⟩) rfl fun _ _ _ => rfl)
    fun v hv w hw => L.isApart v (hT hv) w (hT hw)

end IsLayout

/-- The inner nodes after a merge: those of both steps, with the merged node between them. -/
def Merge.join (m : Merge A h h') (φ : Node → Node) (inner : Node → String → List Node)
    (u : Node) (sel : String) : List Node :=
  if u = m.source ∧ sel = m.chain.selector then
    inner u sel ++ φ m.node :: inner m.node sel
  else inner u sel

theorem Merge.mem_join (m : Merge A h h') : z ∈ m.join φ inner u sel ↔
    z ∈ inner u sel ∨
      (u = m.source ∧ sel = m.chain.selector) ∧ (z = φ m.node ∨ z ∈ inner m.node sel) := by
  rw [Merge.join]
  split
  · next hu => simp [hu]
  · next hu => simp [hu]

theorem IsLayout.merge (L : IsLayout A S h c φ inner) (m : Merge A h h') (hA : A.IsDistinct)
    (hdet : A.IsDeterministic h) (hdom : ∀ v < h.size, v ≠ m.node → v < h'.size) :
    IsLayout A (S \ {m.node}) h' c φ (m.join φ inner) := by
  have hdet' := m.isDeterministic_coarse hA hdet
  have htarget : ∀ {w}, A.Arrow h' m.source m.chain.selector w → w = m.target := fun hw =>
    hdet'.arrow_unique hA hw (.inr m.chained_coarse)
  have hnode : m.source ∈ S → m.node ∈ S := fun hs => L.closed _ hs _ _ m.arrow_into
  refine .ofLaid ⟨L.null_mem, fun heq => m.node_ne_null heq.symm⟩ L.null
    (fun v hv => hdom v (L.dom v hv.1) hv.2) (fun v hv => L.lt v hv.1) ?laid ?apart
  case laid =>
    rintro v ⟨hv, hne⟩ sel
    by_cases hvs : v = m.source ∧ sel = m.chain.selector
    · obtain ⟨rfl, rfl⟩ := hvs
      have hn := hnode hv
      rw [Merge.join, if_pos ⟨rfl, rfl⟩]
      constructor
      case closed =>
        exact fun w hw => ⟨htarget hw ▸ L.closed _ hn _ _ m.arrow_out, m.ne_node_of_arrow hw⟩
      case way =>
        intro w hw
        rw [htarget hw, Heap.way_append]
        refine ⟨L.way _ hv _ _ m.arrow_into, fun s hs => ?_, L.way _ hn _ _ m.arrow_out⟩
        exact (L.idle _ hn s fun w hw => hs (m.eq_target_of_arrow hA hdet hw).1).1
      case direct =>
        intro w hw
        rw [m.selector?_source] at hw
        cases hw
      case chained => simp
      case idle => exact fun hidle => absurd (.inr m.chained_coarse) (hidle _)
      case nodup =>
        refine List.nodup_append.2 ⟨L.nodup _ hv _, List.nodup_cons.2 ⟨?_, L.nodup _ hn _⟩, ?_⟩
        · exact fun hz => L.fresh _ hn _ _ hz _ hn rfl
        · rintro z hz _ hz' rfl
          rcases List.mem_cons.1 hz' with rfl | hz'
          · exact L.fresh _ hv _ _ hz _ hn rfl
          · exact m.source_ne (L.disjoint _ hv _ hn _ _ z hz hz').1
    · rw [Merge.join, if_neg hvs]
      refine (L.laid hv sel).congr (m.selector?_eq hne hvs) (fun _ => m.chained_iff hne hvs hA)
        (fun w hw => ⟨⟨L.closed v hv sel w hw, ?_⟩, rfl⟩) rfl fun _ _ _ => rfl
      exact m.ne_node_of_arrow ((m.arrow_iff hne hvs hA).2 hw)
  case apart =>
    -- what the merged node took is now taken by the source
    refine L.isApart.of_forall (fun v p _ =>
      if v = m.node then (m.source, some m.chain.selector) else (v, p)) ?_
    rintro v ⟨hv, hne⟩ (_ | sel) z hz
    · exact ⟨v, hv, none, hz, if_neg hne⟩
    · rcases m.mem_join.1 hz with hz | ⟨⟨rfl, rfl⟩, hz | hz⟩
      · exact ⟨v, hv, some sel, hz, if_neg hne⟩
      · exact ⟨m.node, hnode hv, none, hz, if_pos rfl⟩
      · exact ⟨m.node, hnode hv, some _, hz, if_pos rfl⟩

/-- The inner nodes after a merge is undone, when `zs` follow the merged node. -/
def Merge.separate (m : Merge A h h') (zs : List Node) (inner : Node → String → List Node)
    (u : Node) (sel : String) : List Node :=
  if u = m.node then if sel = m.chain.selector then zs else []
  else if u = m.source ∧ sel = m.chain.selector then [] else inner u sel

theorem Merge.mem_separate (m : Merge A h h') : z ∈ m.separate zs inner u sel ↔
    (u = m.node ∧ sel = m.chain.selector) ∧ z ∈ zs ∨
      (u ≠ m.node ∧ ¬(u = m.source ∧ sel = m.chain.selector)) ∧ z ∈ inner u sel := by
  rw [Merge.separate]
  split_ifs with hu hsel hus <;> simp_all

theorem IsLayout.split (L : IsLayout A S h' c φ inner) (m : Merge A h h') (hA : A.IsDistinct)
    (hdet : A.IsDeterministic h') (hdom : ∀ v < h'.size, v < h.size) (hnode : m.node < h.size)
    (hnew : m.node ∉ S) (hsource : m.source ∈ S) (hinto : m.into = [])
    (hinner : inner m.source m.chain.selector = z :: zs) (hout : m.out = [] ↔ zs = []) :
    IsLayout A (insert m.node S) h c (Function.update φ m.node z) (m.separate zs inner) := by
  have hfine := m.isDeterministic_fine hA hdet
  have hway := L.way _ hsource _ _ (.inr m.chained_coarse)
  rw [hinner, Heap.way_cons] at hway
  obtain ⟨hz, hzinner, hzway⟩ := hway
  have hzmem : z ∈ inner m.source m.chain.selector := by simp [hinner]
  have hzs : ∀ y ∈ zs, y ∈ inner m.source m.chain.selector := fun y hy => by simp [hinner, hy]
  have hznodup : z ∉ zs ∧ zs.Nodup := by
    simpa [hinner] using L.nodup _ hsource m.chain.selector
  have htarget : m.target ∈ S := L.closed _ hsource _ _ (.inr m.chained_coarse)
  have hne : ∀ u ∈ S, u ≠ m.node := fun u hu heq => hnew (heq ▸ hu)
  have hφ : ∀ u ∈ S, Function.update φ m.node z u = φ u := fun u hu =>
    Function.update_of_ne (hne u hu) _ _
  have hφnode : Function.update φ m.node z m.node = z := Function.update_self ..
  refine .ofLaid (.inr L.null_mem) ((hφ _ L.null_mem).trans L.null) ?dom ?lt ?laid ?apart
  case dom =>
    rintro v (rfl | hv)
    · exact hnode
    · exact hdom v (L.dom v hv)
  case lt =>
    rintro v (rfl | hv)
    · rw [hφnode]
      exact hzway.lt_size
    · rw [hφ v hv]
      exact L.lt v hv
  case laid =>
    rintro v (rfl | hv) sel
    · rw [hφnode, Merge.separate, if_pos rfl]
      split
      · next hsel =>
        subst hsel
        have hto {w} (hw : A.Arrow h m.node m.chain.selector w) : w = m.target :=
          (m.eq_target_of_arrow hA hfine hw).2
        constructor
        case closed => exact fun w hw => .inr (hto hw ▸ htarget)
        case way =>
          intro w hw
          rwa [hto hw, hφ _ htarget]
        case direct =>
          intro w hw
          rcases m.isStep_out with ⟨-, hnil⟩ | ⟨hnone, -⟩
          · exact hout.1 hnil
          · rw [hnone] at hw
            cases hw
        case chained =>
          intro w hw hnil
          rcases m.isStep_out with ⟨hsel, -⟩ | ⟨-, hcons⟩
          · rw [hfine.selector?_eq_none hw] at hsel
            cases hsel
          · rw [hout.2 hnil] at hcons
            cases hcons
        case idle => exact fun hidle => absurd m.arrow_out (hidle _)
        case nodup => exact hznodup.2
      · next hsel =>
        exact .ofIdle (fun w hw => hsel (m.eq_target_of_arrow hA hfine hw).1) (hzinner sel hsel)
    · rw [hφ v hv, Merge.separate, if_neg (hne v hv)]
      split
      · next hvs =>
        obtain ⟨rfl, rfl⟩ := hvs
        have hselector : h.selector? m.source m.chain.selector = some m.node := by
          rcases m.isStep_into with ⟨hsel, -⟩ | ⟨-, hcons⟩
          · exact hsel
          · rw [hinto] at hcons
            cases hcons
        refine .ofSelector (fun w hw => ?_) (fun w hw => ?_) ?_
        · rw [hfine.selector?_eq_none hw] at hselector
          cases hselector
        · exact .inl (Option.some.inj (hw.symm.trans hselector))
        · rw [hz, hselector, map_some, hφnode]
      · next hvs =>
        refine (L.laid hv sel).congr (m.selector?_eq (hne v hv) hvs).symm
          (fun w => (m.chained_iff (hne v hv) hvs hA).symm) (fun w hw => ?_) rfl fun _ _ _ => rfl
        exact ⟨.inr (L.closed v hv sel w hw), hφ w (L.closed v hv sel w hw)⟩
  case apart =>
    -- the first place on the way from the source is now taken by the node, and so are the others
    refine L.isApart.of_forall (fun v p y => if v = m.source ∧ p = some m.chain.selector then
      (m.node, if y = z then none else some m.chain.selector) else (v, p)) ?_
    rintro v hv (_ | sel) y hy
    · rcases hv with rfl | hv
      · refine ⟨m.source, hsource, some _, ?_, (if_pos ⟨rfl, rfl⟩).trans ?_⟩
        · exact (hy.trans hφnode) ▸ hzmem
        · rw [if_pos (hy.trans hφnode)]
      · exact ⟨v, hv, none, hy.trans (hφ v hv), if_neg fun h => some_ne_none _ h.2.symm⟩
    · rcases m.mem_separate.1 hy with ⟨⟨rfl, rfl⟩, hy'⟩ | ⟨⟨hvne, hvs⟩, hy'⟩
      · refine ⟨m.source, hsource, some _, hzs y hy', (if_pos ⟨rfl, rfl⟩).trans ?_⟩
        rw [if_neg fun (heq : y = z) => hznodup.1 (heq ▸ hy')]
      · refine ⟨v, hv.resolve_left hvne, some sel, hy', if_neg fun h => hvs ?_⟩
        exact h.imp_right Option.some.inj

end ShapeCheck
