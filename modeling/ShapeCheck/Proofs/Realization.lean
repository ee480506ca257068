import ShapeCheck.Proofs.Layout

/-!
# Concretizations by layout

A realization is a layout that covers the whole concrete heap, with the variables and the summaries
that no rule produces in place. Every concretization has a realization, found by undoing the rules
one after the other; and every realization is a concretization, since a summary of the heap can be
unfolded to the length that the layout asks for, and each unfolding places one more node.
-/

namespace ShapeCheck

open List

variable {A : Abstraction} {S : Set Node} {h h' c g : Heap} {φ : Node → Node}
  {inner : Node → String → List Node} {u v w z : Node} {zs : List Node} {sel : String}

/-- The nodes of a heap as a set. -/
def Heap.nodeSet (h : Heap) : Set Node :=
  {v | v < h.size}

theorem Heap.mem_nodeSet : v ∈ h.nodeSet ↔ v < h.size :=
  Iff.rfl

/-- A layout that covers all nodes of the concrete heap, with all variables and with the summaries
that stand for no chain. -/
structure IsRealization (A : Abstraction) (S : Set Node) (h c : Heap) (φ : Node → Node)
    (inner : Node → String → List Node) : Prop extends IsLayout A S h c φ inner where
  named : ∀ x v, h.var? x = some v → v ∈ S
  var : ∀ x, c.var? x = (h.var? x).map φ
  ends : ∀ e ∈ h.summaries, ∀ v ∈ e.ends, v ∈ S
  summaries : c.summaries.Perm ((h.summaries.filter fun e => !A.isLink e).map (Summary.map φ))
  cover : ∀ z < c.size, (∃ v ∈ S, φ v = z) ∨ ∃ v ∈ S, ∃ sel, z ∈ inner v sel

theorem Heap.IsStep.filter_isLink {chain : Chain} {l : List Summary}
    (hstep : h.IsStep chain u w l) (hchain : chain ∈ A.chains) :
    (l.filter fun e => !A.isLink e) = [] := by
  refine filter_eq_nil_iff.2 fun e he => ?_
  have hlink : A.isLink e :=
    Abstraction.isLink_iff.2 ⟨chain, hchain, u, w, (hstep.eq_of_mem he).1⟩
  simp [hlink]

theorem Merge.filter_isLink_perm (m : Merge A h h') :
    (h.summaries.filter fun e => !A.isLink e).Perm (h'.summaries.filter fun e => !A.isLink e) := by
  have hnew : A.isLink ⟨m.chain.label, [m.source, m.target]⟩ :=
    Abstraction.isLink_iff.2 ⟨m.chain, m.mem, _, _, rfl⟩
  refine (m.summaries.filter _).trans (.trans (.of_eq ?_) (m.summaries_coarse.filter _).symm)
  rw [filter_append, filter_append, m.isStep_into.filter_isLink m.mem,
    m.isStep_out.filter_isLink m.mem]
  simp [hnew]

namespace IsRealization

theorem merge (R : IsRealization A S h c φ inner) (m : Merge A h h') (hA : A.IsDistinct)
    (hdet : A.IsDeterministic h) (hdom : ∀ v < h.size, v ≠ m.node → v < h'.size)
    (hsource : m.source ∈ S) :
    IsRealization A (S \ {m.node}) h' c φ (m.join φ inner) where
  toIsLayout := R.toIsLayout.merge m hA hdet hdom
  named x v hv := by
    rw [m.var] at hv
    exact ⟨R.named x v hv, fun heq => m.var_ne x (hv.trans (congrArg some heq))⟩
  var x := by rw [R.var, m.var]
  ends e he v hv := by
    have htarget : m.target ∈ S :=
      R.closed _ (R.closed _ hsource _ _ m.arrow_into) _ _ m.arrow_out
    rcases m.mem_summaries_coarse_iff.1 he with rfl | he
    · rcases mem_cons.1 hv with rfl | hv
      · exact ⟨hsource, m.source_ne⟩
      · rw [mem_singleton.1 hv]
        exact ⟨htarget, m.target_ne⟩
    · refine ⟨R.ends e (m.mem_summaries_iff.2 (.inr (.inr he))) v hv, ?_⟩
      rintro rfl
      exact m.not_mem_ends e he hv
  summaries := R.summaries.trans (m.filter_isLink_perm.map _)
  cover z hz := by
    rcases R.cover z hz with ⟨v, hv, rfl⟩ | ⟨v, hv, sel, hz⟩
    · by_cases hne : v = m.node
      · subst hne
        exact .inr ⟨_, ⟨hsource, m.source_ne⟩, _, m.mem_join.2 (.inr ⟨⟨rfl, rfl⟩, .inl rfl⟩)⟩
      · exact .inl ⟨v, ⟨hv, hne⟩, rfl⟩
    · by_cases hne : v = m.node
      · subst hne
        have hsel : sel = m.chain.selector := by
          by_contra hsel
          rw [(R.idle _ hv sel fun w hw => hsel (m.eq_target_of_arrow hA hdet hw).1).2] at hz
          cases hz
        subst hsel
        exact .inr ⟨_, ⟨hsource, m.source_ne⟩, _, m.mem_join.2 (.inr ⟨⟨rfl, rfl⟩, .inr hz⟩)⟩
      · exact .inr ⟨v, ⟨hv, hne⟩, sel, m.mem_join.2 (.inl hz)⟩

theorem split (R : IsRealization A S h' c φ inner) (m : Merge A h h') (hA : A.IsDistinct)
    (hdet : A.IsDeterministic h') (hdom : ∀ v < h'.size, v < h.size) (hnode : m.node < h.size)
    (hnew : m.node ∉ S) (hinto : m.into = [])
    (hinner : inner m.source m.chain.selector = z :: zs) (hout : m.out = [] ↔ zs = []) :
    IsRealization A (insert m.node S) h c (Function.update φ m.node z) (m.separate zs inner) := by
  have hmem : (⟨m.chain.label, [m.source, m.target]⟩ : Summary) ∈ h'.summaries :=
    m.mem_summaries_coarse_iff.2 (.inl rfl)
  have hsource : m.source ∈ S := R.ends _ hmem _ (by simp)
  have hne : ∀ u ∈ S, u ≠ m.node := fun u hu heq => hnew (heq ▸ hu)
  have hφ : ∀ u ∈ S, Function.update φ m.node z u = φ u := fun u hu =>
    Function.update_of_ne (hne u hu) _ _
  constructor
  case toIsLayout => exact R.toIsLayout.split m hA hdet hdom hnode hnew hsource hinto hinner hout
  case named => exact fun x v hv => .inr (R.named x v ((m.var x).trans hv))
  case var =>
    intro x
    rw [R.var, m.var]
    cases hx : h.var? x with
    | none => rfl
    | some v => rw [Option.map_some, Option.map_some, hφ v (R.named x v ((m.var x).trans hx))]
  case ends =>
    intro e he v hv
    rcases m.mem_summaries_iff.1 he with he | he | he
    · rw [hinto] at he
      cases he
    · rw [(m.isStep_out.eq_of_mem he).1] at hv
      rcases mem_cons.1 hv with rfl | hv
      · exact .inl rfl
      · rw [mem_singleton.1 hv]
        exact .inr (R.ends _ hmem _ (by simp))
    · exact .inr (R.ends e (m.mem_summaries_coarse_iff.2 (.inr he)) v hv)
  case summaries =>
    refine R.summaries.trans (.trans (.of_eq ?_) (m.filter_isLink_perm.symm.map _))
    refine map_congr_left fun e he => Summary.map_congr fun v hv => (hφ v ?_).symm
    exact R.ends e (mem_of_mem_filter he) v hv
  case cover =>
    intro y hy
    rcases R.cover y hy with ⟨v, hv, rfl⟩ | ⟨v, hv, sel, hy⟩
    · exact .inl ⟨v, .inr hv, hφ v hv⟩
    · by_cases hvs : v = m.source ∧ sel = m.chain.selector
      · obtain ⟨rfl, rfl⟩ := hvs
        rw [hinner] at hy
        rcases mem_cons.1 hy with rfl | hy
        · exact .inl ⟨m.node, .inl rfl, Function.update_self ..⟩
        · exact .inr ⟨m.node, .inl rfl, _, m.mem_separate.2 (.inl ⟨⟨rfl, rfl⟩, hy⟩)⟩
      · exact .inr ⟨v, .inr hv, sel, m.mem_separate.2 (.inr ⟨⟨hne v hv, hvs⟩, hy⟩)⟩

/-- A realization of a heap gives one of each closed part that holds all that is realized. -/
theorem comp (R : IsRealization A S h c φ inner) {f : Node → Node} (hf : Heap.IsPart f g h)
    (hg : g.InRange) (hS : ∀ v ∈ S, ∃ u < g.size, f u = v) :
    IsRealization A {u | u < g.size ∧ f u ∈ S} g c (φ ∘ f) fun u => inner (f u) := by
  have hsummaries : (g.summaries.map (Summary.map f)).Perm h.summaries := by
    refine hf.summaries.trans (.of_eq (filter_eq_self.2 fun e he => ?_))
    refine all_eq_true.2 fun v hv => ?_
    obtain ⟨u, hu, rfl⟩ := hS v (R.ends e he v hv)
    exact decide_eq_true (mem_map_of_mem (Heap.mem_nodes.2 hu))
  constructor
  case toIsLayout => exact R.toIsLayout.comp hf hg
  case named =>
    intro x v hv
    refine ⟨hg.var x v hv, R.named x (f v) ?_⟩
    rw [hf.var, hv, Option.map_some]
  case var =>
    intro x
    rw [R.var, hf.var, Option.map_map]
  case ends =>
    intro e he v hv
    refine ⟨hg.ends e he v hv, R.ends (e.map f) ?_ (f v) (mem_map_of_mem hv)⟩
    exact hf.map_mem_summaries he
  case summaries =>
    refine R.summaries.trans (((hsummaries.symm.filter _).map _).trans (.of_eq ?_))
    rw [filter_map, List.map_map]
    simp only [Function.comp_def, Abstraction.isLink_map, Summary.map_map]
  case cover =>
    intro z hz
    rcases R.cover z hz with ⟨v, hv, rfl⟩ | ⟨v, hv, sel, hz⟩
    · obtain ⟨u, hu, rfl⟩ := hS v hv
      exact .inl ⟨u, ⟨hu, hv⟩, rfl⟩
    · obtain ⟨u, hu, rfl⟩ := hS v hv
      exact .inr ⟨u, ⟨hu, hv⟩, sel, hz⟩

end IsRealization

theorem Heap.IsRenumbering.isRealization {f : Node → Node} (hf : h.IsRenumbering f c)
    (hh : h.InRange) (hlinks : ∀ e ∈ h.summaries, ¬A.isLink e) :
    IsRealization A h.nodeSet h c f fun _ _ => [] := by
  have hchained : ∀ {v sel w}, ¬A.Chained h v sel w := by
    rintro v sel w ⟨chain, hchain, -, hw⟩
    exact hlinks _ hw (Abstraction.isLink_iff.2 ⟨chain, hchain, v, w, rfl⟩)
  have harrow : ∀ {v sel w}, A.Arrow h v sel w → h.selector? v sel = some w := fun hw =>
    hw.resolve_right hchained
  constructor
  case toIsLayout =>
    constructor
    case null_mem => exact hh.pos
    case null => exact hf.null
    case dom => exact fun v hv => hv
    case lt => exact hf.lt
    case inj => exact hf.inj
    case closed => exact fun v hv sel w hw => hh.selector v sel w (harrow hw)
    case way =>
      intro v hv sel w hw
      rw [Heap.way_nil, hf.selector v hv, harrow hw, Option.map_some]
    case direct => exact fun _ _ _ _ _ => rfl
    case chained => exact fun v hv sel w hw => absurd hw hchained
    case idle =>
      intro v hv sel hidle
      refine ⟨?_, rfl⟩
      rw [hf.selector v hv, Option.map_eq_none_iff, Option.eq_none_iff_forall_ne_some]
      exact fun w hw => hidle w (.inl hw)
    case fresh => simp
    case nodup => simp
    case disjoint => simp
  case named => exact hh.var
  case var => exact hf.var
  case ends => exact hh.ends
  case summaries =>
    rw [filter_eq_self.2 (by simpa using hlinks)]
    exact hf.summaries.symm
  case cover => exact fun z hz => .inl (hf.surj hz)

namespace IsRealization

theorem size_le (R : IsRealization A h.nodeSet h c φ inner) : h.size ≤ c.size := by
  have hnodup : (h.nodes.map φ).Nodup :=
    List.Nodup.map_on (fun v hv w hw => R.inj v (Heap.mem_nodes.1 hv) w (Heap.mem_nodes.1 hw))
      nodup_range
  have hsub : h.nodes.map φ ⊆ c.nodes := by
    intro z hz
    obtain ⟨v, hv, rfl⟩ := mem_map.1 hz
    exact Heap.mem_nodes.2 (R.lt v (Heap.mem_nodes.1 hv))
  simpa [Heap.nodes] using (subperm_of_subset hnodup hsub).length_le

theorem isRenumbering (R : IsRealization A h.nodeSet h c φ inner)
    (hlinks : ∀ e ∈ h.summaries, ¬A.isLink e) : h.IsRenumbering φ c := by
  have hchained : ∀ {v sel w}, ¬A.Chained h v sel w := by
    rintro v sel w ⟨chain, hchain, -, hw⟩
    exact hlinks _ hw (Abstraction.isLink_iff.2 ⟨chain, hchain, v, w, rfl⟩)
  have hinner : ∀ v ∈ h.nodeSet, ∀ sel, inner v sel = [] := by
    intro v hv sel
    cases hsel : h.selector? v sel with
    | none => exact (R.idle v hv sel fun w hw => by simp_all [Abstraction.Arrow]).2
    | some w => exact R.direct v hv sel w hsel
  have hsize : c.size ≤ h.size := by
    have hsub : c.nodes ⊆ h.nodes.map φ := by
      intro z hz
      rcases R.cover z (Heap.mem_nodes.1 hz) with ⟨v, hv, rfl⟩ | ⟨v, hv, sel, hz⟩
      · exact mem_map_of_mem (Heap.mem_nodes.2 hv)
      · rw [hinner v hv] at hz
        cases hz
    simpa [Heap.nodes] using (subperm_of_subset nodup_range hsub).length_le
  constructor
  case size => exact Nat.le_antisymm R.size_le hsize
  case null => exact R.null
  case lt => exact R.lt
  case inj => exact R.inj
  case selector =>
    intro v hv sel
    cases hsel : h.selector? v sel with
    | none => exact (R.idle v hv sel fun w hw => by simp_all [Abstraction.Arrow]).1
    | some w =>
      have hway := R.way v hv sel w (.inl hsel)
      rwa [hinner v hv] at hway
  case var => exact R.var
  case summaries =>
    have hperm := R.summaries
    rw [filter_eq_self.2 (by simpa using hlinks)] at hperm
    exact hperm.symm

theorem split_last (R : IsRealization A h'.nodeSet h' c φ inner) (zs : List Node) (m : Merge A h h')
    (hA : A.IsDistinct) (hdet : A.IsDeterministic h') (hsize : h.size = h'.size + 1)
    (hnode : m.node = h'.size) (hinto : m.into = [])
    (hinner : inner m.source m.chain.selector = z :: zs) (hout : m.out = [] ↔ zs = []) :
    IsRealization A h.nodeSet h c (Function.update φ m.node z) (m.separate zs inner) := by
  have hS : h.nodeSet = insert m.node h'.nodeSet := by
    ext v
    rw [Set.mem_insert_iff, Heap.mem_nodeSet, Heap.mem_nodeSet, hsize, hnode,
      Nat.lt_succ_iff_lt_or_eq, or_comm]
  rw [hS]
  refine R.split m hA hdet (fun v hv => ?_) ?_ ?_ hinto hinner hout
  · exact hsize ▸ Nat.lt_succ_of_lt hv
  · exact hsize ▸ hnode ▸ Nat.lt_succ_self _
  · exact hnode ▸ Nat.lt_irrefl _

theorem merge_last (R : IsRealization A h.nodeSet h c φ inner) (m : Merge A h h')
    (hA : A.IsDistinct) (hdet : A.IsDeterministic h) (hh : h.InRange)
    (hsize : h.size = h'.size + 1) (hnode : m.node = h'.size) :
    IsRealization A h'.nodeSet h' c φ (m.join φ inner) := by
  have hS : h.nodeSet \ {m.node} = h'.nodeSet := by
    ext v
    rw [Set.mem_sdiff, Set.mem_singleton_iff, Heap.mem_nodeSet, Heap.mem_nodeSet, hsize, hnode]
    exact ⟨fun hv => Nat.lt_of_le_of_ne (Nat.le_of_lt_succ hv.1) hv.2,
      fun hv => ⟨Nat.lt_succ_of_lt hv, Nat.ne_of_lt hv⟩⟩
  exact hS ▸ R.merge m hA hdet (fun v hv hne => hS.subset ⟨hv, hne⟩) (m.source_lt hh)

theorem exists_unfolds (R : IsRealization A h.nodeSet h c φ inner) (hA : A.IsDistinct)
    (hh : h.InRange) (hdet : A.IsDeterministic h) {e : Summary} (he : e ∈ h.summaries)
    (hlink : A.isLink e) :
    ∃ h', A.Unfolds h h' ∧ ∃ φ inner, IsRealization A h'.nodeSet h' c φ inner := by
  obtain ⟨chain, hchain, x, y, rfl⟩ := Abstraction.isLink_iff.1 hlink
  obtain ⟨l, r, hsummaries⟩ := append_of_mem he
  have hx : x < h.size := hh.ends _ he x (by simp)
  have hy : y < h.size := hh.ends _ he y (by simp)
  have hne := R.chained x hx chain.selector y ⟨chain, hchain, rfl, he⟩
  obtain ⟨z, zs, hinner⟩ := exists_cons_of_ne_nil hne
  by_cases hzs : zs = []
  · refine ⟨_, .short hchain hsummaries, _, _, R.split_last zs (z := z)
      (.short hh hdet hchain hx hy hsummaries) hA hdet (by simp) rfl rfl hinner ?_⟩
    exact iff_of_true rfl hzs
  · refine ⟨_, .long hchain hsummaries, _, _, R.split_last zs (z := z)
      (.long hh hdet hchain hx hy hsummaries) hA hdet (by simp) rfl rfl hinner ?_⟩
    exact iff_of_false (cons_ne_nil _ _) hzs

/-- Unfolding the summaries to the lengths of a realization gives the concrete heap. Each rule places
one more node, so the number of nodes still to be placed decreases. -/
theorem isConcretization (R : IsRealization A h.nodeSet h c φ inner) (hA : A.IsDistinct)
    (hh : h.InRange) (hdet : A.IsDeterministic h) : A.IsConcretization c h := by
  induction hn : c.size - h.size using Nat.strongRecOn generalizing h φ inner with
  | ind n ih =>
    by_cases hlinks : ∀ e ∈ h.summaries, ¬A.isLink e
    · exact ⟨h, .refl, hlinks, φ, R.isRenumbering hlinks⟩
    · push Not at hlinks
      obtain ⟨e, he, hlink⟩ := hlinks
      obtain ⟨h', hstep, φ', inner', R'⟩ := R.exists_unfolds hA hh hdet he hlink
      have hsize := hstep.size_eq
      have hle := R'.size_le
      obtain ⟨d, hsteps, hd, hiso⟩ := ih (c.size - h'.size) (by omega) R' (hstep.inRange hh hdet)
        (hstep.isDeterministic hA hh hdet) rfl
      exact ⟨d, .head hstep hsteps, hd, hiso⟩

end IsRealization

/-- A heap is a concretization of a shape if and only if it has a realization of the shape. -/
theorem isConcretization_iff_exists_isRealization (hA : A.IsDistinct) (hh : h.InRange)
    (hdet : A.IsDeterministic h) :
    A.IsConcretization c h ↔ ∃ φ inner, IsRealization A h.nodeSet h c φ inner := by
  refine ⟨?_, fun ⟨φ, inner, R⟩ => R.isConcretization hA hh hdet⟩
  rintro ⟨d, hsteps, hlinks, f, hf⟩
  induction hsteps using Relation.ReflTransGen.head_induction_on with
  | refl => exact ⟨f, _, hf.isRealization hh hlinks⟩
  | @head g g' hstep _ ih =>
    obtain ⟨m, hnode⟩ := hstep.exists_merge hh hdet
    have hh' := hstep.inRange hh hdet
    have hdet' := hstep.isDeterministic hA hh hdet
    obtain ⟨φ, inner, R⟩ := ih hh' hdet'
    exact ⟨φ, _, R.merge_last m hA hdet' hh' hstep.size_eq hnode⟩

theorem Heap.IsRenumbering.isConcretization {f : Node → Node} (hf : g.IsRenumbering f h)
    (hA : A.IsDistinct) (hg : g.InRange) (hdet : A.IsDeterministic h)
    (hc : A.IsConcretization c h) : A.IsConcretization c g := by
  have hh := hf.inRange hg
  have hpart := hf.isPart hh
  obtain ⟨φ, inner, R⟩ := (isConcretization_iff_exists_isRealization hA hh hdet).1 hc
  have R' := R.comp hpart hg fun v hv => hf.surj hv
  have hS : {u | u < g.size ∧ f u ∈ h.nodeSet} = g.nodeSet :=
    Set.ext fun u => ⟨And.left, fun hu => ⟨hu, hf.lt u hu⟩⟩
  exact (hS ▸ R').isConcretization hA hg (hpart.isDeterministic hg hdet)

theorem Heap.Isomorphic.isConcretization_iff (hiso : g.Isomorphic h) (hA : A.IsDistinct)
    (hg : g.InRange) (hdet : A.IsDeterministic g) :
    A.IsConcretization c g ↔ A.IsConcretization c h := by
  have hh := hiso.inRange hg
  obtain ⟨f, hf⟩ := hiso
  obtain ⟨k, hk⟩ := Heap.Isomorphic.symm hg ⟨f, hf⟩
  exact ⟨hk.isConcretization hA hh hdet,
    hf.isConcretization hA hg ((hk.isPart hg).isDeterministic hh hdet)⟩

end ShapeCheck
