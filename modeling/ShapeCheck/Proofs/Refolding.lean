import ShapeCheck.Proofs.Tracing
import ShapeCheck.Proofs.Confluence

/-!
# Unfolding and folding again

In a most general shape nothing can be folded. Where a summary of it is unfolded, a fresh node
appears in the middle of a chain, and folding this node gives back the shape. Since the order of
folds does not matter, folding the unfolded heap in whatever order leads to the same shape:
unfolding loses nothing that the most general shape says.
-/

namespace ShapeCheck

variable {A : Abstraction} {g h : Heap} {chain : Chain} {u v w s t target : Node} {sel : String}
  {depth : Nat}

namespace Heap

theorem null_mem_canonicalOrder (h : Heap) : Node.null ∈ h.canonicalOrder := by
  rw [canonicalOrder, mem_visitAll]
  cases hsize : h.size with
  | zero => exact .inl (mem_visitAll.2 (.inr List.mem_cons_self))
  | succ n => exact .inr (mem_nodes.2 (hsize ▸ n.succ_pos))

theorem inRange_normalize (h : Heap) : h.normalize.InRange :=
  inRange_relabel (List.ne_nil_of_mem h.null_mem_canonicalOrder)

theorem InRange.isCore_grow (hh : h.InRange) : IsCore id h h.grow where
  null := rfl
  lt v hv := by
    rw [size_grow]
    exact Nat.lt_succ_of_lt hv
  inj _ _ _ _ := id
  closed v hv w hw := by
    have hw : h.Leads v w := by
      rw [Leads, mem_successors_iff]
      simpa [mem_successors_iff] using hw
    exact ⟨w, hh.lt_of_mem_successors hw, rfl⟩
  selector v hv sel := by
    rw [Option.map_id_fun]
    exact selector?_grow
  var x := by
    rw [Option.map_id_fun]
    exact var?_grow
  summaries := by
    rw [Summary.map_id, List.map_id, List.map_id]
    exact .of_eq (hh.filter_summaries (.refl _)).symm
  owner v sel w hw := ⟨v, lt_size_of_selector? (selector?_grow.symm.trans hw), rfl⟩
  ends e he v hv := ⟨v, hh.ends e he v hv, rfl⟩

theorem IsContraction.grow (hc : IsContraction chain s v t g h) :
    IsContraction chain s v t g h.grow where
  isInside := hc.isInside
  var x := var?_grow.trans (hc.var x)
  connections := connections_grow.trans hc.connections

end Heap

namespace Abstraction

theorem not_isFoldable_of_findFold?_eq_none (hh : h.InRange)
    (hnone : A.findFold? h depth [] = none) : ¬A.IsFoldable depth h v := by
  intro hv
  obtain ⟨chain, hchain, s, t, hin⟩ := hv.isInside
  obtain ⟨f, hf, -⟩ := hin.exists_foldAt?
  exact Option.some_ne_none f (hf.symm.trans (findFold?_eq_none_iff.1 hnone chain hchain v
    (hv.lt_size hh) hv.ne_null List.not_mem_nil hv.not_near))

theorem IsFoldable.of_grow (hv : A.IsFoldable 0 h.grow v) : A.IsFoldable 0 h v := by
  obtain ⟨chain, hchain, s, t, hin⟩ := hv.isInside
  refine ⟨hv.ne_null, fun hnear => hv.not_near ?_, chain, hchain, s, t,
    hin.of_around_perm (Heap.connections_grow.symm.filter _)⟩
  obtain ⟨x, hx⟩ := mem_near_zero_iff.1 hnear
  exact mem_near_zero_iff.2 ⟨x, hx⟩

section Refold

variable (hh : h.InRange) (hsize : g.size = h.size + 1)
  (hc : Heap.IsContraction chain s h.size t g h)

include hh hsize hc

theorem folds_grow (hchain : chain ∈ A.chains) : A.Folds 0 g h.size h.grow where
  ne_null := Nat.ne_of_gt hh.pos
  not_near hnear := by
    obtain ⟨x, hx⟩ := mem_near_zero_iff.1 hnear
    rw [← hc.var] at hx
    exact Nat.lt_irrefl _ (hh.var x _ hx)
  size := by rw [Heap.size_grow, hsize]
  isContraction := ⟨chain, hchain, s, t, hc.grow⟩

theorem isTrim_of_isContraction (htrim : h.IsTrim) : g.IsTrim := by
  have hroot : h.size ∉ g.roots := by
    rw [← hc.mem_roots_iff]
    exact fun hmem => Nat.lt_irrefl _ (hh.lt_of_isLive ⟨_, hmem, .refl⟩)
  have hlive {u} (hu : u < h.size) : g.IsLive u :=
    (hc.isLive_iff hroot (Nat.ne_of_lt hu)).1 (htrim u hu)
  intro u hu
  rw [hsize] at hu
  rcases Nat.lt_succ_iff_lt_or_eq.1 hu with hlt | rfl
  · exact hlive hlt
  · have hs : s < h.size := by
      have hmem := hc.mem_connections_iff.2 (.inl rfl)
      exact hh.lt_of_mem_connections hmem (by simp [Connection.ends])
    exact (hlive hs).tail hc.source_leads

/-- A heap that folds to a most general shape in one step has this most general shape, in whatever
order it is folded. -/
theorem coarsest_normalize_of_isContraction (hA : A.IsDistinct) (hg : g.InRange)
    (hchain : chain ∈ A.chains) (hshape : A.coarsest h = h) (htrim : h.IsTrim)
    (hlabels : h.IsLabelled) : A.coarsest g.normalize = h := by
  have hnone : A.findFold? h 0 [] = none := hshape ▸ hh.findFold?_shapeAt A 0
  have hnormal : h.normalize = h := (shapeAt_of_findFold?_eq_none hnone).symm.trans hshape
  have hreached : g.IsReached := fun k hk u hu =>
    isTrim_of_isContraction hh hsize hc htrim u (hg.lt_of_mem_connections hk hu)
  have hfolds : A.FoldsTo 0 g [h.size] h.grow := .cons .nil (folds_grow hh hsize hc hchain)
  have hleft (v : Node) : (∃ u < h.size, id u = v) ↔ v < g.size ∧ v ∉ [h.size] := by
    rw [hsize, List.mem_singleton, Nat.lt_succ_iff, ← ne_eq, ← Nat.lt_iff_le_and_ne]
    exact exists_eq_right
  obtain ⟨a, hiso, heq⟩ := hfolds.exists_shapeAt_eq hA hg.isRenumbering_normalize
    hg.inRange_normalize hreached
    (fun v hv => not_isFoldable_of_findFold?_eq_none hh hnone hv.of_grow) hh.isCore_grow hh hleft
  rw [coarsest, heq, ← hiso.normalize_eq hh hlabels htrim, hnormal]

end Refold

/-- The heap `g` is `h` with the summary from `v` to `target` opened. In `g` the node `f u` stands
for the node `u`, and `f h.size` is a fresh node: a selector leads from `v` to it, and the
connection `out` from it to `target`. All else is as in `h`. -/
structure IsOpened (chain : Chain) (v target : Node) (out : Connection) (h g : Heap)
    (f : Node → Node) : Prop where
  size : g.size = h.size + 1
  null : f Node.null = Node.null
  lt : ∀ u < h.size + 1, f u < g.size
  inj : ∀ u < h.size + 1, ∀ w < h.size + 1, f u = f w → u = w
  var : ∀ x, g.var? x = (h.var? x).map f
  selector : g.selector? (f v) chain.selector = some (f h.size)
  connections : ∃ rest, h.connections.Perm (.summary ⟨chain.label, [v, target]⟩ :: rest) ∧
    g.connections.Perm
      ((.selector v chain.selector h.size :: out :: rest).map (Connection.map f))

theorem exists_isOpened {out : Connection} {i : Nat} (hh : h.InRange) (hnull : v ≠ Node.null)
    (hnone : h.selector? v chain.selector = none)
    (hi : h.summaries[i]? = some ⟨chain.label, [v, target]⟩) (hg : g.InRange)
    (hsize : g.size = h.size + 1) (hvar : ∀ x, g.var? x = h.var? x)
    (hperm : g.connections.Perm (out :: (splitOff h v chain.selector i).connections)) :
    ∃ f, IsOpened chain v target out h g.normalize f := by
  obtain ⟨f, hf⟩ := hg.isomorphic_normalize
  have hall := (hf.connections_perm hg).symm.trans (((hperm.trans
    ((connections_splitOff hh hnull hnone hi).cons out)).trans (.swap ..)).map (Connection.map f))
  refine ⟨f, hf.size.symm.trans hsize, hf.null, fun u hu => hf.lt u (hsize ▸ hu),
    fun u hu w hw => hf.inj u (hsize ▸ hu) w (hsize ▸ hw), fun x => ?_, ?_,
    _, Heap.connections_dropSummaries hi, hall⟩
  · rw [hf.var, hvar]
  · exact Heap.selector_mem_connections.1 (hall.mem_iff.2 List.mem_cons_self)

/-- Unfolding a hidden selector of a most general shape gives two heaps: in one of them the chain
ends after two steps, and in the other one a shorter summary is left. In both the selector is
concrete, and both have the shape that was unfolded. -/
theorem coarsest_of_unfoldAt (hA : A.IsDistinct) (hshape : A.coarsest h = h)
    (hlive : ∀ v < h.size, h.IsLive v) (hlabels : h.IsLabelled)
    (hpaired : ∀ chain ∈ A.chains, ∀ e ∈ h.summaries, e.label = chain.label → e.ends.length = 2)
    (hhides : A.hides h v sel) :
    ∃ chain ∈ A.chains, chain.selector = sel ∧ ∃ target g₁ f₁ g₂ f₂,
      A.unfoldAt h v sel = .ok [g₁, g₂] ∧
      IsOpened chain v target (.selector h.size sel target) h g₁ f₁ ∧ A.coarsest g₁ = h ∧
      IsOpened chain v target (.summary ⟨chain.label, [h.size, target]⟩) h g₂ f₂ ∧
        A.coarsest g₂ = h := by
  have hh : h.InRange := hshape ▸ Heap.inRange_normalize _
  obtain ⟨hnull, hnone, -⟩ := hides_iff.1 hhides
  obtain ⟨⟨chain, i, target⟩, hhiding⟩ :=
    Option.ne_none_iff_exists'.1 (hiding?_ne_none hpaired hhides)
  obtain ⟨hchain, rfl, hi⟩ := hiding?_eq_some hhiding
  have hends := hh.ends _ (List.mem_of_getElem? hi)
  have hv : v < h.size := hends v (by simp)
  have ht : target < h.size := hends target (by simp)
  have hfresh : (splitOff h v chain.selector i).selector? h.size chain.selector = none := by
    rw [selector?_splitOff hnull hv, if_neg fun heq => Nat.ne_of_gt hv heq.1,
      Heap.selector?_of_size_le (Nat.le_refl _)]
  have hopen {g : Heap} {out : Connection} (hout : chain.IsStep h.size target out) (hg : g.InRange)
      (hsize : g.size = h.size + 1) (hvar : ∀ x, g.var? x = h.var? x)
      (hperm : g.connections.Perm (out :: (splitOff h v chain.selector i).connections)) :
      (∃ f, IsOpened chain v target out h g.normalize f) ∧ A.coarsest g.normalize = h :=
    ⟨exists_isOpened hh hnull hnone hi hg hsize hvar hperm,
      coarsest_normalize_of_isContraction hh hsize
        (isContraction_of_splitOff hh hnull hnone hi hout hvar hperm) hA hg hchain hshape hlive
        hlabels⟩
  obtain ⟨⟨f₁, hf₁⟩, hfold₁⟩ := hopen (.inl rfl) (hh.splitOff_setSelector ht) (by simp) (by simp)
    (Heap.connections_setSelector (Nat.ne_of_gt hh.pos) (by simp) hfresh)
  obtain ⟨⟨f₂, hf₂⟩, hfold₂⟩ := hopen (.inr rfl) (hh.splitOff_addSummary ht chain.label) (by simp)
    (by simp) (Heap.connections_addSummary ..)
  refine ⟨chain, hchain, rfl, target, _, f₁, _, f₂, ?_, hf₁, hfold₁, hf₂, hfold₂⟩
  rw [unfoldAt, hnone, if_neg (by simp), if_neg hnull, hhiding]

/-- Lists along two selectors. -/
def twoWay : Abstraction :=
  { chains := [Chain.list, ⟨"left", "Spine"⟩] }

/-- Two summaries start at the node of `x`: a ring, and a chain that leads to the node of `y`. From
there a list leads to a node that refers to the ring. -/
def ringAndSpine : Heap :=
  ⟨[∅, ∅, ∅, .ofList [("right", 1)]], .ofList [("x", 1), ("y", 2)],
    [⟨"SLL", [1, 1]⟩, ⟨"SLL", [2, 3]⟩, ⟨"Spine", [1, 2]⟩]⟩

theorem coarsest_of_unfoldAt_ringAndSpine : twoWay.IsDistinct ∧
    twoWay.coarsest ringAndSpine = ringAndSpine ∧ (∀ v < 4, ringAndSpine.IsLive v) ∧
    ringAndSpine.IsLabelled ∧ twoWay.hides ringAndSpine 1 "next" ∧
    ∃ chain ∈ twoWay.chains, chain.selector = "next" ∧ ∃ target g₁ f₁ g₂ f₂,
      twoWay.unfoldAt ringAndSpine 1 "next" = .ok [g₁, g₂] ∧
      IsOpened chain 1 target (.selector 4 "next" target) ringAndSpine g₁ f₁ ∧
      twoWay.coarsest g₁ = ringAndSpine ∧
      IsOpened chain 1 target (.summary ⟨chain.label, [4, target]⟩) ringAndSpine g₂ f₂ ∧
      twoWay.coarsest g₂ = ringAndSpine := by
  have hA : twoWay.IsDistinct := by decide +kernel
  have hshape : twoWay.coarsest ringAndSpine = ringAndSpine := by decide +kernel
  have hh : ringAndSpine.InRange := by decide +kernel
  have hlive : ∀ v < ringAndSpine.size, ringAndSpine.IsLive v := by
    have hreach : ∀ v < ringAndSpine.size, v ∈ ringAndSpine.reach ringAndSpine.roots := by
      decide +kernel
    exact fun v hv => hh.mem_reach_roots_iff.1 (hreach v hv)
  have hlabels : ringAndSpine.IsLabelled := by decide +kernel
  have hhides : twoWay.hides ringAndSpine 1 "next" := by decide +kernel
  exact ⟨hA, hshape, hlive, hlabels, hhides,
    coarsest_of_unfoldAt hA hshape hlive hlabels (by decide +kernel) hhides⟩

end Abstraction

end ShapeCheck
