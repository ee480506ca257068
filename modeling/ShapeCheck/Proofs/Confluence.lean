import ShapeCheck.Proofs.CanonicalShape

/-!
# Folding in any order

Which nodes are folded, and what comes of it, does not depend on the order. Folding a node leaves the
connections around all other nodes, except that the step from or to it is replaced by one along the
same chain; so the nodes that can be folded are the same as before, without this one. The exception is
a ring of two nodes, of which one is folded and the other leads to itself; but such a ring is garbage.
Two folds can be exchanged, and so any two lists of folds of the same nodes lead to the same heap.

## Main results

* `Folds.exchange`: two nodes can be folded in either order.
* `FoldsTo.isRenumbering`: lists of folds give renumbered heaps.
-/

namespace ShapeCheck

open List

variable {A : Abstraction} {g h h' : Heap} {chain chain' : Chain} {s s' t t' u v w : Node}
  {x : Connection} {rest : List Connection} {depth : Nat}

/-- Different chains have no step in common. -/
theorem Chain.IsStep.chain_eq (hA : A.IsDistinct) (hchain : chain ∈ A.chains)
    (hchain' : chain' ∈ A.chains) (hx : chain.IsStep u w x) (hx' : chain'.IsStep u w x) :
    chain = chain' := by
  rcases hx with rfl | rfl <;> rcases hx' with hx' | hx'
  · exact hA.eq_of_selector hchain hchain' (Connection.selector.inj hx').2.1
  · cases hx'
  · cases hx'
  · exact hA.eq_of_label hchain hchain' (Summary.mk.inj (Connection.summary.inj hx')).1

namespace Heap

theorem isRenumbering_id_of_connections (hsize : g.size = h.size) (hvar : ∀ y, g.var? y = h.var? y)
    (hperm : g.connections.Perm h.connections) : IsRenumbering id g h := by
  refine isRenumbering_of_connections hsize rfl (fun v hv => hsize ▸ hv) (fun _ _ _ _ => id)
    (fun y => by rw [hvar, Option.map_id_fun, id_eq]) (.trans (.of_eq ?_) hperm)
  exact (map_congr_left fun k _ => Connection.map_eq_self fun _ _ => rfl).trans (List.map_id _)

/-! ### Nodes inside a chain -/

namespace IsInside

theorem of_perm_into (hin : h.IsInside chain s v t) (hperm : (h.around v).Perm (x :: rest))
    (hx : x.ends = [u, v]) (hu : u ≠ v) :
    u = s ∧ chain.IsStep s v x ∧ ∃ y, rest = [y] ∧ chain.IsStep v t y := by
  obtain ⟨-, -, into, out, hinto, hout, hpair⟩ := hin
  have hpair := hpair.symm.trans hperm
  rcases mem_cons.1 (hpair.mem_iff.2 mem_cons_self) with rfl | hmem
  · rw [hinto.ends_eq] at hx
    exact ⟨(cons_eq_cons.1 hx).1.symm, hinto, out,
      perm_singleton.1 hpair.cons_inv.symm, hout⟩
  · obtain rfl := mem_singleton.1 hmem
    rw [hout.ends_eq] at hx
    exact absurd (cons_eq_cons.1 hx).1.symm hu

/-- Of the two connections around a node, the one that starts from it is the step out of it. -/
theorem of_perm_out (hin : h.IsInside chain s v t) (hperm : (h.around v).Perm (x :: rest))
    (hx : x.ends = [v, u]) :
    u = t ∧ chain.IsStep v t x ∧ ∃ y, rest = [y] ∧ chain.IsStep s v y := by
  obtain ⟨hs, -, into, out, hinto, hout, hpair⟩ := hin
  have hpair := (List.Perm.swap into out []).trans (hpair.symm.trans hperm)
  rcases mem_cons.1 (hpair.mem_iff.2 mem_cons_self) with rfl | hmem
  · rw [hout.ends_eq] at hx
    exact ⟨(cons_eq_cons.1 (cons_eq_cons.1 hx).2).1.symm, hout, into,
      perm_singleton.1 hpair.cons_inv.symm, hinto⟩
  · obtain rfl := mem_singleton.1 hmem
    rw [hinto.ends_eq] at hx
    exact absurd (cons_eq_cons.1 hx).1 hs

theorem unique (hA : A.IsDistinct) (hchain : chain ∈ A.chains) (hchain' : chain' ∈ A.chains)
    (hin : h.IsInside chain s v t) (hin' : h.IsInside chain' s' v t') :
    chain = chain' ∧ s = s' ∧ t = t' := by
  obtain ⟨hs', -, into, out, hinto, hout, hperm⟩ := hin'
  obtain ⟨rfl, hstep, y, hy, hout'⟩ := hin.of_perm_into hperm hinto.ends_eq hs'
  obtain rfl := (cons_eq_cons.1 hy).1
  refine ⟨hstep.chain_eq hA hchain hchain' hinto, rfl, ?_⟩
  simpa using hout'.ends_eq.symm.trans hout.ends_eq

theorem of_around_perm (hin : h.IsInside chain s v t) (hperm : (h'.around v).Perm (h.around v)) :
    h'.IsInside chain s v t := by
  obtain ⟨hs, ht, into, out, hinto, hout, hpair⟩ := hin
  exact ⟨hs, ht, into, out, hinto, hout, hperm.trans hpair⟩

theorem exists_isContraction (hin : h.IsInside chain s v t) :
    ∃ h' : Heap, h'.size = h.size ∧ IsContraction chain s v t h h' := by
  obtain ⟨f, hf, rfl, rfl⟩ := hin.exists_foldAt?
  exact ⟨f.apply h, size_apply, isContraction_apply hf⟩

end IsInside

/-! ### Contractions -/

namespace IsContraction

section

variable (hc : IsContraction chain s v t h h')
include hc

theorem around_perm (w : Node) : (h'.around w).Perm
    ([.summary ⟨chain.label, [s, t]⟩].filter (w ∈ ·.ends) ++ (h.around w).filter (v ∉ ·.ends)) := by
  refine (hc.connections.filter _).trans (.of_eq ?_)
  rw [← singleton_append, filter_append, filter_comm]
  rfl

/-- Nothing changes around a node that is not next to the folded one. -/
theorem around_away (hs : w ≠ s) (ht : w ≠ t) (hv : w ≠ v) : (h'.around w).Perm (h.around w) := by
  refine (hc.around_perm w).trans (.of_eq ?_)
  have hself : (h.around w).filter (v ∉ ·.ends) = h.around w := by
    refine filter_eq_self.2 fun y hy => decide_eq_true fun hmem => ?_
    obtain ⟨hy, hw⟩ := mem_around_iff.1 hy
    rcases hc.ends_of_mem hy hmem with hends | hends <;> simp [hends, hs, ht, hv] at hw
  rw [hself, filter_cons_of_neg (by simp [Connection.ends, hs, ht]), filter_nil,
    nil_append]

/-- Around a neighbour of the folded node, the step between the two is replaced by the new
summary. -/
theorem around_next (hw : w = s ∨ w = t) (hx : (h.around v).filter (w ∈ ·.ends) = [x]) :
    (h.around w).Perm (x :: (h.around w).filter (v ∉ ·.ends)) ∧
      (h'.around w).Perm (.summary ⟨chain.label, [s, t]⟩ :: (h.around w).filter (v ∉ ·.ends)) := by
  constructor
  · have hboth : (h.around w).filter (v ∈ ·.ends) = [x] := by
      rw [← hx, around, around, filter_comm]
    have hsplit := (filter_append_perm (fun k : Connection => decide (v ∈ k.ends))
      (h.around w)).symm
    rw [hboth] at hsplit
    simpa using hsplit
  · refine (hc.around_perm w).trans (.of_eq ?_)
    rw [filter_cons_of_pos (by simpa [Connection.ends] using hw)]
    rfl

theorem filter_around_target (hst : s ≠ t) :
    ∃ x, chain.IsStep v t x ∧ (h.around v).filter (t ∈ ·.ends) = [x] := by
  obtain ⟨hs, ht, into, out, hinto, hout, hperm⟩ := hc.isInside
  refine ⟨out, hout, perm_singleton.1 ((hperm.filter _).trans (.of_eq ?_))⟩
  rw [filter_cons_of_neg (by simp [hinto.ends_eq, hst.symm, ht]),
    filter_cons_of_pos (by simp [hout.ends_eq]), filter_nil]

theorem filter_around_source (hst : s ≠ t) :
    ∃ x, chain.IsStep s v x ∧ (h.around v).filter (s ∈ ·.ends) = [x] := by
  obtain ⟨hs, ht, into, out, hinto, hout, hperm⟩ := hc.isInside
  refine ⟨into, hinto, perm_singleton.1 ((hperm.filter _).trans (.of_eq ?_))⟩
  rw [filter_cons_of_pos (by simp [hinto.ends_eq]),
    filter_cons_of_neg (by simp [hout.ends_eq, hs, hst]), filter_nil]

end

section Neighbours

variable (hA : A.IsDistinct) (hchain : chain ∈ A.chains) (hchain' : chain' ∈ A.chains)
  (hc : IsContraction chain s v t h h') (hst : s ≠ t)

include hA hchain hchain' hc hst

/-- A chain that passes through the target passes through the node, and goes on from the source. -/
theorem isInside_target (hin : h.IsInside chain' s' t t') :
    chain' = chain ∧ s' = v ∧ h'.IsInside chain s t t' := by
  obtain ⟨x, hx, hfilter⟩ := hc.filter_around_target hst
  obtain ⟨hperm, hperm'⟩ := hc.around_next (.inr rfl) hfilter
  obtain ⟨rfl, hstep, y, hy, hout⟩ := hin.of_perm_into hperm hx.ends_eq hc.isInside.target_ne.symm
  obtain rfl := hx.chain_eq hA hchain hchain' hstep
  exact ⟨rfl, rfl, hst, hin.target_ne, _, y, .inr rfl, hout, hy ▸ hperm'⟩

theorem isInside_of_target (hin : h'.IsInside chain' s' t t') : h.IsInside chain v t t' := by
  obtain ⟨x, hx, hfilter⟩ := hc.filter_around_target hst
  obtain ⟨hperm, hperm'⟩ := hc.around_next (.inr rfl) hfilter
  obtain ⟨rfl, hstep, y, hy, hout⟩ := hin.of_perm_into hperm' rfl hst
  obtain rfl := Chain.IsStep.chain_eq hA hchain hchain' (.inr rfl) hstep
  exact ⟨hc.isInside.target_ne.symm, hin.target_ne, x, y, hx, hout, hy ▸ hperm⟩

/-- A chain that passes through the source passes through the node, and goes on to the target. -/
theorem isInside_source (hin : h.IsInside chain' s' s t') :
    chain' = chain ∧ t' = v ∧ h'.IsInside chain s' s t := by
  obtain ⟨x, hx, hfilter⟩ := hc.filter_around_source hst
  obtain ⟨hperm, hperm'⟩ := hc.around_next (.inl rfl) hfilter
  obtain ⟨rfl, hstep, y, hy, hinto⟩ := hin.of_perm_out hperm hx.ends_eq
  obtain rfl := hx.chain_eq hA hchain hchain' hstep
  exact ⟨rfl, rfl, hin.source_ne, hst.symm, y, _, hinto, .inr rfl,
    (hy ▸ hperm').trans (.swap ..)⟩

theorem isInside_of_source (hin : h'.IsInside chain' s' s t') : h.IsInside chain s' s v := by
  obtain ⟨x, hx, hfilter⟩ := hc.filter_around_source hst
  obtain ⟨hperm, hperm'⟩ := hc.around_next (.inl rfl) hfilter
  obtain ⟨rfl, hstep, y, hy, hinto⟩ := hin.of_perm_out hperm' rfl
  obtain rfl := Chain.IsStep.chain_eq hA hchain hchain' (.inr rfl) hstep
  exact ⟨hin.source_ne, hc.isInside.source_ne.symm, y, x, hinto, hx, (hy ▸ hperm).trans (.swap ..)⟩

end Neighbours

theorem not_isInside_of_ring (hc : IsContraction chain s v s h h') : ¬h'.IsInside chain' s' s t' := by
  rintro ⟨hs, ht, into, out, hinto, hout, hperm⟩
  have hmem : .summary ⟨chain.label, [s, s]⟩ ∈ h'.around s :=
    mem_around_iff.2 ⟨hc.mem_connections_iff.2 (.inl rfl), mem_cons_self⟩
  rcases mem_cons.1 (hperm.mem_iff.1 hmem) with heq | heq
  · have hends := hinto.ends_eq
    rw [← heq] at hends
    exact hs (cons_eq_cons.1 hends).1.symm
  · have hends := hout.ends_eq
    rw [← mem_singleton.1 heq] at hends
    exact ht (cons_eq_cons.1 (cons_eq_cons.1 hends).2).1.symm

/-- A ring of two nodes without a name is garbage. -/
theorem not_isLive_of_ring (hc : IsContraction chain s v s h h') (hin : h.IsInside chain' s' s t')
    (hv : v ∉ h.roots) (hs : s ∉ h.roots) : ¬h.IsLive v := by
  have honly (u : Node) (hu : h.Leads u s) : u = v := by
    obtain ⟨h₁, -, hc'⟩ := hin.exists_isContraction
    exact (hc'.eq_source hu).trans (hc'.eq_source hc.leads_target).symm
  rintro ⟨r, hr, hrv⟩
  have hpath (a : Node) (ha : Relation.ReflTransGen h.Leads r a) : a ≠ v ∧ a ≠ s := by
    induction ha with
    | refl =>
      constructor
      · rintro rfl
        exact hv hr
      · rintro rfl
        exact hs hr
    | tail _ hstep ih =>
      constructor
      · rintro rfl
        exact ih.2 (hc.eq_source hstep)
      · rintro rfl
        exact ih.1 (honly _ hstep)
  exact (hpath v hrv).1 rfl

/-- Folds of nodes that are not next to each other can be exchanged. -/
theorem exchange_away {h₁ h₂ h₁₂ h₂₁ : Heap} (hc : IsContraction chain s v t h h₁)
    (hc' : IsContraction chain' s' w t' h h₂) (hc₁₂ : IsContraction chain' s' w t' h₁ h₁₂)
    (hc₂₁ : IsContraction chain s v t h₂ h₂₁) (hw : w ∉ [s, t]) (hv : v ∉ [s', t']) :
    h₁₂.connections.Perm h₂₁.connections := by
  have hleft := hc₁₂.connections.trans ((hc.connections.filter (w ∉ ·.ends)).cons _)
  have hright := hc₂₁.connections.trans ((hc'.connections.filter (v ∉ ·.ends)).cons _)
  rw [filter_cons_of_pos (by simpa [Connection.ends] using hw)] at hleft
  rw [filter_cons_of_pos (by simpa [Connection.ends] using hv), filter_comm] at hright
  exact hleft.trans ((List.Perm.swap ..).trans hright.symm)

theorem exchange_next {h₁ h₂ h₁₂ h₂₁ : Heap} (hc : IsContraction chain s v w h h₁)
    (hc' : IsContraction chain v w t' h h₂) (hc₁₂ : IsContraction chain s w t' h₁ h₁₂)
    (hc₂₁ : IsContraction chain s v t' h₂ h₂₁) : h₁₂.connections.Perm h₂₁.connections := by
  have hleft := hc₁₂.connections.trans ((hc.connections.filter (w ∉ ·.ends)).cons _)
  have hright := hc₂₁.connections.trans ((hc'.connections.filter (v ∉ ·.ends)).cons _)
  rw [filter_cons_of_neg (by simp [Connection.ends])] at hleft
  rw [filter_cons_of_neg (by simp [Connection.ends]), filter_comm] at hright
  exact hleft.trans hright.symm

end IsContraction

/-! ### Heaps without garbage -/

/-- Connections are attached to live nodes only. -/
def IsReached (h : Heap) : Prop :=
  ∀ k ∈ h.connections, ∀ v ∈ k.ends, h.IsLive v

theorem IsReached.isLive (hh : h.IsReached) (huw : h.Leads u w) : h.IsLive u ∧ h.IsLive w := by
  obtain ⟨k, hk, hu, hw⟩ := leads_iff_connections.1 huw
  exact ⟨hh k hk u (mem_of_mem_head? hu), hh k hk w (mem_of_mem_tail hw)⟩

theorem IsContraction.isReached (hc : IsContraction chain s v t h h') (hv : v ∉ h.roots)
    (hh : h.IsReached) : h'.IsReached := by
  intro k hk u hu
  have hne : u ≠ v := by
    rintro rfl
    exact hc.not_mem_ends hk hu
  refine (hc.isLive_iff hv hne).2 ?_
  rcases hc.mem_connections_iff.1 hk with rfl | ⟨hk, -⟩
  · have hcases : u = s ∨ u = t := by simpa [Connection.ends] using hu
    rcases hcases with rfl | rfl
    · exact (hh.isLive hc.source_leads).1
    · exact (hh.isLive hc.leads_target).2
  · exact hh k hk u hu

end Heap

namespace Abstraction

/-! ### Folding a node -/

/-- A chain passes through the node, which is not near a variable. -/
structure IsFoldable (A : Abstraction) (depth : Nat) (h : Heap) (v : Node) : Prop where
  ne_null : v ≠ Node.null
  not_near : v ∉ h.near depth
  isInside : ∃ chain ∈ A.chains, ∃ s t, h.IsInside chain s v t

/-- The heap `h'` is `h` with the node `v` folded, which is not near a variable. -/
structure Folds (A : Abstraction) (depth : Nat) (h : Heap) (v : Node) (h' : Heap) : Prop where
  ne_null : v ≠ Node.null
  not_near : v ∉ h.near depth
  size : h'.size = h.size
  isContraction : ∃ chain ∈ A.chains, ∃ s t, Heap.IsContraction chain s v t h h'

theorem IsFoldable.exists_folds (hv : A.IsFoldable depth h v) : ∃ h', A.Folds depth h v h' := by
  obtain ⟨chain, hchain, s, t, hin⟩ := hv.isInside
  obtain ⟨h', hsize, hc⟩ := hin.exists_isContraction
  exact ⟨h', hv.ne_null, hv.not_near, hsize, chain, hchain, s, t, hc⟩

theorem IsFoldable.not_mem_roots (hv : A.IsFoldable depth h v) : v ∉ h.roots :=
  Heap.not_mem_roots hv.ne_null hv.not_near

namespace Folds

theorem isFoldable (hf : A.Folds depth h v h') : A.IsFoldable depth h v := by
  obtain ⟨chain, hchain, s, t, hc⟩ := hf.isContraction
  exact ⟨hf.ne_null, hf.not_near, chain, hchain, s, t, hc.isInside⟩

theorem var (hf : A.Folds depth h v h') (y : String) : h'.var? y = h.var? y := by
  obtain ⟨chain, hchain, s, t, hc⟩ := hf.isContraction
  exact hc.var y

theorem inRange (hf : A.Folds depth h v h') (hh : h.InRange) : h'.InRange := by
  obtain ⟨chain, hchain, s, t, hc⟩ := hf.isContraction
  exact hc.inRange hh hf.size

theorem isReached (hf : A.Folds depth h v h') (hh : h.IsReached) : h'.IsReached := by
  obtain ⟨chain, hchain, s, t, hc⟩ := hf.isContraction
  exact hc.isReached hf.isFoldable.not_mem_roots hh

/-- Folding a node changes nothing for the others: they can be folded as before. -/
theorem isFoldable_iff (hA : A.IsDistinct) (hf : A.Folds depth h v h') (hreached : h.IsReached)
    (hw : w ≠ v) : A.IsFoldable depth h' w ↔ A.IsFoldable depth h w := by
  obtain ⟨chain, hchain, s, t, hc⟩ := hf.isContraction
  have hnear := hc.mem_near_iff (u := w) hf.not_near
  constructor
  · intro hw'
    obtain ⟨chain', hchain', s', t', hin⟩ := hw'.isInside
    refine ⟨hw'.ne_null, fun hmem => hw'.not_near (hnear.2 hmem), ?_⟩
    by_cases ht : w = t
    · subst ht
      by_cases hs : s = w
      · subst hs
        exact absurd hin hc.not_isInside_of_ring
      · exact ⟨chain, hchain, v, t', hc.isInside_of_target hA hchain hchain' hs hin⟩
    · by_cases hs : w = s
      · subst hs
        exact ⟨chain, hchain, s', v, hc.isInside_of_source hA hchain hchain' ht hin⟩
      · exact ⟨chain', hchain', s', t', hin.of_around_perm (hc.around_away hs ht hw).symm⟩
  · intro hw'
    obtain ⟨chain', hchain', s', t', hin⟩ := hw'.isInside
    refine ⟨hw'.ne_null, fun hmem => hw'.not_near (hnear.1 hmem), ?_⟩
    by_cases ht : w = t
    · subst ht
      by_cases hs : s = w
      · subst hs
        exact absurd (hreached.isLive hc.source_leads).2
          (hc.not_isLive_of_ring hin hf.isFoldable.not_mem_roots hw'.not_mem_roots)
      · exact ⟨chain, hchain, s, t', (hc.isInside_target hA hchain hchain' hs hin).2.2⟩
    · by_cases hs : w = s
      · subst hs
        exact ⟨chain, hchain, s', t, (hc.isInside_source hA hchain hchain' ht hin).2.2⟩
      · exact ⟨chain', hchain', s', t', hin.of_around_perm (hc.around_away hs ht hw)⟩

theorem exchange_next {h₁ h₂ : Heap} (hA : A.IsDistinct) (hv : A.Folds depth h v h₁)
    (hw : A.Folds depth h w h₂) (hne : v ≠ w) (hreached : h.IsReached) (hvw : h.Leads v w) :
    ∃ h₁₂ h₂₁, A.Folds depth h₁ w h₁₂ ∧ A.Folds depth h₂ v h₂₁ ∧
      h₁₂.connections.Perm h₂₁.connections := by
  obtain ⟨chain, hchain, s, t, hc⟩ := hv.isContraction
  obtain ⟨chain', hchain', s', t', hc'⟩ := hw.isContraction
  obtain rfl := hc.eq_target hvw
  obtain rfl := hc'.eq_source hvw
  have hs : s ≠ w := by
    rintro rfl
    exact hc.not_isLive_of_ring hc'.isInside hv.isFoldable.not_mem_roots hw.isFoldable.not_mem_roots
      (hreached.isLive hvw).1
  have ht : v ≠ t' := by
    rintro rfl
    exact hs (hc.eq_source hc'.leads_target).symm
  obtain ⟨rfl, -, hin₁⟩ := hc.isInside_target hA hchain hchain' hs hc'.isInside
  obtain ⟨-, -, hin₂⟩ := hc'.isInside_source hA hchain hchain ht hc.isInside
  obtain ⟨h₁₂, hsize₁, hc₁₂⟩ := hin₁.exists_isContraction
  obtain ⟨h₂₁, hsize₂, hc₂₁⟩ := hin₂.exists_isContraction
  refine ⟨h₁₂, h₂₁, ⟨hw.ne_null, ?_, hsize₁, _, hchain, _, _, hc₁₂⟩,
    ⟨hv.ne_null, ?_, hsize₂, _, hchain, _, _, hc₂₁⟩, hc.exchange_next hc' hc₁₂ hc₂₁⟩
  · rw [hc.mem_near_iff hv.not_near]
    exact hw.not_near
  · rw [hc'.mem_near_iff hw.not_near]
    exact hv.not_near

/-- Two nodes can be folded in either order. -/
theorem exchange {h₁ h₂ : Heap} (hA : A.IsDistinct) (hv : A.Folds depth h v h₁)
    (hw : A.Folds depth h w h₂) (hne : v ≠ w) (hreached : h.IsReached) :
    ∃ h₁₂ h₂₁, A.Folds depth h₁ w h₁₂ ∧ A.Folds depth h₂ v h₂₁ ∧
      h₁₂.connections.Perm h₂₁.connections := by
  by_cases hvw : h.Leads v w
  · exact hv.exchange_next hA hw hne hreached hvw
  by_cases hwv : h.Leads w v
  · obtain ⟨h₂₁, h₁₂, hf₂₁, hf₁₂, hperm⟩ := hw.exchange_next hA hv hne.symm hreached hwv
    exact ⟨h₁₂, h₂₁, hf₁₂, hf₂₁, hperm.symm⟩
  obtain ⟨chain, hchain, s, t, hc⟩ := hv.isContraction
  obtain ⟨chain', hchain', s', t', hc'⟩ := hw.isContraction
  have hws : w ≠ s := fun heq => hwv (heq ▸ hc.source_leads)
  have hwt : w ≠ t := fun heq => hvw (heq ▸ hc.leads_target)
  have hvs : v ≠ s' := fun heq => hvw (heq ▸ hc'.source_leads)
  have hvt : v ≠ t' := fun heq => hwv (heq ▸ hc'.leads_target)
  obtain ⟨h₁₂, hsize₁, hc₁₂⟩ :=
    (hc'.isInside.of_around_perm (hc.around_away hws hwt hne.symm)).exists_isContraction
  obtain ⟨h₂₁, hsize₂, hc₂₁⟩ :=
    (hc.isInside.of_around_perm (hc'.around_away hvs hvt hne)).exists_isContraction
  refine ⟨h₁₂, h₂₁, ⟨hw.ne_null, ?_, hsize₁, _, hchain', _, _, hc₁₂⟩,
    ⟨hv.ne_null, ?_, hsize₂, _, hchain, _, _, hc₂₁⟩,
    hc.exchange_away hc' hc₁₂ hc₂₁ (by simp [hws, hwt]) (by simp [hvs, hvt])⟩
  · rw [hc.mem_near_iff hv.not_near]
    exact hw.not_near
  · rw [hc'.mem_near_iff hw.not_near]
    exact hv.not_near

theorem not_isFoldable (hf : A.Folds depth h v h') : ¬A.IsFoldable depth h' v := by
  rintro ⟨-, -, chain', -, s', t', -, -, into, out, hinto, -, hperm⟩
  obtain ⟨chain, hchain, s, t, hc⟩ := hf.isContraction
  exact hc.not_mem_ends (Heap.mem_around_iff.1 (hperm.mem_iff.2 mem_cons_self)).1
    (by simp [hinto.ends_eq])

end Folds

theorem IsFoldable.lt_size (hv : A.IsFoldable depth h v) (hh : h.InRange) : v < h.size := by
  obtain ⟨h', hv'⟩ := hv.exists_folds
  obtain ⟨chain, -, s, t, hc⟩ := hv'.isContraction
  exact hh.lt_of_leads hc.leads_target

/-! ### Folding renumbered heaps -/

section Renumbered

variable {f : Node → Node} {g' : Heap} (hf : Heap.IsRenumbering f g h) (hg : g.InRange)

include hf hg

theorem isInside_map (hin : g.IsInside chain s v t) (hv : v < g.size) :
    h.IsInside chain (f s) (f v) (f t) :=
  hin.map (fun _ hk u hu => hf.inj u (hg.lt_of_mem_connections hk hu) v hv) (hf.connections_perm hg)

theorem IsFoldable.map (hv : A.IsFoldable depth g v) : A.IsFoldable depth h (f v) := by
  have hlt := hv.lt_size hg
  obtain ⟨chain, hchain, s, t, hin⟩ := hv.isInside
  refine ⟨fun heq => hv.ne_null ?_, fun hmem => hv.not_near ?_, chain, hchain, f s, f t,
    isInside_map hf hg hin hlt⟩
  · exact hf.inj v hlt Node.null hg.pos (heq.trans hf.null.symm)
  · exact ((hf.isPart (hf.inRange hg)).mem_near_iff hg hlt).1 hmem

theorem Folds.isRenumbering (hA : A.IsDistinct) (hv : A.Folds depth g v g')
    (hv' : A.Folds depth h (f v) h') : Heap.IsRenumbering f g' h' := by
  have hlt := hv.isFoldable.lt_size hg
  obtain ⟨chain, hchain, s, t, hc⟩ := hv.isContraction
  obtain ⟨chain', hchain', s', t', hc'⟩ := hv'.isContraction
  obtain ⟨rfl, rfl, rfl⟩ :=
    (isInside_map hf hg hc.isInside hlt).unique hA hchain hchain' hc'.isInside
  refine Heap.isRenumbering_of_connections ?_ hf.null (fun u hu => ?_) (fun u hu w hw => ?_)
    (fun y => ?_) ?_
  · rw [hv.size, hv'.size, hf.size]
  · rw [hv'.size]
    exact hf.lt u (hv.size ▸ hu)
  · exact hf.inj u (hv.size ▸ hu) w (hv.size ▸ hw)
  · rw [hc.var, hc'.var, hf.var]
  · have hrest : ((g.connections.filter (v ∉ ·.ends)).map (Connection.map f)).Perm
        (h.connections.filter (f v ∉ ·.ends)) := by
      refine .trans (.of_eq ?_) ((hf.connections_perm hg).filter _)
      rw [filter_map]
      refine congrArg _ (filter_congr fun k hk => decide_eq_decide.2 (not_congr ?_))
      exact (Connection.mem_ends_map fun u hu =>
        hf.inj u (hg.lt_of_mem_connections hk hu) v hlt).symm
    exact ((hc.connections.map _).trans (hrest.cons _)).trans hc'.connections.symm

/-- A renumbering carries a fold to a fold. -/
theorem Folds.map (hA : A.IsDistinct) (hv : A.Folds depth g v g') :
    ∃ h', A.Folds depth h (f v) h' ∧ Heap.IsRenumbering f g' h' := by
  obtain ⟨h', hv'⟩ := (hv.isFoldable.map hf hg).exists_folds
  exact ⟨h', hv', hv.isRenumbering hf hg hA hv'⟩

end Renumbered

/-! ### Folding many nodes -/

/-- The heap becomes another one by folding the nodes of the list, the last one first. -/
inductive FoldsTo (A : Abstraction) (depth : Nat) (h : Heap) : List Node → Heap → Prop where
  | nil : FoldsTo A depth h [] h
  | cons {l : List Node} {g g' : Heap} {v : Node} :
      FoldsTo A depth h l g → A.Folds depth g v g' → FoldsTo A depth h (v :: l) g'

namespace FoldsTo

variable {l m : List Node} {f : Node → Node} {g' : Heap}

theorem inRange (hl : A.FoldsTo depth h l g) (hh : h.InRange) : g.InRange := by
  induction hl with
  | nil => exact hh
  | cons _ hv ih => exact hv.inRange ih

theorem size (hl : A.FoldsTo depth h l g) : g.size = h.size := by
  induction hl with
  | nil => rfl
  | cons _ hv ih => exact hv.size.trans ih

theorem lt_size (hl : A.FoldsTo depth h l g) (hh : h.InRange) : ∀ v ∈ l, v < h.size := by
  induction hl with
  | nil => simp
  | cons hl hv ih =>
    exact forall_mem_cons.2 ⟨hl.size ▸ hv.isFoldable.lt_size (hl.inRange hh), ih⟩

theorem isReached (hl : A.FoldsTo depth h l g) (hh : h.IsReached) : g.IsReached := by
  induction hl with
  | nil => exact hh
  | cons _ hv ih => exact hv.isReached ih

theorem isFoldable_iff (hA : A.IsDistinct) (hl : A.FoldsTo depth h l g) (hreached : h.IsReached) :
    A.IsFoldable depth g w ↔ A.IsFoldable depth h w ∧ w ∉ l := by
  induction hl with
  | nil => simp
  | @cons l g g' v hl hv ih =>
    by_cases hw : w = v
    · subst hw
      exact iff_of_false hv.not_isFoldable fun hmem => hmem.2 mem_cons_self
    · rw [hv.isFoldable_iff hA (hl.isReached hreached) hw, ih, mem_cons, not_or]
      exact and_congr_right fun _ => ⟨fun hmem => ⟨hw, hmem⟩, And.right⟩

theorem nodup (hA : A.IsDistinct) (hl : A.FoldsTo depth h l g) (hreached : h.IsReached) :
    l.Nodup ∧ ∀ v ∈ l, A.IsFoldable depth h v := by
  induction hl with
  | nil => exact ⟨.nil, by simp⟩
  | cons hl hv ih =>
    obtain ⟨hfoldable, hnew⟩ := (hl.isFoldable_iff hA hreached).1 hv.isFoldable
    exact ⟨nodup_cons.2 ⟨hnew, ih.1⟩, forall_mem_cons.2 ⟨hfoldable, ih.2⟩⟩

/-- The heap that a list of folds leads to is determined up to the order of its connections. -/
theorem unique (hA : A.IsDistinct) (hh : h.InRange) (hl : A.FoldsTo depth h l g)
    (hl' : A.FoldsTo depth h l g') : Heap.IsRenumbering id g g' := by
  induction hl generalizing g' with
  | nil =>
    cases hl'
    exact Heap.isRenumbering_id h
  | cons hl hv ih =>
    cases hl' with
    | cons hl' hv' => exact hv.isRenumbering (ih hl') (hl.inRange hh) hA hv'

theorem map (hA : A.IsDistinct) (hf : Heap.IsRenumbering f g h) (hg : g.InRange)
    (hl : A.FoldsTo depth g l g') :
    ∃ h', A.FoldsTo depth h (l.map f) h' ∧ Heap.IsRenumbering f g' h' := by
  induction hl with
  | nil => exact ⟨h, .nil, hf⟩
  | cons hl hv ih =>
    obtain ⟨h₁, hl₁, hf₁⟩ := ih
    obtain ⟨h₂, hv₂, hf₂⟩ := hv.map hf₁ (hl.inRange hg) hA
    exact ⟨h₂, .cons hl₁ hv₂, hf₂⟩

/-- Lists of folds can be rearranged. -/
theorem perm (hA : A.IsDistinct) (hh : h.InRange) (hreached : h.IsReached) (hperm : l.Perm m)
    (hl : A.FoldsTo depth h l g) : ∃ g', A.FoldsTo depth h m g' ∧ Heap.IsRenumbering id g g' := by
  induction hperm generalizing g with
  | nil => exact ⟨g, hl, Heap.isRenumbering_id g⟩
  | cons v _ ih =>
    cases hl with
    | cons hl hv =>
      obtain ⟨g₁, hl₁, hf₁⟩ := ih hl
      obtain ⟨g₂, hv₂, hf₂⟩ := hv.map hf₁ (hl.inRange hh) hA
      exact ⟨g₂, .cons hl₁ hv₂, hf₂⟩
  | swap v w l =>
    cases hl with
    | cons hl hw =>
      cases hl with
      | cons hl hv =>
        have hne : w ≠ v := by
          rintro rfl
          exact hv.not_isFoldable hw.isFoldable
        have hreached₀ := hl.isReached hreached
        obtain ⟨g₂, hw₂⟩ := ((hv.isFoldable_iff hA hreached₀ hne).1 hw.isFoldable).exists_folds
        obtain ⟨g₁₂, g₂₁, hf₁₂, hf₂₁, hperm⟩ := hv.exchange hA hw₂ hne.symm hreached₀
        refine ⟨g₂₁, .cons (.cons hl hw₂) hf₂₁, ?_⟩
        have hsame := hw.isRenumbering (Heap.isRenumbering_id _) (hv.inRange (hl.inRange hh)) hA hf₁₂
        refine hsame.trans (Heap.isRenumbering_id_of_connections ?_ (fun y => ?_) hperm)
        · rw [hf₁₂.size, hf₂₁.size, hv.size, hw₂.size]
        · rw [hf₁₂.var, hf₂₁.var, hv.var, hw₂.var]
  | trans _ _ ih₁ ih₂ =>
    obtain ⟨g₁, hl₁, hf₁⟩ := ih₁ hl
    obtain ⟨g₂, hl₂, hf₂⟩ := ih₂ hl₁
    exact ⟨g₂, hl₂, hf₁.trans hf₂⟩

theorem isRenumbering (hA : A.IsDistinct) (hf : Heap.IsRenumbering f g h) (hg : g.InRange)
    (hreached : h.IsReached) (hl : A.FoldsTo depth g l g') (hm : A.FoldsTo depth h m h')
    (hg' : ∀ v, ¬A.IsFoldable depth g' v) (hh' : ∀ v, ¬A.IsFoldable depth h' v) :
    Heap.IsRenumbering f g' h' ∧ (l.map f).Perm m := by
  have hh := hf.inRange hg
  obtain ⟨h₁, hl₁, hf₁⟩ := hl.map hA hf hg
  have hh₁ (v : Node) : ¬A.IsFoldable depth h₁ v := by
    intro hv
    obtain ⟨f', hf'⟩ := Heap.Isomorphic.symm (hl.inRange hg) ⟨f, hf₁⟩
    exact hg' _ (hv.map hf' (hl₁.inRange hh))
  have hperm : (l.map f).Perm m := by
    obtain ⟨hnodup, hmem⟩ := hl₁.nodup hA hreached
    obtain ⟨hnodup', hmem'⟩ := hm.nodup hA hreached
    refine (perm_ext_iff_of_nodup hnodup hnodup').2 fun v => ⟨fun hv => ?_, fun hv => ?_⟩
    · by_contra hnot
      exact hh' v ((hm.isFoldable_iff hA hreached).2 ⟨hmem v hv, hnot⟩)
    · by_contra hnot
      exact hh₁ v ((hl₁.isFoldable_iff hA hreached).2 ⟨hmem' v hv, hnot⟩)
  obtain ⟨h₂, hm₂, hf₂⟩ := hl₁.perm hA hh hreached hperm
  exact ⟨(hf₁.trans hf₂).trans (hm₂.unique hA hh hm), hperm⟩

end FoldsTo

theorem FoldsTo.isLive {l : List Node} (hl : A.FoldsTo depth h l g) (hw : w ∉ l)
    (hlive : h.IsLive w) : g.IsLive w := by
  induction hl with
  | nil => exact hlive
  | cons _ hv ih =>
    rw [mem_cons, not_or] at hw
    obtain ⟨chain, -, s, t, hc⟩ := hv.isContraction
    exact (hc.isLive_iff hv.isFoldable.not_mem_roots hw.1).2 (ih hw.2)

/-- A canonical shape is the normal form of the nodes that are left when all is folded. -/
theorem exists_foldsTo_shapeAt (A : Abstraction) (depth : Nat) (hh : h.InRange) :
    ∃ (l : List Node) (h' kept : Heap) (p : Node → Node), A.FoldsTo depth h l h' ∧
      (∀ v, ¬A.IsFoldable depth h' v) ∧ kept.InRange ∧ Heap.IsCore p kept h' ∧
      (∀ v, (∃ u < kept.size, p u = v) ↔ v < h.size ∧ v ∉ l) ∧
      A.shapeAt depth h = kept.normalize := by
  have hstart := IsReducing.start hh
  obtain ⟨hred, hfolds⟩ := IsReducing.foldAll_induction A depth h.size (P := fun g l =>
    A.FoldsTo depth h l g) (fun g g' l chain hchain s v t _ hc hsize _ hnull _ hnear hl =>
      hl.cons ⟨hnull, hnear, hsize, chain, hchain, s, t, hc⟩) hstart .nil
  obtain ⟨p, hp, himage⟩ := hred.exists_isCore
  refine ⟨_, _, _, p, hfolds, fun v hv => ?_, hred.inRange.inRange_dropNodes _, hp, himage, rfl⟩
  obtain ⟨chain, hchain, s, t, hin⟩ := hv.isInside
  obtain ⟨f, hf, -⟩ := hin.exists_foldAt?
  refine Option.some_ne_none f (hf.symm.trans (findFold?_eq_none_iff.1
    (hstart.findFold?_foldAll A depth (by simp)) chain hchain v ?_ hv.ne_null (fun hmem => ?_)
    hv.not_near))
  · exact hv.lt_size hred.inRange
  · obtain ⟨-, -, into, out, hinto, -, hperm⟩ := hin
    exact hred.not_mem_ends v hmem into (Heap.mem_around_iff.1 (hperm.mem_iff.2 (by simp))).1
      (by simp [hinto.ends_eq])

/-! ### What stays apart -/

/-- Where a summary of a chain starts, the selector of the chain is hidden. -/
def Conceals (A : Abstraction) (h : Heap) : Prop :=
  ∀ chain ∈ A.chains, ∀ v w, ⟨chain.label, [v, w]⟩ ∈ h.summaries →
    h.selector? v chain.selector = none

section Apart

variable (hA : A.IsDistinct) (hchain : chain ∈ A.chains)
  (hc : Heap.IsContraction chain s v t h h') (hapart : h.IsApart) (hconceals : A.Conceals h)

include hchain hc hapart hconceals

theorem eq_of_isStep {x : Connection} (hx : chain.IsStep s w x) (hmem : x ∈ h.connections) :
    w = v := by
  obtain ⟨-, -, into, out, hinto, -, hperm⟩ := hc.isInside
  have hmem' := (Heap.mem_around_iff.1 (hperm.mem_iff.2 mem_cons_self)).1
  rcases hx with rfl | rfl <;> rcases hinto with rfl | rfl <;>
    simp only [Heap.selector_mem_connections, Heap.summary_mem_connections] at hmem hmem'
  · exact Option.some.inj (hmem.symm.trans hmem')
  · cases (hconceals chain hchain s v hmem').symm.trans hmem
  · cases (hconceals chain hchain s w hmem).symm.trans hmem'
  · have heq := hapart _ hmem _ hmem' s rfl rfl rfl rfl
    simpa using congrArg Summary.ends heq

theorem isApart_contraction : h'.IsApart := by
  -- No summary that is left starts from the source with the label of the new one and two ends.
  have hnew {e : Summary} (he : e ∈ h.summaries) (hv : v ∉ e.ends) (hsource : e.source? = some s)
      (hlabel : e.label = chain.label) : e.ends.length ≠ 2 := by
    intro hlength
    obtain ⟨a, w, hends⟩ := length_eq_two.1 hlength
    obtain ⟨label, ends⟩ := e
    obtain rfl : label = chain.label := hlabel
    obtain rfl : ends = [a, w] := hends
    obtain rfl : a = s := Option.some.inj hsource
    have hw := eq_of_isStep hchain hc hapart hconceals (.inr rfl)
      (Heap.summary_mem_connections.2 he)
    exact hv (by simp [hw])
  intro e he e' he' a ha ha' hlabel hlength
  rcases hc.mem_summaries_iff.1 he with rfl | ⟨he, hv⟩ <;>
    rcases hc.mem_summaries_iff.1 he' with rfl | ⟨he', hv'⟩
  · rfl
  · obtain rfl : s = a := Option.some.inj ha
    exact absurd hlength.symm (hnew he' hv' ha' hlabel.symm)
  · obtain rfl : s = a := Option.some.inj ha'
    exact absurd hlength (hnew he hv ha hlabel)
  · exact hapart e he e' he' a ha ha' hlabel hlength

include hA in
theorem conceals_contraction : A.Conceals h' := by
  intro chain' hchain' a b hab
  refine Option.eq_none_iff_forall_ne_some.2 fun w hw => ?_
  rcases hc.mem_connections_iff.1 (Heap.selector_mem_connections.2 hw) with heq | ⟨hw, hv⟩
  · cases heq
  rcases hc.mem_summaries_iff.1 hab with heq | ⟨hab, -⟩
  · obtain ⟨hlabel, hends⟩ := Summary.mk.inj heq
    obtain rfl := hA.eq_of_label hchain' hchain hlabel
    obtain rfl := (cons_eq_cons.1 hends).1
    have hw := eq_of_isStep hchain hc hapart hconceals (.inl rfl) hw
    exact hv (by simp [Connection.ends, hw])
  · cases (hconceals chain' hchain' a b hab).symm.trans (Heap.selector_mem_connections.1 hw)

end Apart

/-- Folding keeps apart what starts at the same node. -/
theorem FoldsTo.isApart {l : List Node} (hA : A.IsDistinct) (hl : A.FoldsTo depth h l g)
    (hapart : h.IsApart) (hconceals : A.Conceals h) : g.IsApart ∧ A.Conceals g := by
  induction hl with
  | nil => exact ⟨hapart, hconceals⟩
  | cons _ hv ih =>
    obtain ⟨chain, hchain, s, t, hc⟩ := hv.isContraction
    exact ⟨isApart_contraction hchain hc ih.1 ih.2, conceals_contraction hA hchain hc ih.1 ih.2⟩

end Abstraction

namespace Heap

theorem IsPart.isApart {f : Node → Node} (hf : IsPart f g h) (hg : g.InRange) (hh : h.IsApart) :
    g.IsApart := by
  intro e he e' he' a ha ha' hlabel hlength
  obtain ⟨r, hr⟩ := exists_leftInverse hf.inj
  have hback {e : Summary} (he : e ∈ g.summaries) : (e.map f).map r = e := by
    rw [Summary.map_map]
    exact Summary.map_eq_self fun u hu => hr u (hg.ends e he u hu)
  rw [← hback he, ← hback he', hh _ (hf.map_mem_summaries he) _ (hf.map_mem_summaries he') (f a) _ _
    hlabel (by simpa [Summary.map] using hlength)]
  · rw [Summary.source?_map, ha, Option.map_some]
  · rw [Summary.source?_map, ha', Option.map_some]

/-- The kept parts of renumbered heaps are isomorphic, if the nodes that are kept correspond. -/
theorem IsCore.isomorphic {f p q : Node → Node} {a b : Heap} (hp : IsCore p a g) (hq : IsCore q b h)
    (hb : b.InRange) (hf : IsRenumbering f g h)
    (himage : ∀ v < g.size, (∃ u < a.size, p u = v) ↔ ∃ u < b.size, q u = f v) : Isomorphic a b := by
  refine isomorphic_of_placements (p := f ∘ p) hb (fun u hu w hw heq => ?_) hq.inj (fun v => ?image)
    ?null (fun u hu w hw heq sel => ?selector) (fun y => ?var) ?summaries
  · exact hp.inj u hu w hw (hf.inj _ (hp.lt u hu) _ (hp.lt w hw) heq)
  case image =>
    constructor
    · rintro ⟨u, hu, rfl⟩
      exact (himage (p u) (hp.lt u hu)).1 ⟨u, hu, rfl⟩
    · rintro ⟨w, hw, rfl⟩
      obtain ⟨v, hv, heq⟩ := hf.surj (hq.lt w hw)
      obtain ⟨u, hu, rfl⟩ := (himage v hv).2 ⟨w, hw, heq.symm⟩
      exact ⟨u, hu, heq⟩
  case null => exact ((congrArg f hp.null).trans hf.null).trans hq.null.symm
  case selector =>
    have heq : f (p u) = q w := heq
    rw [← Option.map_map, ← hp.selector u hu, ← hf.selector _ (hp.lt u hu), heq, hq.selector w hw]
  case var => rw [← Option.map_map, ← hp.var, ← hf.var, hq.var]
  case summaries =>
    refine .trans (.of_eq ?_) (((hp.summaries_perm.map (Summary.map f)).trans hf.summaries).trans
      hq.summaries_perm.symm)
    rw [List.map_map]
    exact map_congr_left fun e _ => Summary.map_map.symm

end Heap

namespace Abstraction

/-! ### Canonical shapes -/

/-- The canonical shape is the normal form of what any complete list of folds leaves, of the heap or
of a renumbered heap. -/
theorem FoldsTo.exists_shapeAt_eq {m : List Node} {b : Heap} {f q : Node → Node} (hA : A.IsDistinct)
    (hf : Heap.IsRenumbering f g h) (hg : g.InRange) (hreached : h.IsReached)
    (hm : A.FoldsTo depth h m h') (hh' : ∀ v, ¬A.IsFoldable depth h' v) (hq : Heap.IsCore q b h')
    (hb : b.InRange) (himage' : ∀ v, (∃ u < b.size, q u = v) ↔ v < h.size ∧ v ∉ m) :
    ∃ a, Heap.Isomorphic b a ∧ A.shapeAt depth g = a.normalize := by
  obtain ⟨l, g', a, p, hl, hg', ha, hp, himage, hshape⟩ := exists_foldsTo_shapeAt A depth hg
  obtain ⟨hf', hperm⟩ := hl.isRenumbering hA hf hg hreached hm hg' hh'
  have hkept (v : Node) (hv : v < g'.size) : (∃ u < a.size, p u = v) ↔ ∃ u < b.size, q u = f v := by
    rw [hl.size] at hv
    rw [himage, himage', ← hperm.mem_iff]
    refine and_congr (iff_of_true hv (hf.lt v hv)) (not_congr ⟨mem_map_of_mem, fun hmem => ?_⟩)
    obtain ⟨u, hu, heq⟩ := mem_map.1 hmem
    exact hf.inj u (hl.lt_size hg u hu) v hv heq ▸ hu
  exact ⟨a, (hp.isomorphic hq hb hf' hkept).symm ha, hshape⟩

theorem shapeAt_eq_of_isomorphic (hA : A.IsDistinct) (hgh : Heap.Isomorphic g h) (hg : g.InRange)
    (htrim : g.IsTrim) (hapart : g.IsApart) (hconceals : A.Conceals g) (depth : Nat) :
    A.shapeAt depth g = A.shapeAt depth h := by
  have hreached : g.IsReached := fun k hk v hv => htrim v (hg.lt_of_mem_connections hk hv)
  obtain ⟨f, hf⟩ := hgh.symm hg
  obtain ⟨l, g', b, q, hl, hg', hb, hq, himage, hshape⟩ := exists_foldsTo_shapeAt A depth hg
  obtain ⟨a, hiso, hshape'⟩ :=
    hl.exists_shapeAt_eq hA hf (hgh.inRange hg) hreached hg' hq hb himage
  rw [hshape, hshape']
  refine hiso.normalize_eq_of_isApart hb (hq.isApart hb (hl.isApart hA hapart hconceals).1)
    fun u hu => ?_
  obtain ⟨hlt, hmem⟩ := (himage (q u)).1 ⟨u, hu, rfl⟩
  exact (hq.isLive_iff hb hu).1 (hl.isLive hmem (htrim _ hlt))

/-- Isomorphic heaps without garbage have the same canonical shape, if no two summaries of one label
start at the same node, and no summary of a chain starts where the selector of the chain is set. -/
theorem canonical_eq_of_isomorphic (A : Abstraction) (hA : A.IsDistinct) (g h : Heap)
    (hgh : Heap.Isomorphic g h) (hg : g.InRange) (hlive : ∀ v < g.size, g.IsLive v)
    (hlabels : g.IsLabelled)
    (hconceals : ∀ chain ∈ A.chains, ∀ v w, ⟨chain.label, [v, w]⟩ ∈ g.summaries →
      g.selector? v chain.selector = none) : A.canonical g = A.canonical h :=
  shapeAt_eq_of_isomorphic hA hgh hg hlive hlabels.isApart hconceals A.depth

/-- A ring from the node of `x`, with a segment in it. -/
def wheel : Heap :=
  ⟨[∅, .ofList [("next", 2)], .ofList [("next", 3)], .ofList [("next", 4)], ∅,
    .ofList [("next", 1)]], .ofList [("x", 1)], [⟨"SLL", [4, 5]⟩]⟩

/-- The same ring with its nodes in another order, so that another node is folded first. -/
def wheelRenumbered : Heap :=
  ⟨[∅, .ofList [("next", 4)], .ofList [("next", 3)], .ofList [("next", 1)], .ofList [("next", 5)],
    ∅], .ofList [("x", 3)], [⟨"SLL", [5, 2]⟩]⟩

theorem canonical_eq_of_isomorphic_wheel : behindFirst.IsDistinct ∧
    Heap.Isomorphic wheel wheelRenumbered ∧ wheel.InRange ∧ (∀ v < wheel.size, wheel.IsLive v) ∧
    wheel.IsLabelled ∧ (behindFirst.foldAll 1 6 wheel []).2 = [5, 4, 3] ∧
    (behindFirst.foldAll 1 6 wheelRenumbered []).2 = [5, 4, 2] ∧
    behindFirst.canonical wheel = behindFirst.canonical wheelRenumbered := by
  have hA : behindFirst.IsDistinct := by decide +kernel
  have hg : wheel.InRange := by decide +kernel
  have hh : wheelRenumbered.InRange := by decide +kernel
  have heq : wheel.normalize = wheelRenumbered.normalize := by decide +kernel
  have hgh := hg.isomorphic_of_normalize_eq hh heq
  have hlive : ∀ v < wheel.size, wheel.IsLive v := by
    have hreach : ∀ v < wheel.size, v ∈ wheel.reach wheel.roots := by decide +kernel
    exact fun v hv => hg.mem_reach_roots_iff.1 (hreach v hv)
  have hlabels : wheel.IsLabelled := by decide +kernel
  have hdet : behindFirst.IsDeterministic wheel := by decide +kernel
  exact ⟨hA, hgh, hg, hlive, hlabels, by decide +kernel, by decide +kernel,
    canonical_eq_of_isomorphic behindFirst hA wheel wheelRenumbered hgh hg hlive hlabels hdet.hidden⟩

end Abstraction

end ShapeCheck
