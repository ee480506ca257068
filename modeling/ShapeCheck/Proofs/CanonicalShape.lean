import ShapeCheck.Proofs.Paths
import ShapeCheck.Proofs.NormalForm

/-!
# Canonical shapes are their own

Folding stops when no node can be folded. Whether a node can be folded depends on the connections
around it and on how near a variable is, and neither changes when nodes without connections are
dropped and the others are renumbered. So a canonical shape has nothing left to fold. Where no summary
has more than two ends, it is its own normal form and its own canonical shape.
-/

namespace ShapeCheck

open List

variable {A : Abstraction} {g g' h h' : Heap} {chain : Chain} {u v w s t : Node}

namespace Heap

/-- A part outside which the heap has no connections. -/
structure IsCore (f : Node → Node) (g h : Heap) : Prop extends IsPart f g h where
  owner : ∀ v sel w, h.selector? v sel = some w → ∃ u < g.size, f u = v
  ends : ∀ e ∈ h.summaries, ∀ v ∈ e.ends, ∃ u < g.size, f u = v

theorem IsRenumbering.isCore {f : Node → Node} (hf : IsRenumbering f g h) (hh : h.InRange) :
    IsCore f g h where
  toIsPart := hf.isPart hh
  owner _ _ _ hw := hf.surj (lt_size_of_selector? hw)
  ends e he v hv := hf.surj (hh.ends e he v hv)

namespace IsCore

variable {f : Node → Node}

theorem summaries_perm (hf : IsCore f g h) : (g.summaries.map (Summary.map f)).Perm h.summaries := by
  refine hf.summaries.trans (.of_eq (filter_eq_self.2 fun e he => ?_))
  refine all_eq_true.2 fun v hv => ?_
  obtain ⟨u, hu, rfl⟩ := hf.ends e he v hv
  exact decide_eq_true (mem_map_of_mem (mem_nodes.2 hu))

theorem trans {k : Heap} {f' : Node → Node} (hf : IsCore f g h) (hg : g.InRange)
    (hf' : IsCore f' k g) : IsCore (f ∘ f') k h := by
  have hends : ∀ e ∈ h.summaries, ∀ v ∈ e.ends, ∃ u < k.size, f (f' u) = v := by
    intro e he v hv
    obtain ⟨e, hmem, rfl⟩ := mem_map.1 (hf.summaries_perm.mem_iff.2 he)
    obtain ⟨u, hu, rfl⟩ := mem_map.1 hv
    obtain ⟨u, hlt, rfl⟩ := hf'.ends e hmem u hu
    exact ⟨u, hlt, rfl⟩
  refine ⟨⟨(congrArg f hf'.null).trans hf.null, fun v hv => hf.lt _ (hf'.lt v hv), fun v hv w hw heq =>
    hf'.inj v hv w hw (hf.inj _ (hf'.lt v hv) _ (hf'.lt w hw) heq), ?closed, fun v hv sel => ?selector,
    fun x => ?var, ?summaries⟩, ?owner, hends⟩
  case closed =>
    intro v hv w hw
    obtain ⟨w, rfl, hleads⟩ := hf.exists_leads hg (hf'.lt v hv) hw
    obtain ⟨u, hu, rfl⟩ := hf'.closed v hv w hleads
    exact ⟨u, hu, rfl⟩
  case selector => rw [Function.comp, hf.selector _ (hf'.lt v hv), hf'.selector v hv, Option.map_map]
  case var => rw [hf.var, hf'.var, Option.map_map]
  case summaries =>
    have hmap : k.summaries.map (Summary.map (f ∘ f')) =
        (k.summaries.map (Summary.map f')).map (Summary.map f) := by
      rw [List.map_map]
      exact map_congr_left fun e _ => Summary.map_map.symm
    rw [hmap, filter_eq_self.2 fun e he => all_eq_true.2 fun v hv => ?_]
    · exact (hf'.summaries_perm.map _).trans hf.summaries_perm
    · obtain ⟨u, hu, rfl⟩ := hends e he v hv
      exact decide_eq_true (mem_map_of_mem (mem_nodes.2 hu))
  case owner =>
    intro v sel w hw
    obtain ⟨u, hu, rfl⟩ := hf.owner v sel w hw
    rw [hf.selector u hu, Option.map_eq_some_iff] at hw
    obtain ⟨w, hw, -⟩ := hw
    obtain ⟨u, hlt, rfl⟩ := hf'.owner u sel w hw
    exact ⟨u, hlt, rfl⟩

theorem connections_perm (hf : IsCore f g h) (hg : g.InRange) :
    (g.connections.map (Connection.map f)).Perm h.connections := by
  refine Heap.connections_perm (fun u sel w u' w' hw hw' hu ht => ?_) (fun u sel w => ?_)
    hf.summaries_perm
  · exact ⟨hf.inj u (lt_size_of_selector? hw) u' (lt_size_of_selector? hw') hu,
      hf.inj w (hg.selector u sel w hw) w' (hg.selector u' sel w' hw') ht⟩
  · constructor
    · intro hw
      obtain ⟨u, hu, rfl⟩ := hf.owner u sel w hw
      rw [hf.selector u hu, Option.map_eq_some_iff] at hw
      obtain ⟨w, hw, rfl⟩ := hw
      exact ⟨u, w, hw, rfl, rfl⟩
    · rintro ⟨u, w, hw, rfl, rfl⟩
      rw [hf.selector u (lt_size_of_selector? hw), hw, Option.map_some]

theorem isSome_foldAt? (hf : IsCore f g h) (hg : g.InRange) (hv : v < g.size)
    (hsome : (g.foldAt? chain v).isSome) : (h.foldAt? chain (f v)).isSome := by
  obtain ⟨fold, hfold⟩ := Option.isSome_iff_exists.1 hsome
  obtain ⟨fold', hfold', -⟩ := ((isInside_of_foldAt? hfold).map
    (fun k hk u hu => hf.inj u (hg.lt_of_mem_connections hk hu) v hv)
    (hf.connections_perm hg)).exists_foldAt?
  rw [hfold', Option.isSome_some]

end IsCore

namespace IsContraction

theorem lt_size (hc : IsContraction chain s v t h h') (hh : h.InRange) : s < h.size ∧ t < h.size :=
  ⟨hh.lt_of_leads hc.source_leads, hh.lt_of_mem_successors hc.leads_target⟩

theorem inRange (hc : IsContraction chain s v t h h') (hh : h.InRange) (hsize : h'.size = h.size) :
    h'.InRange := by
  refine inRange_of_connections (hsize ▸ hh.pos) (fun x u hu => ?_) fun k hk u hu => ?_
  · exact hsize ▸ hh.var x u (hc.var x ▸ hu)
  · rw [hsize]
    rcases hc.mem_connections_iff.1 hk with rfl | ⟨hk, -⟩
    · have hcases : u = s ∨ u = t := by simpa [Connection.ends] using hu
      rcases hcases with rfl | rfl
      · exact (hc.lt_size hh).1
      · exact (hc.lt_size hh).2
    · exact hh.lt_of_mem_connections hk hu

end IsContraction

end Heap

namespace Abstraction

variable {f : Fold} {n steps depth : Nat} {folded : List Node}

theorem findFold?_eq_none_iff : A.findFold? h depth folded = none ↔
    ∀ chain ∈ A.chains, ∀ v < h.size, v ≠ Node.null → v ∉ folded → v ∉ h.near depth →
      h.foldAt? chain v = none := by
  simp only [findFold?, findSome?_eq_none_iff, Heap.mem_tail_nodes_iff, Bool.or_eq_true,
    decide_eq_true_eq, ite_eq_left_iff, not_or, and_imp]

/-- The state of folding along any chains: the nodes folded so far are different, and they have no
connection left. -/
structure IsReducing (n : Nat) (g : Heap) (folded : List Node) : Prop where
  inRange : g.InRange
  size : g.size = n
  null : Node.null ∉ folded
  nodup : folded.Nodup
  lt : ∀ v ∈ folded, v < n
  var_ne : ∀ v ∈ folded, ∀ x, g.var? x ≠ some v
  not_mem_ends : ∀ v ∈ folded, ∀ k ∈ g.connections, v ∉ k.ends

namespace IsReducing

theorem start (hh : h.InRange) : IsReducing h.size h [] :=
  ⟨hh, rfl, by simp, .nil, by simp, by simp, by simp⟩

theorem length_le (hred : IsReducing n g folded) : folded.length ≤ n :=
  length_le_of_nodup hred.nodup hred.lt

theorem isFolding (hred : IsReducing n g folded) : IsFolding { chains := [] } n g folded where
  inRange := hred.inRange
  det := ⟨by simp, by simp⟩
  size := hred.size
  null := hred.null
  bare v hv sel := Option.eq_none_iff_forall_ne_some.2 fun w hw =>
    hred.not_mem_ends v hv _ (Heap.selector_mem_connections.2 hw) mem_cons_self
  selector_ne v hv u sel hu :=
    hred.not_mem_ends v hv _ (Heap.selector_mem_connections.2 hu) (by simp [Connection.ends])
  not_mem_ends v hv e he := hred.not_mem_ends v hv _ (Heap.summary_mem_connections.2 he)
  var_ne := hred.var_ne

theorem step (hred : IsReducing n g folded) (hc : Heap.IsContraction chain s v t g g')
    (hsize : g'.size = g.size) (hlt : v < g.size) (hnull : v ≠ Node.null) (hnew : v ∉ folded)
    (hvar : ∀ x, g.var? x ≠ some v) : IsReducing n g' (v :: folded) where
  inRange := hc.inRange hred.inRange hsize
  size := hsize.trans hred.size
  null := by
    rw [mem_cons, not_or]
    exact ⟨hnull.symm, hred.null⟩
  nodup := nodup_cons.2 ⟨hnew, hred.nodup⟩
  lt := forall_mem_cons.2 ⟨hred.size ▸ hlt, hred.lt⟩
  var_ne := by
    simp only [hc.var]
    exact forall_mem_cons.2 ⟨hvar, hred.var_ne⟩
  not_mem_ends := by
    refine forall_mem_cons.2 ⟨fun k => hc.not_mem_ends, fun u hu k hk hmem => ?_⟩
    rcases hc.mem_connections_iff.1 hk with rfl | ⟨hk, -⟩
    · obtain ⟨a, ha, hs, -⟩ := Heap.leads_iff_connections.1 hc.source_leads
      obtain ⟨b, hb, -, ht⟩ := Heap.leads_iff_connections.1 hc.leads_target
      have hcases : u = s ∨ u = t := by simpa [Connection.ends] using hmem
      rcases hcases with rfl | rfl
      · exact hred.not_mem_ends u hu a ha (mem_of_mem_head? hs)
      · exact hred.not_mem_ends u hu b hb (mem_of_mem_tail ht)
    · exact hred.not_mem_ends u hu k hk hmem

theorem step_of_findFold? (hred : IsReducing n g folded) (hf : A.findFold? g depth folded = some f) :
    IsReducing n (f.apply g) (f.node :: folded) := by
  obtain ⟨chain, -, hfold, hlt, hnull, hnew, hnear⟩ := findFold?_eq_some hf
  exact hred.step (Heap.isContraction_apply hfold) Heap.size_apply hlt hnull hnew fun x hx =>
    hnear (Heap.mem_near_of_var? hx depth)

theorem foldAll_induction (A : Abstraction) (depth steps : Nat) {P : Heap → List Node → Prop}
    (hfold : ∀ g g' folded, ∀ chain ∈ A.chains, ∀ s v t, IsReducing n g folded →
      Heap.IsContraction chain s v t g g' → g'.size = g.size → v < g.size → v ≠ Node.null →
        v ∉ folded → v ∉ g.near depth → P g folded → P g' (v :: folded))
    (hred : IsReducing n g folded) (hP : P g folded) :
    IsReducing n (A.foldAll depth steps g folded).1 (A.foldAll depth steps g folded).2 ∧
      P (A.foldAll depth steps g folded).1 (A.foldAll depth steps g folded).2 := by
  induction steps generalizing g folded with
  | zero => exact ⟨hred, hP⟩
  | succ steps ih =>
    rw [Abstraction.foldAll]
    split
    · exact ⟨hred, hP⟩
    · next f hf =>
      obtain ⟨chain, hchain, hat, hlt, hnull, hnew, hnear⟩ := findFold?_eq_some hf
      exact ih (hred.step_of_findFold? hf)
        (hfold _ _ _ chain hchain _ _ _ hred (Heap.isContraction_apply hat) Heap.size_apply hlt hnull
          hnew hnear hP)

theorem foldAll (hred : IsReducing n g folded) (A : Abstraction) (depth steps : Nat) :
    IsReducing n (A.foldAll depth steps g folded).1 (A.foldAll depth steps g folded).2 :=
  (foldAll_induction A depth steps (P := fun _ _ => True)
    (fun _ _ _ _ _ _ _ _ _ _ _ _ _ _ _ _ => trivial) hred trivial).1

/-- Folding stops when no node can be folded: there are only so many nodes. -/
theorem findFold?_foldAll (hred : IsReducing n g folded) (A : Abstraction) (depth : Nat)
    (hsteps : n ≤ steps + folded.length) :
    A.findFold? (A.foldAll depth steps g folded).1 depth (A.foldAll depth steps g folded).2 =
      none := by
  induction steps generalizing g folded with
  | zero =>
    rw [Abstraction.foldAll]
    cases hf : A.findFold? g depth folded with
    | none => rfl
    | some f =>
      have hlength := (hred.step_of_findFold? hf).length_le
      rw [length_cons] at hlength
      omega
  | succ steps ih =>
    rw [Abstraction.foldAll]
    split
    · assumption
    · next f hf =>
      refine ih (hred.step_of_findFold? hf) ?_
      rw [length_cons]
      omega

theorem exists_isCore (hred : IsReducing n g folded) :
    ∃ f, Heap.IsCore f (g.dropNodes ((List.range n).map (· ∈ folded))) g ∧
      ∀ v, (∃ u < (g.dropNodes ((List.range n).map (· ∈ folded))).size, f u = v) ↔
        v < n ∧ v ∉ folded := by
  obtain ⟨f, hf, himage⟩ := hred.isFolding.isPart_dropNodes
  refine ⟨f, ⟨hf, fun v sel w hw => ?_, fun e he v hv => ?_⟩, himage⟩
  · refine (himage v).2 ⟨hred.size ▸ Heap.lt_size_of_selector? hw, fun hmem => ?_⟩
    exact hred.not_mem_ends v hmem _ (Heap.selector_mem_connections.2 hw) mem_cons_self
  · exact (himage v).2 ⟨hred.size ▸ hred.inRange.ends e he v hv, fun hmem =>
      hred.not_mem_ends v hmem _ (Heap.summary_mem_connections.2 he) hv⟩

end IsReducing

theorem mem_near_zero_iff : v ∈ h.near 0 ↔ ∃ x, h.var? x = some v :=
  Heap.mem_near_iff

theorem findFold?_of_isCore {f : Node → Node} (hf : Heap.IsCore f g h) (hg : g.InRange)
    (hunfolded : ∀ u < g.size, f u ∉ folded) (hnone : A.findFold? h depth folded = none) :
    A.findFold? g depth [] = none := by
  refine findFold?_eq_none_iff.2 fun chain hchain v hv hnull _ hnear => ?_
  by_contra hsome
  refine Option.isSome_iff_ne_none.1 (hf.isSome_foldAt? hg hv (Option.isSome_iff_ne_none.2 hsome))
    (findFold?_eq_none_iff.1 hnone chain hchain (f v) (hf.lt v hv) (fun heq => ?_) (hunfolded v hv) ?_)
  · exact hnull (hf.inj v hv Node.null hg.pos (heq.trans hf.null.symm))
  · rwa [hf.mem_near_iff hg hv]

theorem shapeAt_of_findFold?_eq_none (hnone : A.findFold? h depth [] = none) :
    A.shapeAt depth h = h.normalize := by
  have hfold : A.foldAll depth h.size h [] = (h, []) := by
    cases h.size with
    | zero => rfl
    | succ n => rw [foldAll, hnone]
  have hdrop : h.dropNodes (h.nodes.map (· ∈ ([] : List Node))) = h := by
    rw [Heap.dropNodes, if_neg]
    simp
  rw [shapeAt, hfold]
  exact congrArg Heap.normalize hdrop

end Abstraction

namespace Heap

variable {depth : Nat}

section

variable (hh : h.InRange) (A depth)
include hh

theorem InRange.inRange_shapeAt : (A.shapeAt depth h).InRange :=
  (((Abstraction.IsReducing.start hh).foldAll A depth h.size).inRange.inRange_dropNodes
    _).inRange_normalize

/-- The canonical shape holds all connections of the folded heap, and no node of it has been folded. -/
theorem InRange.exists_isCore_shapeAt :
    ∃ f, IsCore f (A.shapeAt depth h) (A.foldAll depth h.size h []).1 ∧
      ∀ u < (A.shapeAt depth h).size, f u ∉ (A.foldAll depth h.size h []).2 := by
  have hred := (Abstraction.IsReducing.start hh).foldAll A depth h.size
  obtain ⟨f, hf, himage⟩ := hred.exists_isCore
  have hdrop := hred.inRange.inRange_dropNodes
    ((List.range h.size).map (· ∈ (A.foldAll depth h.size h []).2))
  have hnormal := hdrop.isRenumbering_normalize
  exact ⟨_, hf.trans hdrop (hnormal.isCore hdrop), fun u hu =>
    ((himage _).1 ⟨_, hnormal.lt u hu, rfl⟩).2⟩

theorem InRange.findFold?_shapeAt : A.findFold? (A.shapeAt depth h) depth [] = none := by
  obtain ⟨f, hf, hunfolded⟩ := hh.exists_isCore_shapeAt A depth
  exact Abstraction.findFold?_of_isCore hf (hh.inRange_shapeAt A depth) hunfolded
    ((Abstraction.IsReducing.start hh).findFold?_foldAll A depth (by simp))

/-- A canonical shape is a normal form. Folding adds summaries with two ends only. -/
theorem InRange.exists_normalize_eq_shapeAt :
    ∃ g : Heap, g.InRange ∧ A.shapeAt depth h = g.normalize ∧ ∀ e ∈ g.summaries,
      e.ends.length = 2 ∨ ∃ e' ∈ h.summaries, e'.ends.length = e.ends.length := by
  obtain ⟨hred, hends⟩ := Abstraction.IsReducing.foldAll_induction A depth h.size
    (P := fun g _ => ∀ e ∈ g.summaries, e.ends.length = 2 ∨
      ∃ e' ∈ h.summaries, e'.ends.length = e.ends.length)
    (fun g g' folded chain _ s v t _ hc _ _ _ _ _ hP e he => by
      rcases hc.mem_summaries_iff.1 he with rfl | ⟨he, -⟩
      · exact .inl rfl
      · exact hP e he)
    (.start hh) fun e he => .inr ⟨e, he, rfl⟩
  obtain ⟨f, hf, -⟩ := hred.exists_isCore
  refine ⟨_, hred.inRange.inRange_dropNodes _, rfl, fun e he => ?_⟩
  simpa [Summary.map] using hends _ (hf.map_mem_summaries he)

end

/-- No node is garbage. -/
def IsTrim (h : Heap) : Prop :=
  ∀ v < h.size, h.IsLive v

theorem InRange.isTrim_collect (hh : h.InRange) : h.collect.IsTrim := by
  obtain ⟨f, hf, himage⟩ := hh.isPart_collect
  exact fun v hv => (hf.isLive_iff hh.inRange_collect hv).1 ((himage _).2 ⟨v, hv, rfl⟩)

/-- The canonical shape is a part of the folded heap, in which no node has become garbage. -/
theorem InRange.exists_isPart_shapeAt (hh : h.InRange) (A : Abstraction) (depth : Nat) :
    ∃ (g : Heap) (f : Node → Node), IsPart f (A.shapeAt depth h) g ∧ g.size = h.size ∧
      (∀ x, g.var? x = h.var? x) ∧
        ∀ u < (A.shapeAt depth h).size, h.IsLive (f u) → g.IsLive (f u) := by
  obtain ⟨hred, hvar, hlive⟩ := Abstraction.IsReducing.foldAll_induction A depth h.size
    (P := fun g folded => (∀ x, g.var? x = h.var? x) ∧ ∀ v ∉ folded, h.IsLive v → g.IsLive v)
    (fun g g' folded chain _ s v t _ hc _ _ hnull _ hnear hP => by
      refine ⟨fun x => (hc.var x).trans (hP.1 x), fun u hu hlive => ?_⟩
      rw [mem_cons, not_or] at hu
      exact (hc.isLive_iff (not_mem_roots hnull hnear) hu.1).2 (hP.2 u hu.2 hlive))
    (.start hh) ⟨fun _ => rfl, fun _ _ => id⟩
  obtain ⟨f, hf, hunfolded⟩ := hh.exists_isCore_shapeAt A depth
  exact ⟨_, f, hf.toIsPart, hred.size, hvar, fun u hu => hlive (f u) (hunfolded u hu)⟩

theorem InRange.isTrim_shapeAt (hh : h.InRange) (A : Abstraction) (htrim : h.IsTrim) (depth : Nat) :
    (A.shapeAt depth h).IsTrim := by
  obtain ⟨g, f, hf, hsize, -, hlive⟩ := hh.exists_isPart_shapeAt A depth
  intro v hv
  exact (hf.isLive_iff (hh.inRange_shapeAt A depth) hv).1
    (hlive v hv (htrim _ (hsize ▸ hf.lt v hv)))

theorem InRange.size_shapeAt_le (hh : h.InRange) (A : Abstraction) (depth : Nat) :
    (A.shapeAt depth h).size ≤ h.size := by
  obtain ⟨g, f, hf, hsize, -⟩ := hh.exists_isPart_shapeAt A depth
  exact hsize ▸ hf.size_le

theorem InRange.isSome_var?_shapeAt (hh : h.InRange) (A : Abstraction) (depth : Nat) (x : String) :
    ((A.shapeAt depth h).var? x).isSome ↔ (h.var? x).isSome := by
  obtain ⟨g, f, hf, -, hvar, -⟩ := hh.exists_isPart_shapeAt A depth
  rw [← hvar, hf.var, Option.isSome_map]

namespace IsSlim

theorem normalize_shapeAt (hh : h.IsSlim) (A : Abstraction) (depth : Nat) :
    (A.shapeAt depth h).normalize = A.shapeAt depth h := by
  obtain ⟨g, hg, hshape, hends⟩ := hh.inRange.exists_normalize_eq_shapeAt A depth
  have hslim : g.IsSlim := by
    refine ⟨hg, fun e he => ?_⟩
    rcases hends e he with htwo | ⟨e', he', hlength⟩
    · exact Nat.le_of_eq htwo
    · exact hlength ▸ hh.short e' he'
  rw [hshape, hslim.normalize_normalize]

theorem shapeAt_shapeAt (hh : h.IsSlim) (A : Abstraction) (depth : Nat) :
    A.shapeAt depth (A.shapeAt depth h) = A.shapeAt depth h := by
  rw [Abstraction.shapeAt_of_findFold?_eq_none (hh.inRange.findFold?_shapeAt A depth),
    hh.normalize_shapeAt]

end IsSlim

namespace IsRegular

theorem shapeAt (hh : h.IsRegular) (A : Abstraction) (depth : Nat) :
    (A.shapeAt depth h).IsRegular := by
  obtain ⟨g, hg, hshape, hends⟩ := hh.inRange.exists_normalize_eq_shapeAt A depth
  have hregular : g.IsRegular := by
    refine ⟨hg, fun e he => ?_⟩
    rcases hends e he with htwo | ⟨e', he', hlength⟩
    · exact htwo
    · exact hlength ▸ hh.paired e' he'
  exact hshape ▸ hregular.normalize

theorem normalize_shapeAt (hh : h.IsRegular) (A : Abstraction) (depth : Nat) :
    (A.shapeAt depth h).normalize = A.shapeAt depth h :=
  hh.isSlim.normalize_shapeAt A depth

theorem shapeAt_shapeAt (hh : h.IsRegular) (A : Abstraction) :
    A.shapeAt 0 (A.shapeAt 0 h) = A.shapeAt 0 h :=
  hh.isSlim.shapeAt_shapeAt A 0

end IsRegular

end Heap

namespace Abstraction

/-- The canonical shape, the most general shape and the normal form of a heap without summaries of more
than two ends are their own. -/
theorem shapes_idempotent (A : Abstraction) (h : Heap) (hh : h.InRange)
    (hshort : ∀ e ∈ h.summaries, e.ends.length ≤ 2) :
    A.canonical (A.canonical h) = A.canonical h ∧ A.coarsest (A.coarsest h) = A.coarsest h ∧
      h.normalize.normalize = h.normalize := by
  have hslim : h.IsSlim := ⟨hh, hshort⟩
  exact ⟨hslim.shapeAt_shapeAt A A.depth, hslim.shapeAt_shapeAt A 0, hslim.normalize_normalize⟩

/-- Four summaries with the same label leave the node of `x`, and a list leads from the node of `y` to
one of their ends; the last two nodes are garbage. -/
def forked : Heap :=
  ⟨[∅, ∅, ∅, ∅, .ofList [("next", 5)], .ofList [("next", 6)], .ofList [("next", 7)],
      .ofList [("next", 2)], ∅, .ofList [("next", 8)]],
    .ofList [("x", 1), ("y", 4)], [⟨"SLL", [1, 3]⟩, ⟨"SLL", [1]⟩, ⟨"SLL", [1, 2]⟩, ⟨"SLL", [1, 3]⟩]⟩

/-- Lists are summarised from the second step on. -/
def behindFirst : Abstraction :=
  { depth := 1 }

theorem shapes_idempotent_forked : forked.InRange ∧ (∀ e ∈ forked.summaries, e.ends.length ≤ 2) ∧
    forked.size = 10 ∧ (behindFirst.canonical forked).size = 8 ∧
    (behindFirst.coarsest forked).size = 7 ∧
    behindFirst.canonical (behindFirst.canonical forked) = behindFirst.canonical forked ∧
    behindFirst.coarsest (behindFirst.coarsest forked) = behindFirst.coarsest forked ∧
    forked.normalize.normalize = forked.normalize := by
  have hh : forked.InRange := by decide +kernel
  have hshort : ∀ e ∈ forked.summaries, e.ends.length ≤ 2 := by decide +kernel
  exact ⟨hh, hshort, rfl, by decide +kernel, by decide +kernel,
    shapes_idempotent behindFirst forked hh hshort⟩

end Abstraction

end ShapeCheck
