import ShapeCheck.Proofs.Containment
import ShapeCheck.Code.Proposition

/-!
# Propositions do not see abstraction

A proposition asks which variables name the same node, whether a path leads from one named node to
another, and whether a path from a named node runs out: ends in null, or in a node that leads nowhere.
One heap *traces* another if its named nodes stand for the named nodes of the other, and the answers
agree. A part traces its heap. A heap with a node folded traces the heap, as the folded node has no
name and leads on. And an unfolded heap is one that folds back to the heap. So propositions have the
same truth before and after garbage collection, numbering, folding and unfolding.
-/

namespace ShapeCheck

open Relation List

namespace Heap

variable {g h h' : Heap} {chain : Chain} {u v w s t : Node}

/-- A path from the node ends in null, or in a node that leads nowhere. -/
def RunsOut (h : Heap) (u : Node) : Prop :=
  ∃ w, ReflTransGen h.Leads u w ∧ (w = Node.null ∨ h.successors w = [])

theorem successors_eq_nil_iff : h.successors u = [] ↔ ∀ w, ¬h.Leads u w :=
  eq_nil_iff_forall_not_mem

theorem InRange.reaches_iff (hh : h.InRange) (hu : u < h.size) : h.reaches u w ↔
    u ≠ Node.null ∧ if w = Node.null then h.RunsOut u else TransGen h.Leads u w := by
  have hout : ((h.reach [u]).any fun v => v = Node.null || (h.successors v).isEmpty) ↔ h.RunsOut u := by
    simp [any_eq_true, hh.mem_reach_iff, RunsOut, hu]
  have hpath : (w ∈ h.successors u || w ∈ h.reach (h.successors u)) ↔ TransGen h.Leads u w := by
    rw [Bool.or_eq_true, decide_eq_true_eq, decide_eq_true_eq, hh.mem_reach_iff, TransGen.head'_iff]
    constructor
    · rintro (hw | ⟨r, hr, -, hrw⟩)
      · exact ⟨w, hw, .refl⟩
      · exact ⟨r, hr, hrw⟩
    · rintro ⟨r, hr, hrw⟩
      exact .inr ⟨r, hr, hh.lt_of_mem_successors hr, hrw⟩
  rw [reaches]
  split
  · next hnull => simp [hnull]
  · next hnull =>
    split
    · rw [hout]
      simp [hnull]
    · rw [hpath]
      simp [hnull]

/-- The nodes of `g` with the property `S` stand for nodes of `h`: all named nodes have it, and paths
between them, and out of them, are the same in both heaps. -/
structure IsTracing (f : Node → Node) (S : Node → Prop) (g h : Heap) : Prop where
  null : f Node.null = Node.null
  null_mem : S Node.null
  inj : ∀ v w, S v → S w → f v = f w → v = w
  var : ∀ x, h.var? x = (g.var? x).map f
  named : ∀ x v, g.var? x = some v → S v
  transGen : ∀ u w, S u → S w → (TransGen h.Leads (f u) (f w) ↔ TransGen g.Leads u w)
  runsOut : ∀ u, S u → (h.RunsOut (f u) ↔ g.RunsOut u)

theorem IsPart.isTracing {f : Node → Node} (hf : IsPart f g h) (hg : g.InRange) :
    IsTracing f (· < g.size) g h where
  null := hf.null
  null_mem := hg.pos
  inj v w hv hw := hf.inj v hv w hw
  var := hf.var
  named := hg.var
  transGen u w hu hw := hf.transGen_iff hg hu hw
  runsOut u hu := by
    have hnil {w} (hw : w < g.size) : h.successors (f w) = [] ↔ g.successors w = [] := by
      rw [successors_eq_nil_iff, successors_eq_nil_iff]
      constructor
      · exact fun hnone a ha => hnone (f a) (hf.leads ha)
      · intro hnone a ha
        obtain ⟨b, -, hb⟩ := hf.exists_leads hg hw ha
        exact hnone b hb
    have hend {w} (hw : w < g.size) : (f w = Node.null ∨ h.successors (f w) = []) ↔
        (w = Node.null ∨ g.successors w = []) := by
      rw [hnil hw]
      refine or_congr_left ⟨fun heq => ?_, fun heq => heq ▸ hf.null⟩
      exact hf.inj w hw Node.null hg.pos (heq.trans hf.null.symm)
    constructor
    · rintro ⟨w, huw, hw⟩
      rcases reflTransGen_iff_eq_or_transGen.1 huw with rfl | huw
      · exact ⟨u, .refl, (hend hu).1 hw⟩
      · obtain ⟨w', hlt, rfl, hpath⟩ := hf.exists_transGen hg hu huw
        exact ⟨w', hpath.to_reflTransGen, (hend hlt).1 hw⟩
    · rintro ⟨w, huw, hw⟩
      have hlt : w < g.size := by
        rcases reflTransGen_iff_eq_or_transGen.1 huw with rfl | huw
        · exact hu
        · obtain ⟨a, -, ha⟩ := TransGen.tail'_iff.1 huw
          exact hg.lt_of_mem_successors ha
      exact ⟨f w, ReflTransGen.lift f (fun _ _ => hf.leads) u w huw, (hend hlt).2 hw⟩

theorem IsContraction.isTracing (hc : IsContraction chain s v t h h') (hroot : v ∉ h.roots) :
    IsTracing id (· ≠ v) h h' where
  null := rfl
  null_mem := fun heq => hroot (heq ▸ mem_cons_self)
  inj _ _ _ _ := id
  var x := by rw [hc.var, Option.map_id_fun, id_eq]
  named x u hu heq := hroot (heq ▸ mem_cons_of_mem _ (mem_values_vars.2 ⟨x, hu⟩))
  transGen u w hu hw := hc.transGen_iff hu hw
  runsOut u hu := by
    have hnil {w} (hw : w ≠ v) : h'.successors w = [] ↔ h.successors w = [] := by
      rw [successors_eq_nil_iff, successors_eq_nil_iff]
      constructor
      · intro hnone a ha
        by_cases hav : a = v
        · subst hav
          exact hnone t (hc.eq_source ha ▸ hc.leads_new)
        · exact hnone a (hc.leads_iff.2 (.inr ⟨ha, hw, hav⟩))
      · intro hnone a ha
        rcases hc.leads_iff.1 ha with ⟨rfl, -⟩ | ⟨ha, -, -⟩
        · exact hnone v hc.source_leads
        · exact hnone a ha
    refine exists_congr fun w => ?_
    by_cases hw : w = v
    · -- In the heap the node leads on, and in the folded heap no path leads to it.
      subst hw
      refine iff_of_false ?_ ?_
      · rintro ⟨huw, -⟩
        rcases reflTransGen_iff_eq_or_transGen.1 huw with heq | huw
        · exact hu heq.symm
        · obtain ⟨a, -, ha⟩ := TransGen.tail'_iff.1 huw
          rcases hc.leads_iff.1 ha with ⟨-, heq⟩ | ⟨-, -, hne⟩
          · exact hc.isInside.target_ne heq.symm
          · exact hne rfl
      · rintro ⟨-, hnull | hnil⟩
        · exact hroot (hnull ▸ mem_cons_self)
        · exact successors_eq_nil_iff.1 hnil t hc.leads_target
    · rw [id_eq, hnil hw, reflTransGen_iff_eq_or_transGen, reflTransGen_iff_eq_or_transGen,
        hc.transGen_iff hu hw]

namespace IsTracing

variable {f : Node → Node} {S : Node → Prop}

theorem valueOf (hf : IsTracing f S g h) (operand : Option String) :
    h.valueOf operand = f (g.valueOf operand) ∧ S (g.valueOf operand) := by
  cases operand with
  | none => exact ⟨hf.null.symm, hf.null_mem⟩
  | some x =>
    have hvar := hf.var x
    cases hx : g.var? x with
    | none => simp [Heap.valueOf, hvar, hx, hf.null, hf.null_mem]
    | some v => simpa [Heap.valueOf, hvar, hx] using hf.named x v hx

theorem eq_null_iff (hf : IsTracing f S g h) (hu : S u) : f u = Node.null ↔ u = Node.null :=
  ⟨fun heq => hf.inj u _ hu hf.null_mem (heq.trans hf.null.symm), fun heq => heq ▸ hf.null⟩

theorem reaches_eq (hf : IsTracing f S g h) (hg : g.InRange) (hh : h.InRange)
    (source target : Option String) :
    h.reaches (h.valueOf source) (h.valueOf target) =
      g.reaches (g.valueOf source) (g.valueOf target) := by
  obtain ⟨hsource, hS⟩ := hf.valueOf source
  obtain ⟨htarget, hT⟩ := hf.valueOf target
  rw [Bool.eq_iff_iff, hh.reaches_iff (valueOf_lt hh source), hg.reaches_iff (valueOf_lt hg source),
    hsource, htarget, hf.runsOut _ hS, hf.transGen _ _ hS hT]
  simp only [ne_eq, hf.eq_null_iff hS, hf.eq_null_iff hT]

end IsTracing

end Heap

namespace Abstraction

variable {A : Abstraction} {h : Heap} {chain : Chain} {v target : Node} {sel : String} {i : Nat}

section Fresh

variable (hh : h.InRange) (hnull : v ≠ Node.null) (hnone : h.selector? v chain.selector = none)
  (hi : h.summaries[i]? = some ⟨chain.label, [v, target]⟩)

include hh hnull hnone hi

theorem connections_splitOff : (splitOff h v chain.selector i).connections.Perm
    (.selector v chain.selector h.size :: (h.dropSummaries [i]).connections) := by
  have hv : v < h.size := hh.ends _ (mem_of_getElem? hi) v mem_cons_self
  refine (Heap.connections_setSelector hnull ?_ ?_).trans (Heap.connections_grow.cons _)
  · simpa using Nat.lt_succ_of_lt hv
  · simpa using hnone

theorem isContraction_of_splitOff {g : Heap} {k : Connection} (hk : chain.IsStep h.size target k)
    (hvar : ∀ x, g.var? x = h.var? x)
    (hg : g.connections.Perm (k :: (splitOff h v chain.selector i).connections)) :
    Heap.IsContraction chain v h.size target g h := by
  have hends := hh.ends _ (mem_of_getElem? hi)
  have hv : v < h.size := hends v (by simp)
  have ht : target < h.size := hends target (by simp)
  have hall := Heap.connections_dropSummaries hi
  have hfresh : ∀ k ∈ (h.dropSummaries [i]).connections, h.size ∉ k.ends := fun k hk hmem =>
    Nat.lt_irrefl _ (hh.lt_of_mem_connections (hall.mem_iff.2 (mem_cons_of_mem _ hk)) hmem)
  have hsplit := hg.trans ((connections_splitOff hh hnull hnone hi).cons k)
  have hstep : chain.IsStep v h.size (.selector v chain.selector h.size) := .inl rfl
  refine ⟨⟨Nat.ne_of_lt hv, Nat.ne_of_lt ht, _, k, hstep, hk, ?around⟩, fun x => (hvar x).symm,
    ?connections⟩
  case around =>
    have hnil : (h.dropSummaries [i]).connections.filter (h.size ∈ ·.ends) = [] :=
      filter_eq_nil_iff.2 fun k' hk' hmem => hfresh k' hk' (of_decide_eq_true hmem)
    refine ((hsplit.filter _).trans (.of_eq ?_)).trans (.swap ..)
    rw [filter_cons_of_pos (by simp [hk.ends_eq]),
      filter_cons_of_pos (by simp [Connection.ends]), hnil]
  case connections =>
    have hself : (h.dropSummaries [i]).connections.filter (h.size ∉ ·.ends) =
        (h.dropSummaries [i]).connections :=
      filter_eq_self.2 fun k' hk' => decide_eq_true (hfresh k' hk')
    refine hall.trans (.cons _ ?_)
    refine .trans (.of_eq ?_) (hsplit.filter _).symm
    rw [filter_cons_of_neg (by simp [hk.ends_eq]),
      filter_cons_of_neg (by simp [Connection.ends]), hself]

end Fresh

/-- Unfolding undoes a fold: each heap is the normal form of one in which folding the fresh node gives
back the heap. -/
theorem isContraction_unfoldAt (hh : h.InRange) {heaps : List Heap} (hhides : A.hides h v sel)
    (hheaps : A.unfoldAt h v sel = .ok heaps) {g' : Heap} (hg' : g' ∈ heaps) :
    ∃ chain ∈ A.chains, ∃ (target : Node) (g : Heap), g' = g.normalize ∧ g.InRange ∧
      Heap.IsContraction chain v h.size target g h := by
  obtain ⟨-, hhidden, -⟩ := hides_iff.1 hhides
  rcases unfoldAt_cases hheaps hg' with
    ⟨-, hsome⟩ | ⟨chain, hchain, i, target, rfl, hnull, hnone, hi, hcases⟩
  · rw [hhidden] at hsome
    cases hsome
  have hends := hh.ends _ (mem_of_getElem? hi)
  have hv : v < h.size := hends v (by simp)
  have ht : target < h.size := hends target (by simp)
  refine ⟨chain, hchain, target, ?_⟩
  rcases hcases with rfl | rfl
  · refine ⟨_, rfl, hh.splitOff_setSelector ht, isContraction_of_splitOff hh hnull hnone hi
      (.inl rfl) (by simp) (Heap.connections_setSelector (Nat.ne_of_gt hh.pos) (by simp) ?_)⟩
    rw [selector?_splitOff hnull hv, if_neg fun heq => Nat.ne_of_gt hv heq.1,
      Heap.selector?_of_size_le (Nat.le_refl _)]
  · exact ⟨_, rfl, hh.splitOff_addSummary ht chain.label, isContraction_of_splitOff hh hnull hnone hi
      (.inr rfl) (by simp) (Heap.connections_addSummary _ _)⟩

end Abstraction

namespace Source.Proposition

variable {A : Abstraction} {g h h' : Heap}

theorem holds_congr {f : Node → Node} {S : Node → Prop} (hf : Heap.IsTracing f S g h) (hg : g.InRange)
    (hh : h.InRange) (p : Source.Proposition) (s : State) :
    p.holds { s with heap := h } = p.holds { s with heap := g } := by
  cases p with
  | compare lhs rhs equal =>
    obtain ⟨hl, hS⟩ := hf.valueOf (some lhs)
    obtain ⟨hr, hT⟩ := hf.valueOf rhs
    have hsame : (h.valueOf (some lhs) == h.valueOf rhs) = (g.valueOf (some lhs) == g.valueOf rhs) := by
      rw [Bool.eq_iff_iff, beq_iff_eq, beq_iff_eq, hl, hr]
      exact ⟨hf.inj _ _ hS hT, fun heq => heq ▸ rfl⟩
    simp only [holds, hsame]
  | reach source target => exact hf.reaches_eq hg hh (some source) target
  | terminated => rfl

theorem holds_normalize (hh : h.InRange) (p : Source.Proposition) (s : State) :
    p.holds { s with heap := h.normalize } = p.holds { s with heap := h } :=
  (holds_congr ((hh.isRenumbering_normalize.isPart hh).isTracing hh.inRange_normalize)
    hh.inRange_normalize hh p s).symm

theorem holds_shapeAt (hh : h.InRange) (A : Abstraction) (depth : Nat) (p : Source.Proposition)
    (s : State) : p.holds { s with heap := A.shapeAt depth h } = p.holds { s with heap := h } := by
  obtain ⟨hred, hfolded⟩ := Abstraction.IsReducing.foldAll_induction A depth h.size
    (P := fun g _ => p.holds { s with heap := g } = p.holds { s with heap := h })
    (fun g g' folded chain _ u v t hred hc hsize _ hnull _ hnear hP =>
      (holds_congr (hc.isTracing (Heap.not_mem_roots hnull hnear)) hred.inRange
        (hc.inRange hred.inRange hsize) p s).trans hP)
    (.start hh) rfl
  obtain ⟨f, hf, -⟩ := hh.exists_isCore_shapeAt A depth
  have hshape := hh.inRange_shapeAt A depth
  exact (holds_congr (hf.isTracing hshape) hshape hred.inRange p s).symm.trans hfolded

/-- A proposition has the same truth at states with the same place and one heap, its canonical shape,
its most general shape, its normal form, what garbage collection leaves of it, and the heaps in which
one of its summaries is unfolded. -/
theorem holds_of_shapes (A : Abstraction) (p : Source.Proposition) (s : State) (hs : s.heap.InRange) :
    p.holds { s with heap := A.canonical s.heap } = p.holds s ∧
      p.holds { s with heap := A.coarsest s.heap } = p.holds s ∧
      p.holds { s with heap := s.heap.normalize } = p.holds s ∧
      p.holds { s with heap := s.heap.collect } = p.holds s ∧
      ∀ v sel heaps, A.hides s.heap v sel → A.unfoldAt s.heap v sel = .ok heaps →
        ∀ g ∈ heaps, p.holds { s with heap := g } = p.holds s := by
  refine ⟨holds_shapeAt hs A _ p s, holds_shapeAt hs A 0 p s, holds_normalize hs p s, ?_,
    fun v sel heaps hhides hheaps g hg => ?_⟩
  · obtain ⟨f, hf, -⟩ := hs.isPart_collect
    exact (holds_congr (hf.isTracing hs.inRange_collect) hs.inRange_collect hs p s).symm
  · obtain ⟨chain, -, target, g, rfl, hrange, hc⟩ :=
      Abstraction.isContraction_unfoldAt hs hhides hheaps hg
    have hroot : s.heap.size ∉ g.roots := by
      rw [← hc.mem_roots_iff]
      exact fun hmem => Nat.lt_irrefl _ (hs.lt_of_isLive ⟨_, hmem, .refl⟩)
    exact (holds_normalize hrange p s).trans (holds_congr (hc.isTracing hroot) hrange hs p s).symm

/-- A ring of four nodes, of which the segment after `x` hides one. -/
def ringState : State :=
  { heap := ⟨[∅, ∅, .ofList [("next", 3)], .ofList [("next", 1)]], .ofList [("x", 1)],
      [⟨"SLL", [1, 2]⟩]⟩
    location := .line 0 }

theorem holds_of_shapes_ringState : ringState.heap.InRange ∧ (reach "x" (some "x")).holds ringState ∧
    ({} : Abstraction).canonical ringState.heap ≠ ringState.heap ∧
    (reach "x" (some "x")).holds { ringState with heap := ({} : Abstraction).canonical ringState.heap } ∧
    ∃ heaps, ({} : Abstraction).unfoldAt ringState.heap 1 "next" = .ok heaps ∧ heaps.length = 2 ∧
      ∀ g ∈ heaps, (reach "x" (some "x")).holds { ringState with heap := g } := by
  have hheap : ringState.heap.InRange := by decide +kernel
  have hholds : (reach "x" (some "x")).holds ringState := by decide +kernel
  obtain ⟨hcanonical, -, -, -, hunfold⟩ :=
    holds_of_shapes ({} : Abstraction) (reach "x" (some "x")) ringState hheap
  have hhides : ({} : Abstraction).hides ringState.heap 1 "next" := by decide +kernel
  refine ⟨hheap, hholds, by decide +kernel, hcanonical.trans hholds, _, rfl, rfl, fun g hg => ?_⟩
  exact (hunfold 1 "next" _ hhides rfl g hg).trans hholds

end Source.Proposition

end ShapeCheck
