import ShapeCheck.Proofs.Adequacy

/-!
# The lasso of a violation

A violation with a cycle is reported as a lasso: the states from a root to the oldest node of a
component, and the states of a shortest way from the node back to itself. The parents of a node lead
to a root because their numbers decrease. The way back is found breadth-first: the search keeps the
nodes it has left behind closed under steps, so it cannot run dry before it meets the first node
again.

The lasso is a path of the space, but the loop that is reported need not be the one because of which
the component shares no release. Whether the lasso violates the formula depends on the threads along
it; as the tableau is finite, threads that are cyclic themselves decide.
-/

namespace ShapeCheck

open Relation List

variable {fp : State → Nat} {sp : StateSpace fp} {labels : Labelling} {a : Formula}

namespace Tableau

variable {T : Tableau} {C done queue : List Nat} {entry id : Nat} {found : List (Nat × Nat)}

/-- Climbing from a node lists the states of a chain of steps from a root. The numbers of parents
decrease, so a node is high enough for the number of steps that are left. -/
theorem IsDerived.climb_spec (hT : T.IsDerived sp labels a) {steps : Nat} (hsteps : id < steps)
    (hid : id < T.size) (path : List StateId) :
    ∃ nodes, T.climb steps (some id) path = (nodes ++ [id]).map T.stateOf ++ path ∧
      List.IsChain T.graph.Edge (nodes ++ [id]) ∧
      ∃ v s, (nodes ++ [id]).head? = some v ∧ s ∈ sp.initial ∧ T.sequent v = Sequent.root a s := by
  induction steps generalizing id path with
  | zero => omega
  | succ steps ih =>
    have hclimb : T.climb (steps + 1) (some id) path =
      T.climb steps (T.parent id) (T.stateOf id :: path) := rfl
    rw [hclimb]
    cases hp : T.parent id with
    | none =>
      obtain ⟨s, hs, hseq⟩ := hT.root id hid hp
      refine ⟨[], ?_, by simp, id, s, rfl, hs, hseq⟩
      cases steps <;> rfl
    | some p =>
      obtain ⟨hlt, hedge⟩ := hT.parent id p hp
      obtain ⟨nodes, hpath, hchain, v, s, hhead, hs, hseq⟩ :=
        @ih p (by omega) (by omega) (T.stateOf id :: path)
      refine ⟨nodes ++ [p], ?_, ?_, v, s, ?_, hs, hseq⟩
      · rw [hpath]
        simp
      · have hstep : List.IsChain T.graph.Edge [p, id] := by simpa using hT.edge_graph.2 hedge
        simpa using isChain_split.2 ⟨hchain, hstep⟩
      · rw [head?_append, hhead]
        rfl

theorem mem_stepsWithin {v w : Nat} : w ∈ T.stepsWithin C v ↔ (v, w) ∈ T.edges ∧ w ∈ C := by
  simp [stepsWithin]

/-- A search has found each node by a step from `entry` or from a node that it found before. -/
inductive IsTrace (T : Tableau) (C : List Nat) (entry : Nat) : List (Nat × Nat) → Prop
  | nil : IsTrace T C entry []
  | snoc {found : List (Nat × Nat)} {t p : Nat} (h : IsTrace T C entry found)
      (ht : t ∈ T.stepsWithin C p) (hnew : t ∉ entry :: found.map Prod.fst)
      (hp : p ∈ entry :: found.map Prod.fst) : IsTrace T C entry (found ++ [(t, p)])

private theorem lookup_eq_none_iff_notMem {t : Nat} :
    found.lookup t = none ↔ t ∉ found.map Prod.fst := by
  rw [lookup_eq_none_iff, mem_map]
  constructor
  · rintro h ⟨p, hp, rfl⟩
    simpa using h p hp
  · intro h p hp
    simpa using fun heq => h ⟨p, hp, heq.symm⟩

namespace IsTrace

variable (h : IsTrace T C entry found)
include h

theorem nodup : (entry :: found.map Prod.fst).Nodup := by
  induction h with
  | nil => simp
  | @snoc found t p _ _ hnew _ ih =>
    rw [map_append, ← cons_append]
    refine nodup_append.2 ⟨ih, by simp, fun x hx y hy hxy => ?_⟩
    obtain rfl : y = t := by simpa using hy
    exact hnew (hxy ▸ hx)

theorem mem (hentry : entry ∈ C) : ∀ v ∈ entry :: found.map Prod.fst, v ∈ C := by
  induction h with
  | nil => simpa using hentry
  | @snoc found t p _ ht _ _ ih =>
    intro v hv
    rw [map_append, ← cons_append, mem_append] at hv
    rcases hv with hv | hv
    · exact ih v hv
    · rw [mem_singleton.1 hv]
      exact (mem_stepsWithin.1 ht).2

theorem length_lt (hentry : entry ∈ C) : found.length < C.length := by
  have hle := (subperm_of_subset h.nodup (h.mem hentry)).length_le
  rwa [length_cons, length_map] at hle

theorem append (hid : id ∈ entry :: found.map Prod.fst) {new : List Nat}
    (hnew : ∀ t ∈ new, t ∈ T.stepsWithin C id ∧ t ∉ entry :: found.map Prod.fst)
    (hnodup : new.Nodup) : IsTrace T C entry (found ++ new.map (·, id)) := by
  induction new generalizing found with
  | nil => simpa using h
  | cons t new ih =>
    obtain ⟨ht, hfresh⟩ := hnew t (by simp)
    obtain ⟨htnew, hnodup⟩ := nodup_cons.1 hnodup
    have hsnoc : IsTrace T C entry (found ++ [(t, id)]) := h.snoc ht hfresh hid
    have hrest := ih hsnoc (by simp at hid ⊢; tauto) (fun t' ht' => ?_) hnodup
    · simpa using hrest
    · obtain ⟨hstep, hfresh'⟩ := hnew t' (by simp [ht'])
      refine ⟨hstep, fun hmem => ?_⟩
      rw [map_append, ← cons_append, mem_append] at hmem
      rcases hmem with hmem | hmem
      · exact hfresh' hmem
      · obtain rfl : t' = t := by simpa using hmem
        exact htnew ht'

/-- Retracing a node that was found lists the states of a chain of steps from `entry` to the node.
Nodes that are found later do not matter. -/
theorem retrace_spec (hid : id ∈ entry :: found.map Prod.fst) (more : List (Nat × Nat)) :
    ∃ nodes, List.IsChain (fun v w => (v, w) ∈ T.edges) (entry :: nodes) ∧
      (entry :: nodes).getLast? = some id ∧
      ∀ steps path, found.length < steps →
        T.retrace entry (found ++ more) steps (some id) path = nodes.map T.stateOf ++ path := by
  induction h generalizing id more with
  | nil =>
    obtain rfl : id = entry := by simpa using hid
    refine ⟨[], by simp, rfl, fun steps path hsteps => ?_⟩
    obtain ⟨steps, rfl⟩ := Nat.exists_eq_succ_of_ne_zero (by omega : steps ≠ 0)
    simp [retrace]
  | @snoc found t p htrace ht hnew hp ih =>
    rw [map_append, ← cons_append, mem_append] at hid
    rw [append_assoc, singleton_append]
    rcases hid with hid | hid
    · obtain ⟨nodes, hchain, hlast, hpath⟩ := ih hid ((t, p) :: more)
      refine ⟨nodes, hchain, hlast, fun steps path hsteps => hpath steps path ?_⟩
      rw [length_append] at hsteps
      omega
    · obtain rfl : id = t := by simpa using hid
      obtain ⟨nodes, hchain, hlast, hpath⟩ := ih hp ((id, p) :: more)
      refine ⟨nodes ++ [id], ?_, ?_, fun steps path hsteps => ?_⟩
      · rw [← cons_append]
        refine isChain_append.2 ⟨hchain, by simp, fun x hx y hy => ?_⟩
        obtain rfl : p = x := Option.some.inj (hlast.symm.trans hx)
        obtain rfl : id = y := by simpa using hy
        exact (mem_stepsWithin.1 ht).1
      · rw [← cons_append, getLast?_concat]
      · obtain ⟨steps, rfl⟩ := Nat.exists_eq_succ_of_ne_zero (by omega : steps ≠ 0)
        have hne : id ≠ entry := fun h => hnew (by simp [h])
        have hlookup : (found ++ (id, p) :: more).lookup id = some p := by
          rw [lookup_append, lookup_eq_none_iff_notMem.2 fun h => hnew (by simp_all)]
          simp
        rw [retrace, if_neg hne, hlookup, hpath]
        · simp
        · rw [length_append, length_singleton] at hsteps
          omega

end IsTrace

/-- What a search for the way back has done: the nodes found so far are those it has left behind and
those in its queue, and all steps from the nodes left behind lead to nodes that were found. -/
structure IsFrontier (T : Tableau) (C : List Nat) (entry : Nat) (done queue : List Nat)
    (found : List (Nat × Nat)) : Prop where
  trace : IsTrace T C entry found
  nodes : entry :: found.map Prod.fst = done ++ queue
  closed : ∀ v ∈ done, ∀ w ∈ T.stepsWithin C v, w ≠ entry ∧ w ∈ done ++ queue

private theorem nodup_eraseDups (l : List Nat) : l.eraseDups.Nodup := by
  induction hn : l.length using Nat.strongRecOn generalizing l with
  | ind n ih =>
    cases l with
    | nil => simp
    | cons x l =>
      rw [eraseDups_cons, nodup_cons, mem_eraseDups]
      have hlt : (l.filter fun y => !y == x).length < n := by
        rw [← hn, length_cons]
        exact Nat.lt_succ_of_le (length_filter_le _ _)
      exact ⟨by simp, ih _ hlt _ rfl⟩

namespace IsFrontier

theorem step (h : IsFrontier T C entry done (id :: queue) found)
    (hentry : entry ∉ T.stepsWithin C id) :
    let new := ((T.stepsWithin C id).filter fun t => (found.lookup t).isNone).eraseDups
    IsFrontier T C entry (done ++ [id]) (queue ++ new) (found ++ new.map (·, id)) := by
  intro new
  have hnew {t : Nat} : t ∈ new ↔ t ∈ T.stepsWithin C id ∧ t ∉ found.map Prod.fst := by
    rw [mem_eraseDups, mem_filter, Option.isNone_iff_eq_none, lookup_eq_none_iff_notMem]
  have hnodes : entry :: (found ++ new.map (·, id)).map Prod.fst =
      done ++ [id] ++ (queue ++ new) := by
    rw [map_append, ← cons_append, h.nodes]
    simp [Function.comp_def]
  refine ⟨h.trace.append ?_ (fun t ht => ?_) (nodup_eraseDups _), hnodes, fun v hv w hw => ?_⟩
  · rw [h.nodes]
    simp
  · obtain ⟨hstep, hfresh⟩ := hnew.1 ht
    refine ⟨hstep, fun hmem => ?_⟩
    rcases mem_cons.1 hmem with rfl | hmem
    · exact hentry hstep
    · exact hfresh hmem
  · rcases mem_append.1 hv with hv | hv
    · obtain ⟨hne, hmem⟩ := h.closed v hv w hw
      refine ⟨hne, ?_⟩
      simp only [mem_append, mem_cons] at hmem ⊢
      tauto
    · obtain rfl : v = id := by simpa using hv
      refine ⟨fun heq => hentry (heq ▸ hw), ?_⟩
      by_cases hold : w ∈ found.map Prod.fst
      · rw [← hnodes, map_append]
        simp only [mem_cons, mem_append]
        tauto
      · simp [hnew.2 ⟨hw, hold⟩]

theorem length_add_le (h : IsFrontier T C entry done queue found) (hentry : entry ∈ C) :
    done.length + queue.length ≤ C.length := by
  rw [← length_append, ← h.nodes, length_cons, length_map]
  exact h.trace.length_lt hentry

theorem queue_ne_nil (h : IsFrontier T C entry done queue found)
    (hcycle : TransGen (fun v w => w ∈ T.stepsWithin C v) entry entry) : queue ≠ [] := by
  rintro rfl
  obtain ⟨-, hnodes, hclosed⟩ := h
  rw [append_nil] at hnodes hclosed
  have hdone : entry ∈ done := hnodes ▸ mem_cons_self
  have hall {w : Nat} (hw : TransGen (fun v w => w ∈ T.stepsWithin C v) entry w) :
      w ≠ entry ∧ w ∈ done := by
    induction hw with
    | single hstep => exact hclosed entry hdone _ hstep
    | tail _ hstep ih => exact hclosed _ ih.2 _ hstep
  exact (hall hcycle).1 rfl

/-- The search finds the last node of a way back. It leaves each node behind only once, so it needs
no more steps than there are nodes. -/
theorem wayBack_spec {steps : Nat} (h : IsFrontier T C entry done queue found) (hentry : entry ∈ C)
    (hcycle : TransGen (fun v w => w ∈ T.stepsWithin C v) entry entry)
    (hsteps : C.length ≤ steps + done.length) :
    ∃ last found', T.wayBack C entry steps queue found = (some last, found') ∧
      IsTrace T C entry found' ∧ last ∈ entry :: found'.map Prod.fst ∧ (last, entry) ∈ T.edges := by
  induction steps generalizing done queue found with
  | zero =>
    have hlength := h.length_add_le hentry
    exact absurd (length_eq_zero_iff.1 (by omega)) (h.queue_ne_nil hcycle)
  | succ steps ih =>
    match queue with
    | [] => exact absurd rfl (h.queue_ne_nil hcycle)
    | id :: queue =>
      rw [wayBack]
      split_ifs with hback
      · refine ⟨id, found, rfl, h.trace, ?_, (mem_stepsWithin.1 hback).1⟩
        rw [h.nodes]
        simp
      · refine ih (h.step hback) ?_
        rw [length_append, length_singleton]
        omega

end IsFrontier

variable {components : Graph → List (List Nat)} [Graph.Decomposes components]

private theorem IsDerived.transGen_stepsWithin (hT : T.IsDerived sp labels a)
    (hC : C ∈ components T.graph) {v w : Nat} (hv : v ∈ C) (hw : w ∈ C)
    (h : TransGen T.graph.Edge v w) : TransGen (fun v w => w ∈ T.stepsWithin C v) v w := by
  induction h with
  | single hedge => exact .single (mem_stepsWithin.2 ⟨hT.edge_graph.1 hedge, hw⟩)
  | @tail u w hvu hedge ih =>
    have hwv := reach_of_mem_components hT.inRange_graph hC hw hv
    have hu : u ∈ C := mem_of_reach hT.inRange_graph hC hv hvu.to_reflTransGen (.head hedge hwv)
    exact (ih hu).tail (mem_stepsWithin.2 ⟨hT.edge_graph.1 hedge, hw⟩)

/-- The lasso of a component with a cycle lists the states of a chain of steps from a root to a node
of the component and back to the node. -/
theorem IsDerived.lasso_spec (hT : T.IsDerived sp labels a) (hC : C ∈ components T.graph)
    (hcycle : hasCycle T.graph C) :
    ∃ stem entry rest, T.lasso C = ⟨stem.map T.stateOf, (entry :: rest).map T.stateOf⟩ ∧
      List.IsChain T.graph.Edge (stem ++ entry :: rest ++ [entry]) ∧
      ∃ v s, (stem ++ [entry]).head? = some v ∧ s ∈ sp.initial ∧
        T.sequent v = Sequent.root a s := by
  have hne := ne_nil_of_mem_components hT.inRange_graph hC
  obtain ⟨entry, hmin⟩ := Option.ne_none_iff_exists'.1 (mt min?_eq_none_iff.1 hne)
  have hentry : entry ∈ C := min?_mem hmin
  have hlt := hT.lt_size_of_mem hC hentry
  obtain ⟨stem, hstem, hchain, hroot⟩ := hT.climb_spec hlt hlt []
  have hback := hT.transGen_stepsWithin hC hentry hentry
    (transGen_of_hasCycle hT.inRange_graph hC hcycle hentry hentry)
  have hstart : IsFrontier T C entry [] [entry] [] := ⟨.nil, rfl, by simp⟩
  obtain ⟨last, found, hway, htrace, hlast, hclose⟩ :=
    hstart.wayBack_spec hentry hback (Nat.le_add_right C.length _)
  obtain ⟨rest, hcycle, hend, hpath⟩ := htrace.retrace_spec hlast []
  refine ⟨stem, entry, rest, ?_, ?_, hroot⟩
  · have hinto : T.pathTo entry = (stem ++ [entry]).map T.stateOf := by
      rw [pathTo, hstem, append_nil]
    have hround := hpath (found.length + 1) [] (Nat.lt_succ_self _)
    rw [append_nil, append_nil] at hround
    rw [lasso, hmin, Option.getD_some, hway]
    show Counterexample.mk (T.pathTo entry).dropLast
      (T.stateOf entry :: T.retrace entry found (found.length + 1) (some last) []) = _
    rw [hinto, map_append, map_singleton, dropLast_concat, hround, map_cons]
  · have hround : List.IsChain T.graph.Edge (entry :: rest ++ [entry]) := by
      refine isChain_append.2
        ⟨hcycle.imp fun _ _ h => hT.edge_graph.2 h, by simp, fun x hx y hy => ?_⟩
      obtain rfl : last = x := Option.some.inj (hend.symm.trans hx)
      obtain rfl : entry = y := by simpa using hy
      exact hT.edge_graph.2 hclose
    rw [append_assoc]
    exact isChain_split.2 ⟨hchain, hround⟩

end Tableau

variable {π : Nat → StateId} {e : Nat → Inference}

/-- A thread that comes back to a sequent, at a position from which the states repeat, can repeat
its inferences. -/
theorem IsThread.unroll (he : IsThread sp labels π e) {n k : Nat} (hk : 0 < k)
    (hclose : (e (n + k)).source = (e n).source) (hπ : ∀ i, n ≤ i → π (i + k) = π i) :
    IsThread sp labels π (unroll ((List.range n).map e) ((List.range' n k).map e)) := by
  let r (i : Nat) : Nat := if i < n then i else n + (i - n) % k
  have hr (i : Nat) : ShapeCheck.unroll ((List.range n).map e) ((List.range' n k).map e) i =
    e (r i) := unroll_map_range e hk i
  have hnext (i : Nat) : (e (r i + 1)).source = (e (r (i + 1))).source := by
    simp only [r]
    by_cases hi : i < n
    · have hr' : (if i + 1 < n then i + 1 else n + (i + 1 - n) % k) = i + 1 := by
        split_ifs with hi'
        · rfl
        · rw [show i + 1 - n = 0 by omega, Nat.zero_mod]
          omega
      rw [if_pos hi, hr']
    · rw [if_neg hi, if_neg (by omega), Nat.sub_add_comm (by omega), ← Nat.mod_add_mod]
      have hlt := Nat.mod_lt (i - n) hk
      by_cases hround : (i - n) % k + 1 < k
      · rw [Nat.mod_eq_of_lt hround, Nat.add_assoc]
      · have hk' : (i - n) % k + 1 = k := by omega
        rw [Nat.add_assoc, hk', Nat.mod_self, hclose, Nat.add_zero]
  refine ⟨fun i => ?_, fun i => ?_, fun i => ?_⟩
  · rw [hr]
    exact he.isValid _
  · rw [hr, hr, he.target, hnext]
  · rw [hr, he.state]
    simp only [r]
    split_ifs with hi
    · rfl
    · exact eq_of_periodic hπ (by omega)

namespace Tableau

variable {T : Tableau}

/-- A thread from a root that ends in a cycle of inferences between sequents of a tableau. -/
structure IsCyclicThread (sp : StateSpace fp) (labels : Labelling) (a : Formula) (T : Tableau)
    (π : Nat → StateId) (stem cycle : List Inference) : Prop where
  isThread : IsThread sp labels π (unroll stem cycle)
  root : (unroll stem cycle 0).source = Sequent.root a (π 0)
  ne_nil : cycle ≠ []
  node : ∀ d ∈ stem ++ cycle, ∃ v < T.size, T.sequent v = d.source

namespace IsCyclicThread

theorem of_isThread (he : IsThread sp labels π e) (h0 : (e 0).source = Sequent.root a (π 0))
    (hnode : ∀ i, ∃ v < T.size, T.sequent v = (e i).source) {n k : Nat} (hk : 0 < k)
    (hclose : (e (n + k)).source = (e n).source) (hπ : ∀ i, n ≤ i → π (i + k) = π i) :
    IsCyclicThread sp labels a T π ((List.range n).map e) ((List.range' n k).map e) where
  isThread := he.unroll hk hclose hπ
  root := by
    rw [unroll_map_range e hk]
    split_ifs with hn
    · exact h0
    · obtain rfl : n = 0 := by omega
      simpa using h0
  ne_nil := by simpa using Nat.ne_of_gt hk
  node d hd := by
    rw [← map_append, mem_map] at hd
    obtain ⟨i, -, rfl⟩ := hd
    exact hnode i

theorem not_holds {stem cycle : List Inference}
    (h : IsCyclicThread sp labels a T π stem cycle)
    (hagainst : ∀ f g, ∃ d ∈ cycle, ¬ d.Upholds f g) : ¬ a.Holds (sp.word labels π) 0 := by
  intro hholds
  obtain ⟨f, g, n, hn⟩ :=
    (holds_iff_forall_root_thread h.isThread.step).1 hholds _ h.isThread h.root
  obtain ⟨d, hd, hnot⟩ := hagainst f g
  match cycle, hd with
  | x :: rest, hd =>
    obtain ⟨i, hi, -, heq⟩ := @exists_unroll_eq _ _ stem rest x d hd n
    exact hnot (heq ▸ hn i hi)

end IsCyclicThread

/-- A thread through finitely many sequents that is not justified comes back to a sequent after
going against every release, at positions that agree up to a given period. -/
theorem IsDerived.exists_round (hT : T.IsDerived sp labels a) {ν : Nat → Nat}
    (hν : ∀ i, ν i < T.size ∧ T.sequent (ν i) = (e i).source) (hnot : ¬ IsJustifiedThread e)
    (start : Nat) {period : Nat} (hperiod : 0 < period) :
    ∃ n k, start ≤ n ∧ 0 < k ∧ period ∣ k ∧ (e (n + k)).source = (e n).source ∧
      ∀ f g, ∃ i, n ≤ i ∧ i < n + k ∧ ¬ (e i).Upholds f g := by
  classical
  have hfinite (i : Nat) : (ν i, i % period) ∈ Finset.range T.size ×ˢ Finset.range period :=
    Finset.mk_mem_product (Finset.mem_range.2 (hν i).1) (Finset.mem_range.2 (Nat.mod_lt i hperiod))
  obtain ⟨N, hN⟩ := exists_recurrent hfinite
  let n := max N start
  have hagainst (f g : Formula) : ∃ i, n ≤ i ∧ ¬ (e i).Upholds f g := by
    by_contra hall
    push Not at hall
    exact hnot ⟨f, g, n, hall⟩
  choose against hle hup using hagainst
  -- only subformulae can be upheld, so one bound covers the positions against all releases
  let pairs := a.subformulae.toFinset ×ˢ a.subformulae.toFinset
  let bound := pairs.sup fun fg => against fg.1 fg.2
  obtain ⟨j, hj, hrepeat⟩ := hN n (le_max_left _ _) (n + bound + 1)
  obtain ⟨hnode, hmod⟩ := Prod.mk.inj hrepeat
  refine ⟨n, j - n, le_max_right _ _, by omega, ?_, ?_, fun f g => ?_⟩
  · exact Nat.dvd_of_mod_eq_zero (Nat.sub_mod_eq_zero_of_mod_eq hmod)
  · rw [Nat.add_sub_cancel' (by omega), ← (hν j).2, ← (hν n).2, hnode]
  · by_cases hsub : Formula.release f g ∈ a.subformulae
    · obtain ⟨hf, hg⟩ := Formula.mem_subformulae_of_release hsub
      have hpair : (f, g) ∈ pairs :=
        Finset.mk_mem_product (mem_toFinset.2 hf) (mem_toFinset.2 hg)
      have hbound : against f g ≤ bound :=
        @Finset.le_sup _ _ _ _ pairs (fun fg => against fg.1 fg.2) (f, g) hpair
      exact ⟨against f g, hle f g, by omega, hup f g⟩
    · refine ⟨n, Nat.le_refl n, by omega, fun h => hsub (hT.mem_subformulae (hν n).1 ?_)⟩
      rw [(hν n).2]
      exact h.1

end Tableau

namespace StateSpace

open Tableau

private theorem lasso_of_violated {c : Counterexample} (h : sp.check labels a = .violated c)
    (hc : c.cycle ≠ []) : (sp.tableau labels a).IsClosed sp labels ∧
      ∃ C ∈ (sp.tableau labels a).graph.components,
        hasCycle (sp.tableau labels a).graph C ∧ c = (sp.tableau labels a).lasso C := by
  rw [check_eq] at h
  rcases verdict_eq_violated h with ⟨i, -, rfl⟩ | ⟨hnone, C, hC, hcycle, -, hlasso⟩
  · exact absurd rfl hc
  · exact ⟨isClosed_of_failure_eq_none hnone, C, hC, hcycle, hlasso⟩

/-- The reported lasso is the path of a cyclic thread of the tableau, from an initial state. -/
private theorem exists_isCyclicThread_path {c : Counterexample}
    (h : sp.check labels a = .violated c) (hc : c.cycle ≠ []) :
    c.path 0 ∈ sp.initial ∧ ∃ stem cycle,
      IsCyclicThread sp labels a (sp.tableau labels a) c.path stem cycle ∧
        stem.length = c.stem.length ∧ cycle.length = c.cycle.length := by
  obtain ⟨-, C, hC, hcycle, rfl⟩ := lasso_of_violated h hc
  have hT := @tableau_isDerived _ sp labels a
  obtain ⟨stem, entry, rest, hlasso, hchain, v, s, hhead, hs, hroot⟩ := hT.lasso_spec hC hcycle
  rw [hlasso]
  let ν : Nat → Nat := unroll stem (entry :: rest)
  have hedge (i : Nat) : (sp.tableau labels a).graph.Edge (ν i) (ν (i + 1)) :=
    rel_unroll_succ hchain i
  obtain ⟨e, he, hsource⟩ := hT.exists_isThread hedge
  have hpath : (fun i => (sp.tableau labels a).stateOf (ν i)) =
      Counterexample.path ⟨stem.map (sp.tableau labels a).stateOf,
        (entry :: rest).map (sp.tableau labels a).stateOf⟩ :=
    funext fun i => map_unroll (sp.tableau labels a).stateOf i
  have hv : ν 0 = v := Option.some.inj (unroll_zero_eq_head.trans hhead)
  have h0 : (sp.tableau labels a).sequent (ν 0) = Sequent.root a s := by rw [hv, hroot]
  have hs0 : (sp.tableau labels a).stateOf (ν 0) = s := by rw [stateOf, h0, Sequent.root]
  have hinitial : (sp.tableau labels a).stateOf (ν 0) ∈ sp.initial := by rwa [hs0]
  rw [← hpath]
  refine ⟨hinitial, _, _, IsCyclicThread.of_isThread he ?_ (fun i => ?_)
    (n := stem.length) (k := (entry :: rest).length) (by simp) ?_ (fun i hi => ?_), by simp,
    by simp⟩
  · rw [← hsource, h0, hs0]
  · exact ⟨ν i, size_graph ▸ (hedge i).lt_size, hsource i⟩
  · rw [← hsource, ← hsource]
    exact congrArg _ (unroll_add (Nat.le_refl _) (Nat.dvd_refl _))
  · exact congrArg _ (unroll_add hi (Nat.dvd_refl _))

/-- The reported lasso is a path of the space and a cyclic thread of the tableau. It violates the
formula exactly if the tableau has a cyclic thread along it, possibly of several rounds, whose cycle
goes against every release. -/
theorem not_holds_path_iff {c : Counterexample} (h : sp.check labels a = .violated c)
    (hc : c.cycle ≠ []) :
    sp.IsPath c.path ∧
      (∃ stem cycle, IsCyclicThread sp labels a (sp.tableau labels a) c.path stem cycle ∧
        stem.length = c.stem.length ∧ cycle.length = c.cycle.length) ∧
      (¬ a.Holds (sp.word labels c.path) 0 ↔
        ∃ stem cycle, IsCyclicThread sp labels a (sp.tableau labels a) c.path stem cycle ∧
          ∀ f g, ∃ d ∈ cycle, ¬ d.Upholds f g) := by
  obtain ⟨hinitial, hown⟩ := exists_isCyclicThread_path h hc
  obtain ⟨stem, cycle, hthread, -⟩ := id hown
  refine ⟨⟨hinitial, hthread.isThread.step⟩, hown, fun hfail => ?_, ?_⟩
  · rw [holds_iff_forall_root_thread hthread.isThread.step] at hfail
    push Not at hfail
    obtain ⟨e, he, h0, hnot⟩ := hfail
    obtain ⟨i, hi, hroot⟩ := @exists_root_tableau _ sp labels a _ hinitial
    obtain ⟨ν, hν, -⟩ := (lasso_of_violated h hc).1.exists_nodes tableau_isDerived he hi
      (hroot.trans h0.symm)
    obtain ⟨n, k, hstart, hk, hperiod, hclose, hagainst⟩ :=
      tableau_isDerived.exists_round hν hnot c.stem.length (length_pos_iff.2 hc)
    refine ⟨_, _, IsCyclicThread.of_isThread he h0 (fun i => ⟨ν i, hν i⟩) hk hclose
      fun i hi => unroll_add (hstart.trans hi) hperiod, fun f g => ?_⟩
    obtain ⟨i, hni, hik, hup⟩ := hagainst f g
    refine ⟨e i, mem_map_of_mem (mem_range'_1.2 ⟨hni, hik⟩), hup⟩
  · rintro ⟨stem, cycle, hcyclic, hagainst⟩
    exact hcyclic.not_holds hagainst

/-- The exact condition for a lasso that is reported although a second loop is the one to blame. -/
theorem not_holds_path_iff_eventually_always :
    (ofTargets [[1], [1, 2], [1]]).check (Labelling.atLines [0, 1])
        (.until .top (.release .bot (.atom "p"))) = .violated ⟨[0], [1]⟩ ∧
      (¬ (Formula.until .top (.release .bot (.atom "p"))).Holds
          ((ofTargets [[1], [1, 2], [1]]).word (Labelling.atLines [0, 1])
            (Counterexample.path ⟨[0], [1]⟩)) 0 ↔
        ∃ stem cycle, IsCyclicThread (ofTargets [[1], [1, 2], [1]]) (Labelling.atLines [0, 1])
            (.until .top (.release .bot (.atom "p")))
            ((ofTargets [[1], [1, 2], [1]]).tableau (Labelling.atLines [0, 1])
              (.until .top (.release .bot (.atom "p"))))
            (Counterexample.path ⟨[0], [1]⟩) stem cycle ∧
          ∀ f g, ∃ d ∈ cycle, ¬ d.Upholds f g) := by
  have hcheck : (ofTargets [[1], [1, 2], [1]]).check (Labelling.atLines [0, 1])
      (.until .top (.release .bot (.atom "p"))) = .violated ⟨[0], [1]⟩ := by decide +kernel
  exact ⟨hcheck, (not_holds_path_iff hcheck (by decide)).2.2⟩

/-- Eventually always `p` is refused because of a loop that leaves `p` again and again, but the
lasso that is reported stays in a state with `p`. -/
theorem holds_path_eventually_always :
    (ofTargets [[1], [1, 2], [1]]).check (Labelling.atLines [0, 1])
        (.until .top (.release .bot (.atom "p"))) = .violated ⟨[0], [1]⟩ ∧
      (Formula.until .top (.release .bot (.atom "p"))).Holds
        ((ofTargets [[1], [1, 2], [1]]).word (Labelling.atLines [0, 1])
          (Counterexample.path ⟨[0], [1]⟩)) 0 := by
  refine ⟨by decide +kernel, 1, by omega, ?_, fun _ _ _ => trivial⟩
  refine Formula.holds_release_of_forall fun k hk => ?_
  have hstate : Counterexample.path ⟨[0], [1]⟩ k = 1 :=
    mem_singleton.1 (@unroll_mem _ _ [0] [] 1 k hk)
  show Tableau.valuation _ _ (Counterexample.path ⟨[0], [1]⟩ k) "p" = true
  rw [hstate]
  decide +kernel

end StateSpace

end ShapeCheck
