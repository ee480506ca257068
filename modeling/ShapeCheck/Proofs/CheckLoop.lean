import ShapeCheck.Proofs.Lasso
import ShapeCheck.Proofs.Worklist
import Mathlib.Data.Prod.Lex

/-!
# The loop that checks a formula

A formula is checked with a queue of nodes. A round takes the first node of the queue, marks it and
takes its formulae apart with a work list. If nothing is left of them, the loop ends; otherwise the
new sequents that the node leads to join the queue. The queue grows while it is consumed, and a
postponed formula comes back again and again; but a sequent that is present is not queued again, and
all formulae are subformulae of the one that is checked. So the loop ends. The searches for a
violating path that follow need no more steps than there are nodes.

The nodes of the queue are always those with the highest numbers, and the loop meets the nodes in the
order of their numbers. This is what `Tableau.saturate` does with a cursor.
-/

namespace ShapeCheck

open Tableau List

variable {fp : State → Nat} {sp : StateSpace fp} {labels : Labelling} {a : Formula}

namespace Tableau

variable {T : Tableau} {p? : Option Nat} {id : Nat}

theorem IsQueueFrom.append {n : Nat} {T' : Tableau} {queue new : List Nat}
    (h : IsQueueFrom n T queue) (h' : IsQueueFrom T.size T' new) :
    IsQueueFrom n T' (queue ++ new) := by
  obtain ⟨hle, rfl⟩ := h
  obtain ⟨hle', rfl⟩ := h'
  refine ⟨hle.trans hle', ?_⟩
  have hsize : T'.size - n = T.size - n + (T'.size - T.size) := by omega
  rw [hsize, ← range'_append_1, Nat.add_sub_cancel' hle]

theorem IsQueueFrom.of_cons {n : Nat} {queue : List Nat} (h : IsQueueFrom n T (id :: queue)) :
    id = n ∧ n < T.size ∧ IsQueueFrom (n + 1) T queue := by
  obtain ⟨hle, hqueue⟩ := h
  have hlt : n < T.size := by
    refine Nat.lt_of_le_of_ne hle fun heq => ?_
    simp [heq] at hqueue
  rw [show T.size - n = T.size - (n + 1) + 1 by omega, range'_succ] at hqueue
  obtain ⟨rfl, rfl⟩ := List.cons.inj hqueue
  exact ⟨rfl, hlt, hlt, rfl⟩

@[simp]
theorem stateOf_markNode {i : Nat} : (T.markNode id).stateOf i = T.stateOf i := by
  simp [stateOf]

end Tableau

/-- What the loop works on. -/
structure Docket where
  /-- The sequents so far. -/
  tableau : Tableau
  /-- The nodes that wait to be expanded. -/
  queue : List Nat
  /-- The nodes whose expansion has begun, in this order. -/
  log : List Nat

/-- The loop that checks a formula: it is about to choose a node, it takes the formulae of a node
apart, or it has ended. -/
inductive CheckLoop where
  | choosing (docket : Docket)
  | expanding (docket : Docket) (id : Nat) (work : Worklist)
  | finished (docket : Docket)

namespace CheckLoop

variable {D : Docket} {L : CheckLoop}

/-- What the loop works on. -/
def docket : CheckLoop → Docket
  | choosing D | expanding D _ _ | finished D => D

/-- The loop before its first step: the roots are queued. -/
def start (sp : StateSpace fp) (a : Formula) : CheckLoop :=
  let roots := (sp.initial.map (Sequent.root a)).foldl (enqueue none) ({}, [])
  choosing ⟨roots.1, roots.2, []⟩

/-- Begin to expand the first node of the queue, if there is one. -/
def choose (D : Docket) : CheckLoop :=
  match D.queue with
  | [] => finished D
  | id :: queue =>
    expanding ⟨D.tableau.markNode id, queue, D.log ++ [id]⟩ id
      (.running [(D.tableau.sequent id).formulae] ∅)

/-- End the expansion of a node with its outcome. -/
def conclude (sp : StateSpace fp) (D : Docket) (id : Nat) : Expansion → CheckLoop
  | .failed => finished
      { D with tableau := { D.tableau with failure := D.tableau.failure <|> some id } }
  | .obligations sets =>
    let derived := D.tableau.derive id sets (sp.checkSuccessors (D.tableau.stateOf id))
    choosing { D with tableau := derived.1, queue := D.queue ++ derived.2 }

/-- One step of the loop. -/
def step (sp : StateSpace fp) (labels : Labelling) : CheckLoop → CheckLoop
  | choosing D => choose D
  | expanding D id (.running stack found) =>
    expanding D id
      ((Worklist.running stack found).step (valuation sp labels (D.tableau.stateOf id)))
  | expanding D id (.stopped outcome) => conclude sp D id outcome
  | finished D => finished D

/-- Before a node is chosen, the nodes below a number are expanded and the others are queued, and
expanding these comes to the tableau of the check. -/
structure IsAt (sp : StateSpace fp) (labels : Labelling) (a : Formula) (n : Nat) (T : Tableau)
    (queue : List Nat) : Prop where
  isDerived : T.IsDerived sp labels a
  failure : T.failure = none
  queue : IsQueueFrom n T queue
  saturate : Tableau.saturate sp labels (sequentBound sp a - n) n T = sp.tableau labels a

/-- What holds before and after each step. While a node is expanded, the tableau is the one before
with a mark, and the work list will come to the expansion of its formulae. -/
def IsOnTrack (sp : StateSpace fp) (labels : Labelling) (a : Formula) : CheckLoop → Prop
  | choosing D => ∃ n, IsAt sp labels a n D.tableau D.queue ∧ D.log = List.range n
  | expanding D id work => ∃ T : Tableau, D.tableau = T.markNode id ∧
      IsAt sp labels a id T (id :: D.queue) ∧ D.log = List.range (id + 1) ∧
      work.answer (valuation sp labels (T.stateOf id)) =
        (T.sequent id).formulae.expand (valuation sp labels (T.stateOf id))
  | finished D => D.tableau = sp.tableau labels a ∧ ∃ n ≤ D.tableau.size, D.log = List.range n

theorem isOnTrack_start : (start sp a).IsOnTrack sp labels a := by
  have hroots := (ofRoots_eq (a := a) sp.initial).symm
  have hstage := @ofRoots_isStageOf _ sp labels a
  refine ⟨0, ⟨?_, ?_, ?_, ?_⟩, rfl⟩
  · exact hroots ▸ hstage.isDerived
  · exact (congrArg failure hroots).trans hstage.failure
  · exact @IsQueueFrom.foldl_enqueue none 0 ({}, []) ⟨Nat.zero_le _, rfl⟩ _
  · exact congrArg (saturate sp labels (sequentBound sp a) 0) hroots

namespace IsAt

variable {T : Tableau} {n id : Nat} {queue : List Nat}

theorem size_lt (h : IsAt sp labels a n T queue) : T.size < sequentBound sp a :=
  Nat.lt_succ_of_le h.isDerived.size_le

theorem eq_tableau (h : IsAt sp labels a n T []) : T = sp.tableau labels a := by
  have hsize : T.size ≤ n := Nat.le_of_sub_eq_zero (by simpa using h.queue.2.symm)
  rw [← h.saturate, saturate_of_le hsize]

theorem eq_of_cons (h : IsAt sp labels a n T (id :: queue)) : id = n :=
  h.queue.of_cons.1

theorem bound_sub_eq (h : IsAt sp labels a id T (id :: queue)) :
    id < T.size ∧ sequentBound sp a - id = sequentBound sp a - (id + 1) + 1 := by
  have hlt := h.queue.of_cons.2.1
  have hsize := h.size_lt
  exact ⟨hlt, by omega⟩

theorem failed (h : IsAt sp labels a id T (id :: queue))
    (hf : (T.sequent id).formulae.expand (valuation sp labels (T.stateOf id)) = .failed) :
    { T.markNode id with failure := some id } = sp.tableau labels a := by
  obtain ⟨hlt, hbound⟩ := h.bound_sub_eq
  rw [← h.saturate, hbound, saturate_of_failed hlt h.failure hf]

theorem derive (h : IsAt sp labels a id T (id :: queue)) {sets : List FormulaSet}
    (hsets : (T.sequent id).formulae.expand (valuation sp labels (T.stateOf id)) =
      .obligations sets) :
    IsAt sp labels a (id + 1)
      ((T.markNode id).derive id sets (sp.checkSuccessors (T.stateOf id))).1
      (queue ++ ((T.markNode id).derive id sets (sp.checkSuccessors (T.stateOf id))).2) := by
  obtain ⟨hlt, hbound⟩ := h.bound_sub_eq
  obtain ⟨hstage, -⟩ := derive_spec h.isDerived hlt rfl hsets
  refine ⟨hstage.isDerived, hstage.failure.trans h.failure, ?_, ?_⟩
  · have hqueue := h.queue.of_cons.2.2
    rw [IsQueueFrom, ← @size_markNode T id] at hqueue
    exact IsQueueFrom.append hqueue (isQueueFrom_derive _ _)
  · rw [← saturate_of_obligations hlt hsets, ← hbound, h.saturate]

end IsAt

namespace IsOnTrack

theorem choose (h : (choosing D).IsOnTrack sp labels a) :
    (CheckLoop.choose D).IsOnTrack sp labels a := by
  obtain ⟨⟨T, queue, log⟩, n, hat, rfl : log = List.range n⟩ := D, h
  cases queue with
  | nil => exact ⟨hat.eq_tableau, n, hat.queue.1, rfl⟩
  | cons id queue =>
    obtain rfl := hat.eq_of_cons
    exact ⟨T, rfl, hat, range_succ.symm, Worklist.answer_single _⟩

theorem conclude {id : Nat} {outcome : Expansion}
    (h : (expanding D id (.stopped outcome)).IsOnTrack sp labels a) :
    (CheckLoop.conclude sp D id outcome).IsOnTrack sp labels a := by
  obtain ⟨⟨_, queue, log⟩, T, rfl, hat, rfl, houtcome⟩ := D, h
  cases outcome with
  | failed =>
    have htableau := hat.failed houtcome.symm
    refine ⟨?_, id + 1, ?_, rfl⟩
    · rw [← htableau, show (T.markNode id).failure = none from hat.failure]
      rfl
    · exact hat.bound_sub_eq.1.trans_le size_markNode.ge
  | obligations sets =>
    have hnext := hat.derive houtcome.symm
    rw [← @stateOf_markNode T id] at hnext
    exact ⟨id + 1, hnext, rfl⟩

theorem step (h : L.IsOnTrack sp labels a) : (L.step sp labels).IsOnTrack sp labels a := by
  match L, h with
  | choosing D, h => exact h.choose
  | expanding D id (.running stack found), h =>
    obtain ⟨T, hD, hat, hlog, hanswer⟩ := h
    refine ⟨T, hD, hat, hlog, ?_⟩
    rw [hD, stateOf_markNode, Worklist.answer_step, hanswer]
  | expanding D id (.stopped outcome), h => exact h.conclude
  | finished D, h => exact h

theorem iterate_step (h : L.IsOnTrack sp labels a) (n : Nat) :
    ((CheckLoop.step sp labels)^[n] L).IsOnTrack sp labels a := by
  induction n with
  | zero => exact h
  | succ n ih =>
    rw [Function.iterate_succ_apply']
    exact ih.step

end IsOnTrack

/-- How far the loop is from its end: first count the nodes that may still be expanded, then the
rounds of the work list. -/
def rank (bound : Nat) : CheckLoop → Nat ×ₗ Nat
  | choosing D => toLex (2 * (bound - D.log.length), 0)
  | expanding D _ work => toLex (2 * (bound - D.log.length) + 1, work.rounds)
  | finished _ => toLex (0, 0)

/-- Whether the loop has ended. -/
def isFinished : CheckLoop → Bool
  | finished _ => true
  | _ => false

theorem rank_choose_lt {bound : Nat} (h : D.log.length < bound) :
    (choose D).rank bound < (choosing D).rank bound := by
  rw [choose]
  cases D.queue with
  | nil =>
    refine Prod.Lex.lt_iff.2 (.inl ?_)
    show 0 < 2 * (bound - D.log.length)
    omega
  | cons id queue =>
    refine Prod.Lex.lt_iff.2 (.inl ?_)
    show 2 * (bound - (D.log ++ [id]).length) + 1 < 2 * (bound - D.log.length)
    rw [length_append, length_singleton]
    omega

theorem rank_conclude_lt {bound id : Nat} {outcome : Expansion} :
    (conclude sp D id outcome).rank bound < (expanding D id (.stopped outcome)).rank bound := by
  cases outcome with
  | failed => exact Prod.Lex.lt_iff.2 (.inl (Nat.succ_pos _))
  | obligations sets => exact Prod.Lex.lt_iff.2 (.inl (Nat.lt_succ_self _))

theorem IsOnTrack.rank_step_lt (h : L.IsOnTrack sp labels a) (hL : L.isFinished = false) :
    (L.step sp labels).rank (sequentBound sp a) < L.rank (sequentBound sp a) := by
  match L, h with
  | choosing D, h =>
    obtain ⟨n, hat, hlog⟩ := h
    refine rank_choose_lt ?_
    rw [hlog, length_range]
    exact hat.queue.1.trans_lt hat.size_lt
  | expanding D id (.running stack found), _ =>
    exact Prod.Lex.lt_iff.2 (.inr ⟨rfl, Worklist.rounds_step_lt⟩)
  | expanding D id (.stopped outcome), _ => exact rank_conclude_lt
  | finished D, _ => cases hL

theorem IsOnTrack.exists_finished (h : L.IsOnTrack sp labels a) :
    ∃ n D, (CheckLoop.step sp labels)^[n] L = finished D := by
  induction hr : L.rank (sequentBound sp a) using WellFoundedLT.induction generalizing L with
  | ind r ih =>
    cases hL : L.isFinished with
    | true =>
      match L with
      | finished D => exact ⟨0, D, rfl⟩
    | false =>
      obtain ⟨n, D, hn⟩ := ih _ (hr ▸ h.rank_step_lt hL) h.step rfl
      exact ⟨n + 1, D, hn⟩

theorem iterate_step_of_le {n m : Nat} (h : (step sp labels)^[n] L = finished D) (hm : n ≤ m) :
    (step sp labels)^[m] L = finished D := by
  rw [← Nat.sub_add_cancel hm, Function.iterate_add_apply, h]
  exact Function.iterate_fixed rfl _

end CheckLoop

/-- No sequent is expanded twice, and all formulae are subformulae of the one that is checked. -/
structure Docket.IsFrugal (a : Formula) (D : Docket) : Prop where
  lt_size : ∀ id ∈ D.log, id < D.tableau.size
  nodup : (D.log.map D.tableau.sequent).Nodup
  mem_subformulae : ∀ id < D.tableau.size, ∀ b ∈ (D.tableau.sequent id).formulae,
    b ∈ a.subformulae

namespace CheckLoop.IsOnTrack

variable {L : CheckLoop}

theorem isDerived (h : L.IsOnTrack sp labels a) : L.docket.tableau.IsDerived sp labels a := by
  match L, h with
  | choosing D, ⟨n, hat, _⟩ => exact hat.isDerived
  | expanding D id work, ⟨T, hD, hat, _⟩ =>
    show D.tableau.IsDerived sp labels a
    rw [hD]
    exact hat.isDerived.markNode id
  | finished D, ⟨hD, _⟩ =>
    show D.tableau.IsDerived sp labels a
    rw [hD]
    exact StateSpace.tableau_isDerived

theorem exists_log_eq (h : L.IsOnTrack sp labels a) :
    ∃ n ≤ L.docket.tableau.size, L.docket.log = List.range n := by
  match L, h with
  | choosing D, ⟨n, hat, hlog⟩ => exact ⟨n, hat.queue.1, hlog⟩
  | expanding D id work, ⟨T, hD, hat, hlog, _⟩ =>
    refine ⟨id + 1, ?_, hlog⟩
    show id < D.tableau.size
    rw [hD, size_markNode]
    exact hat.bound_sub_eq.1
  | finished D, ⟨_, hlog⟩ => exact hlog

theorem isFrugal (h : L.IsOnTrack sp labels a) : L.docket.IsFrugal a := by
  obtain ⟨n, hn, hlog⟩ := h.exists_log_eq
  have hlt : ∀ id ∈ L.docket.log, id < L.docket.tableau.size := by
    intro id hid
    rw [hlog, mem_range] at hid
    exact hid.trans_le hn
  refine ⟨hlt, ?_, fun id hid b hb => h.isDerived.mem_subformulae hid hb⟩
  refine List.Nodup.map_on (fun i hi j hj => h.isDerived.inj i j (hlt i hi) (hlt j hj)) ?_
  rw [hlog]
  exact nodup_range

end CheckLoop.IsOnTrack

namespace Tableau

variable {T : Tableau} {C done queue : List Nat} {entry : Nat} {found : List (Nat × Nat)}

/-- The lasso of a component, by searches with a given number of steps. -/
def lassoIn (T : Tableau) (steps : Nat) (members : List Nat) : Counterexample :=
  let entry := members.min?.getD 0
  let back := T.wayBack members entry steps [entry] []
  { stem := (T.climb steps (some entry) []).dropLast
    cycle := T.stateOf entry :: T.retrace entry back.2 steps back.1 [] }

/-- The verdict, by searches with a given number of steps. -/
def verdictIn (T : Tableau) (steps : Nat) : Verdict :=
  match T.failure with
  | some id => .violated ⟨T.climb steps (some id) [], []⟩
  | none =>
    match T.graph.components.find? fun members =>
        hasCycle T.graph members && !T.isJustified members with
    | some members => .violated (T.lassoIn steps members)
    | none => .satisfied

theorem IsDerived.climb_congr (hT : T.IsDerived sp labels a) {n m id : Nat} (hn : id < n)
    (hm : id < m) (path : List StateId) : T.climb n (some id) path = T.climb m (some id) path := by
  induction n generalizing id m path with
  | zero => omega
  | succ n ih =>
    obtain ⟨m, rfl⟩ := Nat.exists_eq_succ_of_ne_zero (Nat.ne_of_gt (Nat.zero_lt_of_lt hm))
    show T.climb n (T.parent id) (T.stateOf id :: path) =
      T.climb m (T.parent id) (T.stateOf id :: path)
    cases hp : T.parent id with
    | none => cases n <;> cases m <;> rfl
    | some p =>
      have hlt := (hT.parent id p hp).1
      exact ih (by omega) (by omega) _

namespace IsFrontier

theorem wayBack_add (h : IsFrontier T C entry done queue found) (hentry : entry ∈ C) {n : Nat}
    (hn : C.length ≤ n + done.length) (more : Nat) :
    T.wayBack C entry (n + more) queue found = T.wayBack C entry n queue found := by
  induction n generalizing done queue found with
  | zero =>
    have hlength := h.length_add_le hentry
    obtain rfl : queue = [] := length_eq_zero_iff.1 (by omega)
    cases more <;> simp [wayBack]
  | succ n ih =>
    rw [Nat.succ_add]
    cases queue with
    | nil => rfl
    | cons id queue =>
      rw [wayBack, wayBack]
      split_ifs with hback
      · rfl
      · refine ih (h.step hback) ?_
        rw [length_append, length_singleton]
        omega

theorem isTrace_wayBack (h : IsFrontier T C entry done queue found) (steps : Nat) :
    IsTrace T C entry (T.wayBack C entry steps queue found).2 ∧
      ∀ last, (T.wayBack C entry steps queue found).1 = some last →
        last ∈ entry :: (T.wayBack C entry steps queue found).2.map Prod.fst := by
  induction steps generalizing done queue found with
  | zero => exact ⟨h.trace, fun last hlast => by cases hlast⟩
  | succ steps ih =>
    cases queue with
    | nil => exact ⟨h.trace, fun last hlast => by cases hlast⟩
    | cons id queue =>
      rw [wayBack]
      split_ifs with hback
      · refine ⟨h.trace, fun last hlast => ?_⟩
        obtain rfl : id = last := Option.some.inj hlast
        rw [h.nodes]
        simp
      · exact ih (h.step hback)

end IsFrontier

/-- Retracing ends at `entry`, because each node was found from one that was found before. -/
theorem IsTrace.retrace_congr (h : IsTrace T C entry found) {last? : Option Nat}
    (hlast : ∀ last, last? = some last → last ∈ entry :: found.map Prod.fst) {n m : Nat}
    (hn : found.length < n) (hm : found.length < m) (path : List StateId) :
    T.retrace entry found n last? path = T.retrace entry found m last? path := by
  cases last? with
  | none => cases n <;> cases m <;> rfl
  | some last =>
    obtain ⟨nodes, -, -, hpath⟩ := h.retrace_spec (hlast last rfl) []
    rw [append_nil] at hpath
    rw [hpath n path hn, hpath m path hm]

theorem IsDerived.length_le_size (hT : T.IsDerived sp labels a) (hC : C ∈ T.graph.components) :
    C.length ≤ T.size := by
  obtain ⟨-, -, hnodup, -⟩ := Graph.Decomposes.exists_of_mem hT.inRange_graph hC
  have hsubset : C ⊆ List.range T.size := fun v hv => mem_range.2 (hT.lt_size_of_mem hC hv)
  simpa using (subperm_of_subset hnodup hsubset).length_le

theorem IsDerived.lassoIn_eq (hT : T.IsDerived sp labels a) (hC : C ∈ T.graph.components)
    {steps : Nat} (hsteps : T.size ≤ steps) : T.lassoIn steps C = T.lasso C := by
  have hne := ne_nil_of_mem_components hT.inRange_graph hC
  obtain ⟨entry, hmin⟩ := Option.ne_none_iff_exists'.1 (mt min?_eq_none_iff.1 hne)
  have hentry : entry ∈ C := min?_mem hmin
  have hlt := hT.lt_size_of_mem hC hentry
  have hlength := hT.length_le_size hC
  have hstart : IsFrontier T C entry [] [entry] [] := ⟨.nil, rfl, by simp⟩
  have hback : T.wayBack C entry steps [entry] [] = T.wayBack C entry C.length [entry] [] := by
    rw [← Nat.add_sub_cancel' (hlength.trans hsteps)]
    exact hstart.wayBack_add hentry (Nat.le_refl _) _
  obtain ⟨htrace, hlast⟩ := hstart.isTrace_wayBack C.length
  have hfound := htrace.length_lt hentry
  have hclimb := hT.climb_congr (hlt.trans_le hsteps) hlt []
  have hround := htrace.retrace_congr hlast (show _ < steps by omega) (Nat.lt_succ_self _) []
  simp only [lassoIn, lasso, pathTo, hmin, Option.getD_some, hback, hclimb, hround]

theorem IsDerived.verdictIn_eq (hT : T.IsDerived sp labels a)
    (hfailure : ∀ id, T.failure = some id → id < T.size) {steps : Nat} (hsteps : T.size ≤ steps) :
    T.verdictIn steps = T.verdict := by
  cases hf : T.failure with
  | some id =>
    have hlt := hfailure id hf
    simp only [verdictIn, verdict, hf, pathTo, hT.climb_congr (hlt.trans_le hsteps) hlt]
  | none =>
    cases hfind : T.graph.components.find?
        fun members => hasCycle T.graph members && !T.isJustified members with
    | some C =>
      have hlasso := hT.lassoIn_eq (mem_of_find?_eq_some hfind) hsteps
      simp only [verdictIn, verdict, hf, hfind, hlasso]
    | none => simp only [verdictIn, verdict, hf, hfind]

end Tableau

namespace StateSpace

/-- All initial states and all targets of steps are states of the space. -/
def InRange (sp : StateSpace fp) : Prop :=
  ∀ id ∈ sp.mentioned, id < sp.size

instance (sp : StateSpace fp) : Decidable sp.InRange :=
  inferInstanceAs (Decidable (∀ id ∈ sp.mentioned, id < sp.size))

theorem InRange.card_mentioned_le (h : sp.InRange) : sp.mentioned.toFinset.card ≤ sp.size := by
  have hsubset : sp.mentioned.toFinset ⊆ Finset.range sp.size :=
    fun id hid => Finset.mem_range.2 (h id (mem_toFinset.1 hid))
  simpa using Finset.card_le_card hsubset

/-- Checking a formula terminates: the loop comes to an end, after which the verdict is reached
within as many steps as there are nodes. At every moment no sequent has been expanded twice, all
formulae are subformulae of the one that is checked, and there are at most as many sequents as pairs
of a state and a set of subformulae. -/
theorem check_terminates (sp : StateSpace fp) (labels : Labelling) (a : Formula) :
    (∃ n D, (∀ m, n ≤ m → (CheckLoop.step sp labels)^[m] (.start sp a) = .finished D) ∧
      ∀ steps, D.tableau.size ≤ steps → D.tableau.verdictIn steps = sp.check labels a) ∧
    (∀ n, ((CheckLoop.step sp labels)^[n] (.start sp a)).docket.IsFrugal a) ∧
    (sp.InRange → ∀ n, ((CheckLoop.step sp labels)^[n] (.start sp a)).docket.tableau.size ≤
      sp.size * 2 ^ a.subformulae.toFinset.card) := by
  have htrack := (@CheckLoop.isOnTrack_start _ sp labels a).iterate_step
  refine ⟨?_, fun n => (htrack n).isFrugal, fun hrange n => ?_⟩
  · obtain ⟨n, D, hn⟩ := (@CheckLoop.isOnTrack_start _ sp labels a).exists_finished
    refine ⟨n, D, fun m hm => CheckLoop.iterate_step_of_le hn hm, fun steps hsteps => ?_⟩
    obtain ⟨hD, -⟩ : (CheckLoop.finished D).IsOnTrack sp labels a := hn ▸ htrack n
    rw [hD] at hsteps ⊢
    exact tableau_isDerived.verdictIn_eq (fun id hid => (isFailing_of_failure_eq_some hid).1) hsteps
  · exact (htrack n).isDerived.size_le_card.trans
      (Nat.mul_le_mul_right _ hrange.card_mentioned_le)

/-- A formula that is postponed forever around two loops meets at most 96 sequents. -/
theorem check_terminates_two_loops :
    (ofTargets [[1], [1, 2], [1]]).InRange ∧
      (∃ n D, (∀ m, n ≤ m → (CheckLoop.step (ofTargets [[1], [1, 2], [1]])
          (Labelling.atLines [0, 1]))^[m]
          (.start (ofTargets [[1], [1, 2], [1]]) (.until .top (.release .bot (.atom "p")))) =
            .finished D) ∧
        ∀ steps, D.tableau.size ≤ steps → D.tableau.verdictIn steps = .violated ⟨[0], [1]⟩) ∧
      ∀ n, ((CheckLoop.step (ofTargets [[1], [1, 2], [1]]) (Labelling.atLines [0, 1]))^[n]
        (.start (ofTargets [[1], [1, 2], [1]])
          (.until .top (.release .bot (.atom "p"))))).docket.tableau.size ≤ 96 := by
  have hrange : (ofTargets [[1], [1, 2], [1]]).InRange := by decide
  have hcheck : (ofTargets [[1], [1, 2], [1]]).check (Labelling.atLines [0, 1])
      (.until .top (.release .bot (.atom "p"))) = .violated ⟨[0], [1]⟩ := by decide +kernel
  obtain ⟨hends, -, hsize⟩ := check_terminates (ofTargets [[1], [1, 2], [1]])
    (Labelling.atLines [0, 1]) (.until .top (.release .bot (.atom "p")))
  exact ⟨hrange, hcheck ▸ hends, hsize hrange⟩

end StateSpace

end ShapeCheck
