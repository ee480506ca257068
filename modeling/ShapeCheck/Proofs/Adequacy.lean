import ShapeCheck.Proofs.Thread

/-!
# What the checker's answers mean

A violation is always real: if every state that can be reached has a successor, some path violates
the formula. The converse depends on the formula. A component of the tableau counts as justified if
its sequents share a release, which is enough as long as a release gets into a sequent only by being
postponed; so the checker is right about formulae without a next. A next of a release can ask for
the same release again and again while its second argument fails, and then a formula is accepted
that does not hold. What is needed is that the inferences inside every component *uphold* a release.
-/

namespace ShapeCheck

/-- No next occurs in a formula. -/
def Formula.IsNextFree (a : Formula) : Prop :=
  ∀ b ∈ a.subformulae, b.isNext = false

instance (a : Formula) : Decidable a.IsNextFree :=
  inferInstanceAs (Decidable (∀ b ∈ a.subformulae, b.isNext = false))

/-- The space with a state at each line, the first one initial, and steps to the given states. -/
def StateSpace.ofTargets (targets : List (List StateId)) : StateSpace State.fingerprint where
  entries := (targets.zipIdx.map fun (ids, i) =>
    { state := { heap := default, location := .line i }, kind := .normal,
      edges := ids.map (.flow, ·) }).toArray
  initial := [0]

/-- The labelling that makes all atoms true at some lines and false elsewhere. -/
def Labelling.atLines (lines : List Nat) : Labelling :=
  fun s _ => lines.any (s.location = .line ·)

namespace StateSpace

variable {fp : State → Nat} {sp : StateSpace fp} {labels : Labelling} {a : Formula}

/-- A thread along a path ends in a component with a cycle of a tableau without failures. -/
private theorem exists_component_of_isThread {π : Nat → StateId} {e : Nat → Inference}
    (hnone : (sp.tableau labels a).failure = none) (hπ : sp.IsPath π)
    (he : IsThread sp labels π e) (h0 : (e 0).source = Sequent.root a (π 0)) :
    ∃ C ∈ (sp.tableau labels a).graph.components,
      Tableau.hasCycle (sp.tableau labels a).graph C ∧
        ∃ n, ∀ k, n ≤ k → ∃ v ∈ C, (sp.tableau labels a).sequent v = (e k).source := by
  obtain ⟨i, hi, hroot⟩ := @exists_root_tableau _ sp labels a _ hπ.initial
  have hclosed := isClosed_of_failure_eq_none hnone
  obtain ⟨ν, hν, hedge⟩ :=
    hclosed.exists_nodes tableau_isDerived he hi (hroot.trans h0.symm)
  obtain ⟨C, hC, hcycle, n, hn⟩ := tableau_isDerived.exists_component Graph.components hedge
  exact ⟨C, hC, hcycle, n, fun k hk => ⟨ν k, hn k hk, (hν k).2⟩⟩

theorem satisfies_of_next_release_notMem (ha : ∀ f g, .next (.release f g) ∉ a.subformulae)
    (h : sp.check labels a = .satisfied) : sp.Satisfies labels a := by
  rw [check_eq, Tableau.verdict_eq_satisfied_iff] at h
  obtain ⟨hnone, hjust⟩ := h
  intro π hπ
  by_contra hfail
  have hroot : ¬ FormulaSet.Holds (sp.word labels π) (SortedSet.ofList [a]) 0 := by
    simpa [FormulaSet.Holds, SortedSet.mem_ofList] using hfail
  obtain ⟨r, hr0, hr⟩ := FormulaSet.Run.exists_isRefuting hroot
  have hsource : (r.thread π 0).source = Sequent.root a (π 0) := by
    rw [FormulaSet.Run.thread, hr0, Sequent.root]
  obtain ⟨C, hC, hcycle, n, hn⟩ :=
    exists_component_of_isThread hnone hπ (r.isThread hπ.step) hsource
  have hne := Tableau.ne_nil_of_mem_components tableau_isDerived.inRange_graph hC
  obtain ⟨f, g, hfg⟩ := (Tableau.isJustified_iff hne).1 (hjust C hC hcycle)
  have hmem (k : Nat) (hk : n ≤ k) : .release f g ∈ r.sets k := by
    obtain ⟨v, hv, hseq⟩ := hn k hk
    have hrel := hfg v hv
    rwa [hseq] at hrel
  -- the release fails, so its second argument does somewhere; it was not postponed there
  obtain ⟨k, hk, hg⟩ := hr.exists_not_holds (hmem n (Nat.le_refl n))
  have hnext : .next (.release f g) ∈ r.leaf k := by
    rw [← FormulaSet.mem_bodies, ← r.sets_succ]
    exact hmem (k + 1) (by omega)
  rcases (hr k).postponed f g hnext with hholds | ⟨e, he, hsub⟩
  · exact hg hholds
  · obtain ⟨e', he', hsub'⟩ := r.exists_mem_subformulae he
    rw [hr0, SortedSet.mem_ofList, List.mem_singleton] at he'
    subst he'
    exact ha f g (Formula.mem_subformulae_trans hsub' hsub)

/-- If a formula without a next is accepted, it holds on every path. -/
theorem satisfies_of_isNextFree (ha : a.IsNextFree) (h : sp.check labels a = .satisfied) :
    sp.Satisfies labels a := by
  refine satisfies_of_next_release_notMem (fun f g hmem => ?_) h
  have hnext := ha _ hmem
  simp [Formula.isNext] at hnext

/-- Two states in turn, one of them with `p`: always again `p`. -/
theorem satisfies_always_eventually :
    (Formula.release .bot (.until .top (.atom "p"))).IsNextFree ∧
      (ofTargets [[1], [0]]).check (Labelling.atLines [1])
        (.release .bot (.until .top (.atom "p"))) = .satisfied ∧
      (ofTargets [[1], [0]]).Satisfies (Labelling.atLines [1])
        (.release .bot (.until .top (.atom "p"))) :=
  ⟨by decide, by decide +kernel, satisfies_of_isNextFree (by decide) (by decide +kernel)⟩

/-- An accepted formula holds on every path exactly if the inferences inside each component with a
cycle uphold a common release. -/
theorem satisfies_iff_forall_isUpheld (h : sp.check labels a = .satisfied) :
    sp.Satisfies labels a ↔ ∀ C ∈ (sp.tableau labels a).graph.components,
      Tableau.hasCycle (sp.tableau labels a).graph C →
        Tableau.IsUpheld sp labels (sp.tableau labels a) C := by
  rw [check_eq, Tableau.verdict_eq_satisfied_iff] at h
  obtain ⟨hnone, -⟩ := h
  constructor
  · intro hsat C hC _
    by_contra hnot
    obtain ⟨π, hπ, hfail⟩ := tableau_isDerived.exists_isPath_of_not_isUpheld hC hnot
    exact hfail (hsat π hπ)
  · intro hall π hπ
    refine (holds_iff_forall_root_thread hπ.step).2 fun e he h0 => ?_
    obtain ⟨C, hC, hcycle, n, hn⟩ := exists_component_of_isThread hnone hπ he h0
    obtain ⟨f, g, hfg⟩ := hall C hC hcycle
    refine ⟨f, g, n, fun k hk => hfg (e k) ⟨he.isValid k, hn k hk, ?_⟩⟩
    rw [he.target]
    exact hn (k + 1) (by omega)

/-- The exact condition for a formula that is accepted on a loop without `p`. -/
theorem satisfies_iff_eventually_next_always :
    (ofTargets [[0]]).check (Labelling.atLines [])
        (.until .top (.next (.release .bot (.atom "p")))) = .satisfied ∧
      ((ofTargets [[0]]).Satisfies (Labelling.atLines [])
          (.until .top (.next (.release .bot (.atom "p")))) ↔
        ∀ C ∈ ((ofTargets [[0]]).tableau (Labelling.atLines [])
            (.until .top (.next (.release .bot (.atom "p"))))).graph.components,
          Tableau.hasCycle ((ofTargets [[0]]).tableau (Labelling.atLines [])
              (.until .top (.next (.release .bot (.atom "p"))))).graph C →
            Tableau.IsUpheld (ofTargets [[0]]) (Labelling.atLines [])
              ((ofTargets [[0]]).tableau (Labelling.atLines [])
                (.until .top (.next (.release .bot (.atom "p"))))) C) :=
  ⟨by decide +kernel, satisfies_iff_forall_isUpheld (by decide +kernel)⟩

/-- On a loop without `p`, it is accepted that eventually, from the next state on, always `p`. -/
theorem not_satisfies_eventually_next_always :
    (ofTargets [[0]]).check (Labelling.atLines [])
        (.until .top (.next (.release .bot (.atom "p")))) = .satisfied ∧
      ¬ (ofTargets [[0]]).Satisfies (Labelling.atLines [])
        (.until .top (.next (.release .bot (.atom "p")))) := by
  refine ⟨by decide +kernel, fun h => ?_⟩
  have hpath : (ofTargets [[0]]).IsPath fun _ => 0 :=
    ⟨by decide, fun _ => by decide +kernel⟩
  obtain ⟨k, -, halways, -⟩ := h _ hpath
  rcases halways (k + 1) (Nat.le_refl _) with hp | ⟨j, -, -, hbot⟩
  · have hp : Tableau.valuation (ofTargets [[0]]) (Labelling.atLines []) 0 "p" = true := hp
    exact absurd hp (by decide +kernel)
  · exact hbot

theorem isTotal_of_lt {n : Nat} (hinitial : ∀ id ∈ sp.initial, id < n)
    (hstep : ∀ id, id < n → sp.checkSuccessors id ≠ [] ∧ ∀ id' ∈ sp.checkSuccessors id, id' < n) :
    sp.IsTotal := by
  intro id hid
  have hlt : id < n := by
    induction hid with
    | initial h => exact hinitial _ h
    | step _ hn ih => exact (hstep _ ih).2 _ hn
  exact (hstep id hlt).1

theorem IsTotal.exists_steps (h : sp.IsTotal) {id : StateId} (hid : sp.Reachable id) :
    ∃ π : Nat → StateId, π 0 = id ∧ ∀ i, π (i + 1) ∈ sp.checkSuccessors (π i) := by
  have hnext (s : { s // sp.Reachable s }) :
      ∃ t : { t // sp.Reachable t }, t.1 ∈ sp.checkSuccessors s.1 := by
    obtain ⟨t, ht⟩ := List.exists_mem_of_ne_nil _ (h s.1 s.2)
    exact ⟨⟨t, .step s.2 ht⟩, ht⟩
  choose next hnext using hnext
  let π (i : Nat) : { s // sp.Reachable s } := Nat.rec ⟨id, hid⟩ (fun _ => next) i
  exact ⟨fun i => (π i).1, rfl, fun i => hnext (π i)⟩

/-- If every state that can be reached has a successor, a formula that is refused fails on some
path. -/
theorem exists_isPath_of_violated (htotal : sp.IsTotal) {c : Counterexample}
    (h : sp.check labels a = .violated c) :
    ∃ π, sp.IsPath π ∧ ¬ a.Holds (sp.word labels π) 0 := by
  rw [check_eq] at h
  rcases Tableau.verdict_eq_violated h with ⟨i, hfail, -⟩ | ⟨-, C, hC, hcycle, hjust, -⟩
  · obtain ⟨hi, hfailing⟩ := isFailing_of_failure_eq_some hfail
    obtain ⟨π, h0, hπ⟩ := htotal.exists_steps (tableau_isDerived.reachable hi)
    exact tableau_isDerived.exists_isPath_of_not_holds hi h0 hπ (hfailing.not_holds h0)
  · refine tableau_isDerived.exists_isPath_of_not_isUpheld hC fun hup => hjust ?_
    exact tableau_isDerived.isJustified_of_isUpheld hC hcycle hup

/-- A path may stay in the first of two states forever and never come to `p`. -/
theorem exists_isPath_eventually :
    (ofTargets [[0, 1], [1]]).IsTotal ∧
      (ofTargets [[0, 1], [1]]).check (Labelling.atLines [1]) (.until .top (.atom "p")) =
        .violated ⟨[], [0]⟩ ∧
      ∃ π, (ofTargets [[0, 1], [1]]).IsPath π ∧ ¬ (Formula.until .top (.atom "p")).Holds
        ((ofTargets [[0, 1], [1]]).word (Labelling.atLines [1]) π) 0 := by
  have htotal : (ofTargets [[0, 1], [1]]).IsTotal :=
    isTotal_of_lt (n := 2) (by decide) (by decide +kernel)
  have hcheck : (ofTargets [[0, 1], [1]]).check (Labelling.atLines [1]) (.until .top (.atom "p")) =
      .violated ⟨[], [0]⟩ := by decide +kernel
  exact ⟨htotal, hcheck, exists_isPath_of_violated htotal hcheck⟩

end StateSpace

end ShapeCheck
