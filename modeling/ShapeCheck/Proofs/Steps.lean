import ShapeCheck.Proofs.Exploration
import Mathlib.Logic.Relation

/-!
# The steps of a state space

States are looked up through an index, so a space holds each state once, and the steps of a state can
be told by the states that they lead to. A space in which every state is reached from an initial one
is *connected*. This file gathers what the operations on spaces do to the steps of a state.
-/

namespace ShapeCheck

open Relation List

namespace StateSpace

variable {fp : State → Nat} {sp : StateSpace fp} {i j target : StateId} {kind : EdgeKind}
  {t u : State} {e : EdgeKind × StateId} {out : List (EdgeKind × State)}

/-- A step of some kind from a state with a number to a state. -/
def HasStep (sp : StateSpace fp) (i : StateId) (kind : EdgeKind) (u : State) : Prop :=
  ∃ j, (kind, j) ∈ sp.edges i ∧ sp.state? j = some u

/-- The steps that leave a state are the given ones. -/
def StepsAre (sp : StateSpace fp) (i : StateId) (out : List (EdgeKind × State)) : Prop :=
  ∀ kind u, sp.HasStep i kind u ↔ (kind, u) ∈ out

/-- States are listed under their fingerprint and occur once, steps lead to states of the space, and
the final states are those with a loop. -/
structure IsTable (sp : StateSpace fp) : Prop where
  indexed : ∀ i t, sp.state? i = some t → i ∈ sp.index.getD (fp t) []
  unique : ∀ i j t, sp.state? i = some t → sp.state? j = some t → i = j
  inRange : ∀ i e, e ∈ sp.edges i → e.2 < sp.size
  loop : ∀ i j, (.loop, j) ∈ sp.edges i → j = i
  final : ∀ i, sp.isFinal i ↔ (.loop, i) ∈ sp.edges i

/-- Some step leads from one state to another. -/
def Links (sp : StateSpace fp) (i j : StateId) : Prop :=
  ∃ kind, (kind, j) ∈ sp.edges i

/-- Every state is reached from an initial state by steps of the space. -/
def IsConnected (sp : StateSpace fp) : Prop :=
  ∀ i, i < sp.size → ∃ r ∈ sp.initial, ReflTransGen sp.Links r i

theorem lt_size_of_isExpanded (h : sp.isExpanded i) : i < sp.size := by
  rw [isExpanded, Option.any_eq_true] at h
  obtain ⟨e, he, -⟩ := h
  exact (Array.getElem?_eq_some_iff.1 he).1

theorem mem_edges_addEdge_iff : e ∈ (sp.addEdge i kind target).edges j ↔
    e ∈ sp.edges j ∨ j = i ∧ j < sp.size ∧ e = (kind, target) := by
  rw [edges_eq, addEdge, Array.getElem?_modify, edges_eq, size]
  by_cases hlt : j < sp.entries.size
  · rw [Array.getElem?_eq_getElem hlt]
    by_cases hj : i = j
    · subst hj
      by_cases hmem : (kind, target) ∈ (sp.entries[i]).edges
      · have himp : e = (kind, target) → e ∈ (sp.entries[i]).edges := fun h => h ▸ hmem
        simpa [hmem, hlt] using himp
      · simp [hmem, hlt]
    · simp [hj, Ne.symm hj]
  · simp [hlt]

theorem edges_addEdge_of_ne (hj : j ≠ i) : (sp.addEdge i kind target).edges j = sp.edges j := by
  rw [edges_eq, edges_eq, addEdge, Array.getElem?_modify, if_neg (Ne.symm hj)]

theorem edges_setFinal_of_ne (hj : j ≠ i) : (sp.setFinal i).edges j = sp.edges j := by
  rw [setFinal]
  split
  · rfl
  · rw [edges_addEdge_of_ne hj, edges_eq, edges_eq]
    exact congrArg (Option.getD · []) (map_getElem?_modify fun _ => rfl)

theorem isFinal_setFinal :
    (sp.setFinal i).isFinal j ↔ sp.isFinal j ∨ j = i ∧ i < sp.size := by
  rw [setFinal]
  split
  · next h => exact ⟨.inl, fun h' => h'.elim id fun h' => h'.1 ▸ h⟩
  · rw [isFinal_addEdge, isFinal, Array.getElem?_modify, isFinal, size]
    by_cases hj : i = j
    · subst hj
      by_cases hlt : i < sp.entries.size <;> simp [hlt]
    · simp [hj, Ne.symm hj]

theorem mem_edges_setFinal_iff (h : sp.IsTable) (hi : i < sp.size) :
    e ∈ (sp.setFinal i).edges j ↔ e ∈ sp.edges j ∨ j = i ∧ e = (.loop, i) := by
  rw [setFinal]
  split
  · next hf =>
    exact ⟨.inl, fun he => he.elim id fun hloop => hloop.1 ▸ hloop.2 ▸ (h.final i).1 hf⟩
  · have hedges : ({ sp with
          entries := sp.entries.modify i fun e => { e with kind := .final }
          finals := sp.finals ++ [i] } : StateSpace fp).edges j = sp.edges j := by
      rw [edges_eq, edges_eq]
      exact congrArg (Option.getD · []) (map_getElem?_modify fun _ => rfl)
    rw [mem_edges_addEdge_iff, hedges]
    refine or_congr_right ⟨fun h => ⟨h.1, h.2.2⟩, fun h => ⟨h.1, ?_, h.2⟩⟩
    rw [h.1]
    exact Nat.lt_of_lt_of_le hi (Nat.le_of_eq Array.size_modify.symm)

theorem IsTable.state?_ne_of_fresh (h : sp.IsTable) (hfresh : (sp.insert t).2.2) :
    sp.state? i ≠ some t := by
  intro hi
  rw [insert] at hfresh
  split at hfresh
  · cases hfresh
  · next hnone =>
    rw [find?, find?_eq_none] at hnone
    exact hnone i (h.indexed i t hi) (by simpa using hi)

theorem initial_insert : (sp.insert t).1.initial = sp.initial := by
  rw [insert]
  split <;> rfl

theorem IsTable.insert (h : sp.IsTable) (t : State) : (sp.insert t).1.IsTable where
  indexed i u hu := by
    rw [state?_insert] at hu
    rw [StateSpace.insert]
    split
    · next id hid =>
      have hold : (sp.insert t).2.2 = false := by rw [StateSpace.insert, hid]
      rw [if_neg (by simp [hold])] at hu
      exact h.indexed i u hu
    · next hid =>
      have hnew : (sp.insert t).2 = (sp.size, true) := by rw [StateSpace.insert, hid]
      rw [hnew] at hu
      simp only [Std.TreeMap.getD_insert]
      split at hu
      · next heq =>
        obtain rfl := Option.some.inj hu
        simp [heq.2]
      · have hmem := h.indexed i u hu
        split
        · next heq =>
          rw [Nat.compare_eq_eq] at heq
          exact mem_append_left _ (heq ▸ hmem)
        · exact hmem
  unique i j u hi hj := by
    rw [state?_insert] at hi hj
    have hfresh (hf : (sp.insert t).2.2) (k : StateId) : sp.state? k ≠ some t :=
      h.state?_ne_of_fresh hf
    split at hi
    · next hi' =>
      split at hj
      · next hj' => rw [hi'.2, hj'.2]
      · exact absurd (Option.some.inj hi ▸ hj) (hfresh hi'.1 j)
    · split at hj
      · next hj' => exact absurd (Option.some.inj hj ▸ hi) (hfresh hj'.1 i)
      · exact h.unique i j u hi hj
  inRange i e he := by
    rw [edges_insert] at he
    exact Nat.lt_of_lt_of_le (h.inRange i e he) size_le_size_insert
  loop i j hij := by
    rw [edges_insert] at hij
    exact h.loop i j hij
  final i := by
    rw [(sp.insert_eq t i).2.1, edges_insert]
    exact h.final i

theorem IsTable.stepsAre_congr (h : sp.IsTable) {sp' : StateSpace fp} (hgrows : sp.Grows sp')
    (hedges : sp'.edges i = sp.edges i) : sp'.StepsAre i out ↔ sp.StepsAre i out := by
  have hstep (kind : EdgeKind) (u : State) : sp'.HasStep i kind u ↔ sp.HasStep i kind u := by
    rw [HasStep, HasStep, hedges]
    refine exists_congr fun j => and_congr_right fun hj => ?_
    obtain ⟨v, hv⟩ := exists_state?_of_lt (h.inRange i _ hj)
    rw [hv, hgrows.state? j v hv]
  exact forall₂_congr fun kind u => by rw [hstep]

theorem IsTable.addEdge (h : sp.IsTable) (htarget : target < sp.size) (hkind : kind ≠ .loop) :
    (sp.addEdge i kind target).IsTable where
  indexed j u hu := h.indexed j u (by simpa using hu)
  unique j k u hj hk := h.unique j k u (by simpa using hj) (by simpa using hk)
  inRange j e he := by
    rw [size_addEdge]
    rcases mem_edges_addEdge_iff.1 he with he | ⟨-, -, rfl⟩
    · exact h.inRange j e he
    · exact htarget
  loop j k hjk := by
    rcases mem_edges_addEdge_iff.1 hjk with hjk | ⟨-, -, heq⟩
    · exact h.loop j k hjk
    · exact absurd (congrArg Prod.fst heq).symm hkind
  final j := by
    rw [isFinal_addEdge, h.final, mem_edges_addEdge_iff]
    exact ⟨.inl, fun he => he.resolve_right fun he => hkind (congrArg Prod.fst he.2.2).symm⟩

theorem stepsAre_addEdge (hi : i < sp.size) (hu : sp.state? target = some u)
    (hout : sp.StepsAre i out) : (sp.addEdge i kind target).StepsAre i (out ++ [(kind, u)]) := by
  intro k v
  rw [mem_append, mem_singleton, ← hout k v]
  simp only [HasStep, mem_edges_addEdge_iff, state?_addEdge, hi, true_and, Prod.mk.injEq]
  constructor
  · rintro ⟨j, hj | ⟨rfl, rfl⟩, hv⟩
    · exact .inl ⟨j, hj, hv⟩
    · exact .inr ⟨rfl, Option.some.inj (hv.symm.trans hu)⟩
  · rintro (⟨j, hj, hv⟩ | ⟨rfl, rfl⟩)
    · exact ⟨j, .inl hj, hv⟩
    · exact ⟨target, .inr ⟨rfl, rfl⟩, hu⟩

theorem IsTable.setFinal (h : sp.IsTable) (hi : i < sp.size) : (sp.setFinal i).IsTable where
  indexed j u hu := by
    have hindex : (sp.setFinal i).index = sp.index := by
      rw [StateSpace.setFinal]
      split <;> rfl
    rw [hindex]
    exact h.indexed j u (by simpa using hu)
  unique j k u hj hk := h.unique j k u (by simpa using hj) (by simpa using hk)
  inRange j e he := by
    rw [size_setFinal]
    rcases (mem_edges_setFinal_iff h hi).1 he with he | ⟨-, rfl⟩
    · exact h.inRange j e he
    · exact hi
  loop j k hjk := by
    rcases (mem_edges_setFinal_iff h hi).1 hjk with hjk | ⟨rfl, heq⟩
    · exact h.loop j k hjk
    · exact congrArg Prod.snd heq
  final j := by
    rw [isFinal_setFinal, h.final, mem_edges_setFinal_iff h hi]
    refine or_congr_right ⟨fun hj => ⟨hj.1, by rw [hj.1]⟩, fun hj => ⟨hj.1, hi⟩⟩

theorem initial_setFinal : (sp.setFinal i).initial = sp.initial := by
  rw [setFinal]
  split <;> rfl

theorem IsTable.stepsAre_setFinal (h : sp.IsTable) (hu : sp.state? i = some u)
    (hout : sp.StepsAre i out) : (sp.setFinal i).StepsAre i (out ++ [(.loop, u)]) := by
  intro k v
  rw [mem_append, mem_singleton, ← hout k v]
  simp only [HasStep, mem_edges_setFinal_iff h (lt_size_of_state? hu), state?_setFinal, true_and,
    Prod.mk.injEq]
  constructor
  · rintro ⟨j, hj | ⟨rfl, rfl⟩, hv⟩
    · exact .inl ⟨j, hj, hv⟩
    · exact .inr ⟨rfl, Option.some.inj (hv.symm.trans hu)⟩
  · rintro (⟨j, hj, hv⟩ | ⟨rfl, rfl⟩)
    · exact ⟨j, .inl hj, hv⟩
    · exact ⟨i, .inr ⟨rfl, rfl⟩, hu⟩

theorem IsTable.markExpanded (h : sp.IsTable) (i : StateId) : (sp.markExpanded i).IsTable where
  indexed j u hu := h.indexed j u (by simpa using hu)
  unique j k u hj hk := h.unique j k u (by simpa using hj) (by simpa using hk)
  inRange j e he := by simpa using h.inRange j e (by simpa using he)
  loop j k hjk := h.loop j k (by simpa using hjk)
  final j := by simpa using h.final j

@[simp]
theorem stepsAre_markExpanded : (sp.markExpanded i).StepsAre j out ↔ sp.StepsAre j out := by
  simp only [StepsAre, HasStep, edges_markExpanded, state?_markExpanded]

/-- A state follows another on a path if a step leads there, or an unfolding step and a further one. -/
theorem mem_checkSuccessors_iff : j ∈ sp.checkSuccessors i ↔
    (∃ kind, kind ≠ .unfolding ∧ (kind, j) ∈ sp.edges i) ∨
      ∃ k, (.unfolding, k) ∈ sp.edges i ∧ ∃ kind, kind ≠ .unfolding ∧ (kind, j) ∈ sp.edges k := by
  rw [checkSuccessors, mem_eraseDups, mem_flatMap]
  constructor
  · rintro ⟨⟨kind, k⟩, hk, hj⟩
    cases kind with
    | unfolding =>
      obtain ⟨⟨kind, j'⟩, he, rfl⟩ := mem_map.1 hj
      obtain ⟨he, hkind⟩ := mem_filter.1 he
      exact .inr ⟨k, hk, kind, by simpa using hkind, he⟩
    | flow => exact .inl ⟨.flow, by simp, mem_singleton.1 hj ▸ hk⟩
    | loop => exact .inl ⟨.loop, by simp, mem_singleton.1 hj ▸ hk⟩
  · rintro (⟨kind, hkind, he⟩ | ⟨k, hk, kind, hkind, he⟩)
    · refine ⟨(kind, j), he, ?_⟩
      cases kind with
      | unfolding => exact absurd rfl hkind
      | flow => exact mem_cons_self
      | loop => exact mem_cons_self
    · exact ⟨(.unfolding, k), hk, mem_map.2
        ⟨(kind, j), mem_filter.2 ⟨he, by simpa using hkind⟩, rfl⟩⟩

theorem IsTable.lt_size_of_mem_checkSuccessors (h : sp.IsTable) (hj : j ∈ sp.checkSuccessors i) :
    j < sp.size := by
  rcases mem_checkSuccessors_iff.1 hj with ⟨kind, -, hj⟩ | ⟨k, -, kind, -, hj⟩
  · exact h.inRange i _ hj
  · exact h.inRange k _ hj

theorem IsConnected.of_edges {sp' : StateSpace fp} (h : sp.IsConnected) (hsize : sp'.size = sp.size)
    (hinitial : sp'.initial = sp.initial) (hedges : ∀ i e, e ∈ sp.edges i → e ∈ sp'.edges i) :
    sp'.IsConnected := by
  intro i hi
  obtain ⟨r, hr, hri⟩ := h i (hsize ▸ hi)
  exact ⟨r, hinitial ▸ hr, ReflTransGen.mono (fun i j hij => hij.imp fun _ => hedges i _) _ _ hri⟩

/-- The state with the number that an insertion returns, or a state that was there before. -/
theorem lt_size_or_eq_of_lt_insert (hj : j < (sp.insert t).1.size) :
    j < sp.size ∨ j = (sp.insert t).2.1 := by
  rcases sp.insert_cases t with ⟨id, -, heq⟩ | ⟨heq, -, kind, -, hentries⟩
  · rw [heq] at hj
    exact .inl hj
  · rw [heq]
    rw [size, hentries, Array.size_push] at hj
    exact Nat.lt_succ_iff_lt_or_eq.1 hj

theorem IsConnected.connect (h : sp.IsConnected) (hi : i < sp.size) :
    ((sp.insert t).1.addEdge i kind (sp.insert t).2.1).IsConnected := by
  have hedges (j : StateId) (e : EdgeKind × StateId) :
      e ∈ ((sp.insert t).1.addEdge i kind (sp.insert t).2.1).edges j ↔
        e ∈ sp.edges j ∨ j = i ∧ j < (sp.insert t).1.size ∧ e = (kind, (sp.insert t).2.1) := by
    rw [mem_edges_addEdge_iff, edges_insert]
  have hold (j : StateId) (hj : j < sp.size) : ∃ r ∈ sp.initial, ReflTransGen
      ((sp.insert t).1.addEdge i kind (sp.insert t).2.1).Links r j := by
    obtain ⟨r, hr, hrj⟩ := h j hj
    refine ⟨r, hr, ReflTransGen.mono (fun a b hab => ?_) _ _ hrj⟩
    exact hab.imp fun k hk => (hedges a _).2 (.inl hk)
  intro j hj
  rw [size_addEdge] at hj
  have hinitial : ((sp.insert t).1.addEdge i kind (sp.insert t).2.1).initial = sp.initial :=
    initial_insert
  rw [hinitial]
  rcases lt_size_or_eq_of_lt_insert hj with hj | rfl
  · exact hold j hj
  · obtain ⟨r, hr, hri⟩ := hold i hi
    exact ⟨r, hr, hri.tail ⟨kind, (hedges i _).2
      (.inr ⟨rfl, Nat.lt_of_lt_of_le hi size_le_size_insert, rfl⟩)⟩⟩

/-- A later stage of a space with the same initial states. States that have been expanded in between
are unfolded ones. -/
structure Advances (sp sp' : StateSpace fp) : Prop where
  grows : sp.Grows sp'
  initial : sp'.initial = sp.initial
  isExpanded : ∀ j, sp.isExpanded j → sp'.isExpanded j
  unfolded : ∀ j, sp'.isExpanded j → sp.isExpanded j ∨ ∃ t, sp'.state? j = some t ∧ t.unfolded

theorem Advances.refl (sp : StateSpace fp) : sp.Advances sp :=
  ⟨.refl sp, rfl, fun _ h => h, fun _ h => .inl h⟩

theorem Advances.trans {sp₁ sp₂ sp₃ : StateSpace fp} (h : sp₁.Advances sp₂)
    (h' : sp₂.Advances sp₃) : sp₁.Advances sp₃ where
  grows := h.grows.trans h'.grows
  initial := h'.initial.trans h.initial
  isExpanded j hj := h'.isExpanded j (h.isExpanded j hj)
  unfolded j hj := by
    rcases h'.unfolded j hj with hj | hj
    · exact (h.unfolded j hj).imp_right fun ⟨t, ht, hunf⟩ => ⟨t, h'.grows.state? j t ht, hunf⟩
    · exact .inr hj

theorem advances_connect :
    sp.Advances ((sp.insert t).1.addEdge i kind (sp.insert t).2.1) where
  grows := (sp.grows_insert t).trans (grows_addEdge _ _ _ _)
  initial := initial_insert
  isExpanded j hj := by simpa using hj
  unfolded j hj := .inl (by simpa using hj)

theorem advances_setFinal (h : sp.FinalsAreListed) : sp.Advances (sp.setFinal i) where
  grows := grows_setFinal h i
  initial := initial_setFinal
  isExpanded j hj := by rwa [isExpanded_setFinal]
  unfolded j hj := .inl (by rwa [isExpanded_setFinal] at hj)

theorem advances_markExpanded (ht : sp.state? i = some t) (hunf : t.unfolded) :
    sp.Advances (sp.markExpanded i) where
  grows := sp.grows_markExpanded i
  initial := rfl
  isExpanded j hj := by simp [isExpanded_markExpanded, hj]
  unfolded j hj := by
    rw [isExpanded_markExpanded, Bool.or_eq_true, decide_eq_true_eq] at hj
    rcases hj with ⟨rfl, -⟩ | hj
    · exact .inr ⟨t, state?_markExpanded.trans ht, hunf⟩
    · exact .inl hj

end StateSpace

end ShapeCheck
