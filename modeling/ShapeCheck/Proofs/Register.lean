import ShapeCheck.Proofs.Steps
import Mathlib.Data.List.Nodup

/-!
# The register of a state space

A state space is built by updates: states are inserted, some of them as initial ones, steps are added,
and states are marked as final or expanded. States are looked up through an index by fingerprint, and
many states may share one. The index lists, under each fingerprint, all states that have it and no
others. So a lookup finds a state if and only if it is there, whatever the fingerprint is, and the
space is a register of the states that were inserted: each is there once, under a number that stays.
-/

namespace ShapeCheck

open List Option

variable {fp : State → Nat}

/-- An operation on a state space. -/
inductive Update where
  | insert (t : State)
  | addInitial (t : State)
  | addEdge (source : StateId) (kind : EdgeKind) (target : StateId)
  | setFinal (id : StateId)
  | markExpanded (id : StateId)
  deriving DecidableEq

namespace Update

/-- The space after an update. -/
def apply (sp : StateSpace fp) : Update → StateSpace fp
  | insert t => (sp.insert t).1
  | addInitial t => (sp.addInitial t).1
  | addEdge source kind target => sp.addEdge source kind target
  | setFinal id => sp.setFinal id
  | markExpanded id => sp.markExpanded id

/-- Whether the state that an update changes is in the space. The target of a step may come later. -/
def fits (sp : StateSpace fp) : Update → Bool
  | insert _ | addInitial _ => true
  | addEdge id _ _ | setFinal id | markExpanded id => id < sp.size

/-- The state that an update inserts. -/
def state? : Update → Option State
  | insert t | addInitial t => some t
  | _ => none

/-- Whether an update adds a loop like those of final states. -/
def addsLoop : Update → Bool
  | addEdge _ .loop _ => true
  | _ => false

/-- The states that a sequence of updates inserts, with repetitions. -/
def states (us : List Update) : List State :=
  us.filterMap state?

end Update

namespace StateSpace

variable {sp : StateSpace fp} {i j target id : StateId} {kind : EdgeKind} {t : State} {u : Update}
  {us : List Update} {states : List State}

/-- The space after a sequence of updates. -/
def run (sp : StateSpace fp) : List Update → StateSpace fp
  | [] => sp
  | u :: us => (u.apply sp).run us

/-- Whether each update of a sequence fits the space that is there by then. -/
def fitAll (sp : StateSpace fp) : List Update → Bool
  | [] => true
  | u :: us => u.fits sp && (u.apply sp).fitAll us

theorem insert_of_find?_eq_some (h : sp.find? t = some id) :
    sp.insert t = ({ sp with merges := sp.merges + 1 }, id, false) := by
  rw [insert, h]

/-- A state that is not found gets the next number and comes last under its fingerprint. -/
theorem insert_of_find?_eq_none (h : sp.find? t = none) :
    (sp.insert t).2 = (sp.size, true) ∧ (sp.insert t).1.size = sp.size + 1 ∧
      (sp.insert t).1.merges = sp.merges ∧
      (sp.insert t).1.index = sp.index.insert (fp t) (sp.index.getD (fp t) [] ++ [sp.size]) := by
  rw [insert, h]
  exact ⟨rfl, Array.size_push _, rfl, rfl⟩

theorem edges_addEdge (hi : i < sp.size) : (sp.addEdge i kind target).edges j =
    if j = i ∧ (kind, target) ∉ sp.edges i then sp.edges i ++ [(kind, target)] else sp.edges j := by
  by_cases hj : j = i
  · subst hj
    have hentry : sp.entries[j]? = some sp.entries[j] := Array.getElem?_eq_getElem hi
    simp only [edges_eq, addEdge, Array.getElem?_modify, hentry, if_true, map_some,
      getD_some, true_and]
    split <;> simp_all
  · rw [edges_addEdge_of_ne hj, if_neg fun h => hj h.1]

theorem edges_setFinal (hi : i < sp.size) (hf : ¬ sp.isFinal i) : (sp.setFinal i).edges j =
    if j = i ∧ (.loop, i) ∉ sp.edges i then sp.edges i ++ [(.loop, i)] else sp.edges j := by
  let marked : StateSpace fp := { sp with
    entries := sp.entries.modify i fun e => { e with kind := .final }
    finals := sp.finals ++ [i] }
  have hsize : marked.size = sp.size := Array.size_modify
  have hedges (j : StateId) : marked.edges j = sp.edges j := by
    rw [edges_eq, edges_eq]
    exact congrArg (Option.getD · []) (map_getElem?_modify fun _ => rfl)
  have hadd : (marked.addEdge i .loop i).edges j = _ := edges_addEdge (Nat.lt_of_lt_of_eq hi hsize.symm)
  rw [hedges, hedges] at hadd
  rwa [setFinal, if_neg hf]

theorem setFinal_of_isFinal (hf : sp.isFinal i) : sp.setFinal i = sp :=
  if_pos hf

theorem finals_setFinal (hf : ¬ sp.isFinal i) : (sp.setFinal i).finals = sp.finals ++ [i] := by
  rw [setFinal, if_neg hf]
  rfl

theorem index_setFinal : (sp.setFinal i).index = sp.index := by
  rw [setFinal]
  split <;> rfl

theorem merges_setFinal : (sp.setFinal i).merges = sp.merges := by
  rw [setFinal]
  split <;> rfl

/-- What a space keeps account of, if `states` are the states that have been inserted so far. -/
structure IsRegister (states : List State) (sp : StateSpace fp) : Prop where
  /-- The index lists the states of each fingerprint in the order of insertion. -/
  index : ∀ k, sp.index.getD k [] =
    (List.range sp.size).filter fun i => (sp.state? i).map fp = some k
  /-- No state occurs twice. -/
  unique : ∀ i j t, sp.state? i = some t → sp.state? j = some t → i = j
  /-- The states are those that were inserted. -/
  holds : ∀ t, sp.Holds t ↔ t ∈ states
  /-- Every insertion is a new state or is counted as a merge. -/
  merges : sp.merges + sp.size = states.length
  /-- The initial states are listed once. -/
  initial : sp.initial.Nodup
  /-- The final states are listed once. -/
  finals : sp.finals.Nodup
  /-- The steps of a state are listed once. -/
  edges : ∀ i, (sp.edges i).Nodup
  /-- The states of kind final are the ones that are listed. -/
  final : ∀ i, i ∈ sp.finals ↔ sp.isFinal i

/-- The loops are those from final states to themselves, one each. -/
def ClosesFinals (sp : StateSpace fp) : Prop :=
  ∀ i, (sp.edges i).filter (·.1 = .loop) = if sp.isFinal i then [(.loop, i)] else []

theorem isRegister_empty : ({} : StateSpace fp).IsRegister [] where
  index k := by
    rw [show ({} : StateSpace fp).index.getD k [] = [] from Std.TreeMap.getD_emptyc]
    rfl
  unique i j t hi _ := by simp [state?] at hi
  holds t := by simp [Holds, state?]
  merges := rfl
  initial := nodup_nil
  finals := nodup_nil
  edges i := by simp [StateSpace.edges]
  final i := by simp [isFinal]

theorem closesFinals_empty : ({} : StateSpace fp).ClosesFinals := by
  intro i
  simp [StateSpace.edges, isFinal]

namespace IsRegister

theorem find?_eq_some_iff (h : sp.IsRegister states) :
    sp.find? t = some id ↔ sp.state? id = some t := by
  constructor
  · intro hfind
    simpa using find?_some hfind
  · intro hid
    have hbucket : id ∈ sp.index.getD (fp t) [] := by
      rw [h.index, mem_filter, mem_range]
      exact ⟨lt_size_of_state? hid, by simp [hid]⟩
    cases hfind : sp.find? t with
    | none =>
      rw [find?, find?_eq_none] at hfind
      exact absurd (decide_eq_true hid) (hfind id hbucket)
    | some j =>
      have hj : sp.state? j = some t := by simpa using find?_some hfind
      rw [h.unique j id t hj hid]

theorem find?_eq_none_iff (h : sp.IsRegister states) : sp.find? t = none ↔ t ∉ states := by
  rw [eq_none_iff_forall_ne_some, ← h.holds t, Holds, not_exists]
  exact forall_congr' fun id => not_congr h.find?_eq_some_iff

/-- An insertion returns the number of an equal state that was inserted before, or else the next
number. -/
theorem insert_cases (h : sp.IsRegister states) (t : State) :
    (t ∈ states ∧ ∃ id, sp.state? id = some t ∧ (sp.insert t).2 = (id, false)) ∨
      (t ∉ states ∧ (sp.insert t).2 = (sp.size, true)) := by
  cases hfind : sp.find? t with
  | none => exact .inr ⟨h.find?_eq_none_iff.1 hfind, (insert_of_find?_eq_none hfind).1⟩
  | some id =>
    have hid := h.find?_eq_some_iff.1 hfind
    refine .inl ⟨(h.holds t).1 ⟨id, hid⟩, id, hid, ?_⟩
    rw [insert_of_find?_eq_some hfind]

section

variable (h : sp.IsRegister states)
include h

theorem index_insert (hfind : sp.find? t = none) (k : Nat) :
    (sp.insert t).1.index.getD k [] = (List.range (sp.insert t).1.size).filter
      fun i => ((sp.insert t).1.state? i).map fp = some k := by
  obtain ⟨hres, hsize, -, hindex⟩ := insert_of_find?_eq_none hfind
  have hold : (List.range sp.size).filter (fun i => ((sp.insert t).1.state? i).map fp = some k) =
      sp.index.getD k [] := by
    rw [h.index k]
    refine filter_congr fun i hi => ?_
    rw [state?_insert, hres, if_neg fun hnew => Nat.ne_of_lt (mem_range.1 hi) hnew.2]
  have hnew : (sp.insert t).1.state? sp.size = some t := by
    rw [state?_insert, hres, if_pos ⟨rfl, rfl⟩]
  rw [hindex, Std.TreeMap.getD_insert, hsize, range_succ, filter_append, hold,
    filter_singleton, hnew, map_some]
  by_cases hk : fp t = k
  · simp [hk]
  · simp [hk]

theorem insert (t : State) : (sp.insert t).1.IsRegister (states ++ [t]) := by
  cases hfind : sp.find? t with
  | some id =>
    have ht : t ∈ states := (h.holds t).1 ⟨id, h.find?_eq_some_iff.1 hfind⟩
    rw [insert_of_find?_eq_some hfind]
    refine ⟨h.index, h.unique, fun v => ?_, ?_, h.initial, h.finals, h.edges, h.final⟩
    · rw [mem_append, mem_singleton]
      exact (h.holds v).trans (or_iff_left_of_imp fun hv => hv ▸ ht).symm
    · have hmerges := h.merges
      simp only [size, length_append, length_singleton] at hmerges ⊢
      omega
  | none =>
    obtain ⟨hres, hsize, hmerges, -⟩ := insert_of_find?_eq_none hfind
    have ht : ∀ i, sp.state? i ≠ some t := fun i hi =>
      h.find?_eq_none_iff.1 hfind ((h.holds t).1 ⟨i, hi⟩)
    refine ⟨h.index_insert hfind, fun i j v hi hj => ?_, fun v => ?_, ?_, ?_, ?_, fun i => ?_,
      fun i => ?_⟩
    · rw [state?_insert] at hi hj
      split at hi <;> split at hj
      · next hi' hj' => rw [hi'.2, hj'.2]
      · exact absurd (hj.trans hi.symm) (Option.some.inj hi ▸ ht j)
      · exact absurd (hi.trans hj.symm) (Option.some.inj hj ▸ ht i)
      · exact h.unique i j v hi hj
    · rw [mem_append, mem_singleton, ← h.holds v]
      constructor
      · rintro ⟨i, hi⟩
        rw [state?_insert] at hi
        split at hi
        · exact .inr (Option.some.inj hi).symm
        · exact .inl ⟨i, hi⟩
      · rintro (⟨i, hi⟩ | rfl)
        · exact ⟨i, state?_insert_of_state? hi⟩
        · exact ⟨_, state?_insert_self⟩
    · have hcount := h.merges
      rw [hmerges, hsize, length_append, length_singleton]
      omega
    · rw [initial_insert]
      exact h.initial
    · rw [(sp.insert_eq t 0).2.2.2]
      exact h.finals
    · rw [(sp.insert_eq t i).2.2.1]
      exact h.edges i
    · rw [(sp.insert_eq t i).2.2.2, (sp.insert_eq t i).2.1]
      exact h.final i

theorem addInitial (t : State) : (sp.addInitial t).1.IsRegister (states ++ [t]) := by
  obtain ⟨hindex, hunique, hholds, hmerges, hinitial, hfinals, hedges, hfinal⟩ := h.insert t
  refine ⟨hindex, hunique, hholds, hmerges, ?_, hfinals, hedges, hfinal⟩
  rw [StateSpace.addInitial]
  dsimp only
  split
  · exact hinitial
  · next hnew => exact nodup_append_comm.1 (.cons hnew hinitial)

theorem of_states {sp' : StateSpace fp} (hstate : ∀ i, sp'.state? i = sp.state? i)
    (hsize : sp'.size = sp.size) (hindex : sp'.index = sp.index) (hmerges : sp'.merges = sp.merges)
    (hinitial : sp'.initial = sp.initial) (hfinals : sp'.finals.Nodup)
    (hedges : ∀ i, (sp'.edges i).Nodup) (hfinal : ∀ i, i ∈ sp'.finals ↔ sp'.isFinal i) :
    sp'.IsRegister states where
  index k := by
    simp only [hindex, hsize, hstate]
    exact h.index k
  unique i j t := by
    simp only [hstate]
    exact h.unique i j t
  holds t := by
    simp only [Holds, hstate]
    exact h.holds t
  merges := by
    rw [hmerges, hsize]
    exact h.merges
  initial := hinitial ▸ h.initial
  finals := hfinals
  edges := hedges
  final := hfinal

theorem addEdge (hi : i < sp.size) : (sp.addEdge i kind target).IsRegister states := by
  refine h.of_states (fun _ => state?_addEdge) size_addEdge rfl rfl rfl h.finals (fun j => ?_)
    fun j => ?_
  · rw [edges_addEdge hi]
    split
    · next hnew => exact nodup_append_comm.1 (.cons hnew.2 (h.edges i))
    · exact h.edges j
  · rw [finals_addEdge, isFinal_addEdge]
    exact h.final j

theorem setFinal (hi : i < sp.size) : (sp.setFinal i).IsRegister states := by
  by_cases hf : sp.isFinal i
  · rwa [setFinal_of_isFinal hf]
  · refine h.of_states (fun _ => state?_setFinal) size_setFinal index_setFinal merges_setFinal
      initial_setFinal ?_ (fun j => ?_) fun j => ?_
    · rw [finals_setFinal hf]
      exact nodup_append_comm.1 (.cons (fun hmem => hf ((h.final i).1 hmem)) h.finals)
    · rw [edges_setFinal hi hf]
      split
      · next hnew => exact nodup_append_comm.1 (.cons hnew.2 (h.edges i))
      · exact h.edges j
    · rw [finals_setFinal hf, mem_append, mem_singleton, isFinal_setFinal, h.final j]
      exact or_congr_right ⟨fun hj => ⟨hj, hi⟩, fun hj => hj.1⟩

theorem markExpanded (i : StateId) : (sp.markExpanded i).IsRegister states := by
  refine h.of_states (fun _ => state?_markExpanded) size_markExpanded rfl rfl rfl h.finals
    (fun j => ?_) fun j => ?_
  · rw [edges_markExpanded]
    exact h.edges j
  · rw [finals_markExpanded, isFinal_markExpanded]
    exact h.final j

theorem apply (hfits : u.fits sp) : (u.apply sp).IsRegister (states ++ u.state?.toList) := by
  have hnone (hu : u.state? = none) : states ++ u.state?.toList = states := by
    rw [hu, toList_none, append_nil]
  cases u with
  | insert t => exact h.insert t
  | addInitial t => exact h.addInitial t
  | addEdge source kind target =>
    rw [hnone rfl]
    exact h.addEdge (of_decide_eq_true hfits)
  | setFinal id =>
    rw [hnone rfl]
    exact h.setFinal (of_decide_eq_true hfits)
  | markExpanded id =>
    rw [hnone rfl]
    exact h.markExpanded id

end

end IsRegister

theorem ClosesFinals.apply (h : sp.ClosesFinals) (hfits : u.fits sp) (hloop : u.addsLoop = false) :
    (u.apply sp).ClosesFinals := by
  intro j
  cases u with
  | insert t =>
    rw [Update.apply, (sp.insert_eq t j).2.2.1, (sp.insert_eq t j).2.1]
    exact h j
  | addInitial t =>
    have hedges : (sp.addInitial t).1.edges j = sp.edges j := (sp.insert_eq t j).2.2.1
    have hfinal : (sp.addInitial t).1.isFinal j = sp.isFinal j := (sp.insert_eq t j).2.1
    rw [Update.apply, hedges, hfinal]
    exact h j
  | addEdge source kind target =>
    have hkind : kind ≠ .loop := by
      rintro rfl
      cases hloop
    rw [Update.apply, isFinal_addEdge, edges_addEdge (of_decide_eq_true hfits), ← h j]
    split
    · next hnew => simp [filter_append, hkind, hnew.1]
    · rfl
  | setFinal id =>
    rw [Update.apply]
    by_cases hf : sp.isFinal id
    · rw [setFinal_of_isFinal hf]
      exact h j
    · have hid : id < sp.size := of_decide_eq_true hfits
      have hnone : (sp.edges id).filter (·.1 = .loop) = [] := by rw [h id, if_neg hf]
      have hnew : (.loop, id) ∉ sp.edges id := fun hmem => by
        simpa using filter_eq_nil_iff.1 hnone _ hmem
      rw [edges_setFinal hid hf]
      by_cases hj : j = id
      · rw [if_pos ⟨hj, hnew⟩, if_pos (isFinal_setFinal.2 (.inr ⟨hj, hid⟩)), filter_append,
          hnone, hj]
        simp
      · rw [if_neg fun hnew => hj hnew.1, h j]
        refine if_congr ?_ rfl rfl
        rw [isFinal_setFinal]
        exact ⟨.inl, fun hor => hor.resolve_right fun hnew => hj hnew.1⟩
  | markExpanded id =>
    rw [Update.apply, edges_markExpanded, isFinal_markExpanded]
    exact h j

theorem state?_apply (ht : sp.state? id = some t) : (u.apply sp).state? id = some t := by
  cases u with
  | insert v | addInitial v => exact state?_insert_of_state? ht
  | addEdge source kind target => exact state?_addEdge.trans ht
  | setFinal j => exact state?_setFinal.trans ht
  | markExpanded j => exact state?_markExpanded.trans ht

theorem IsRegister.run (h : sp.IsRegister states) (hfits : sp.fitAll us) :
    (sp.run us).IsRegister (states ++ Update.states us) := by
  induction us generalizing sp states with
  | nil => simpa [StateSpace.run, Update.states] using h
  | cons u us ih =>
    obtain ⟨hu, hus⟩ := Bool.and_eq_true_iff.1 hfits
    have hrun := ih (h.apply hu) hus
    rwa [append_assoc, show u.state?.toList ++ Update.states us = Update.states (u :: us) by
      cases hstate : u.state? <;> simp [Update.states, hstate]] at hrun

theorem ClosesFinals.run (h : sp.ClosesFinals) (hfits : sp.fitAll us)
    (hloops : ∀ u ∈ us, u.addsLoop = false) : (sp.run us).ClosesFinals := by
  induction us generalizing sp with
  | nil => exact h
  | cons u us ih =>
    obtain ⟨hu, hus⟩ := Bool.and_eq_true_iff.1 hfits
    exact ih (h.apply hu (hloops u mem_cons_self)) hus fun v hv =>
      hloops v (mem_cons_of_mem u hv)

theorem state?_run (ht : sp.state? id = some t) (us : List Update) :
    (sp.run us).state? id = some t := by
  induction us generalizing sp with
  | nil => exact ht
  | cons u us ih => exact ih (state?_apply ht)

/-- What is known of a space after a sequence of updates. -/
structure Records (us : List Update) (sp : StateSpace fp) : Prop
    extends sp.IsRegister (Update.states us) where
  /-- A lookup finds a state under its number, and finds no state that is not there. -/
  find : ∀ t id, sp.find? t = some id ↔ sp.state? id = some t
  /-- An insertion returns the number of an equal state if one was inserted before, and else the next
  number. -/
  inserted : ∀ t, (t ∈ Update.states us ∧ ∃ id, sp.state? id = some t ∧ (sp.insert t).2 = (id, false)) ∨
    (t ∉ Update.states us ∧ (sp.insert t).2 = (sp.size, true))
  /-- So does the insertion of an initial state. -/
  insertedInitial : ∀ t, (sp.addInitial t).2 = (sp.insert t).2
  /-- The returned number is that of the state, whatever updates follow. -/
  returned : ∀ t more, ((sp.insert t).1.run more).state? (sp.insert t).2.1 = some t
  /-- The state with a number never changes. -/
  persists : ∀ id t more, sp.state? id = some t → (sp.run more).state? id = some t
  /-- If no other loops were added, then a final state has one loop, to itself, and the other states
  have none. -/
  loops : (∀ u ∈ us, u.addsLoop = false) → sp.ClosesFinals

/-- Whatever the fingerprint is, after every sequence of updates to states that are there by then, the
space is a register of the states that were inserted. -/
theorem records_of_updates (fp : State → Nat) (us : List Update)
    (hus : ({} : StateSpace fp).fitAll us) : (({} : StateSpace fp).run us).Records us := by
  have hregister : (({} : StateSpace fp).run us).IsRegister (Update.states us) :=
    isRegister_empty.run hus
  exact {
    toIsRegister := hregister
    find := fun t id => hregister.find?_eq_some_iff
    inserted := hregister.insert_cases
    insertedInitial := fun t => rfl
    returned := fun t more => state?_run state?_insert_self more
    persists := fun id t more ht => state?_run ht more
    loops := closesFinals_empty.run hus }

/-- A state with nothing in its heap but null. -/
def bareState (line : Nat) (unfolded : Bool) : State :=
  ⟨⟨[∅], ∅, []⟩, .line line, unfolded⟩

/-- Three states, one of which is inserted three times. A step is added twice and a state made final
twice. -/
def bareUpdates : List Update :=
  [.addInitial (bareState 0 false), .insert (bareState 1 false), .insert (bareState 0 false),
    .addEdge 0 .flow 1, .addEdge 0 .flow 1, .setFinal 1, .insert (bareState 0 true), .setFinal 1,
    .addInitial (bareState 0 false), .markExpanded 0, .addEdge 0 .unfolding 2]

/-- All states have the same fingerprint here. -/
theorem records_of_updates_colliding : ({} : StateSpace fun _ => 7).fitAll bareUpdates ∧
    (∀ u ∈ bareUpdates, u.addsLoop = false) ∧
    (({} : StateSpace fun _ => 7).run bareUpdates).size = 3 ∧
    (({} : StateSpace fun _ => 7).run bareUpdates).merges = 2 ∧
    (({} : StateSpace fun _ => 7).run bareUpdates).finals = [1] ∧
    (({} : StateSpace fun _ => 7).run bareUpdates).Records bareUpdates := by
  have hfits : ({} : StateSpace fun _ => 7).fitAll bareUpdates := by decide +kernel
  refine ⟨hfits, by decide, by decide +kernel, by decide +kernel, by decide +kernel, ?_⟩
  exact records_of_updates (fun _ => 7) bareUpdates hfits

end StateSpace

end ShapeCheck
