import ShapeCheck.Engine.Verify

/-!
# What follows a state

How calls are answered is a relation here. Given such a relation, a state of a method is *reached* if
a chain of unfoldings and statements leads to it from an initial heap, and a state of a space is
*done* if the space holds all that follows it. The operations on spaces let a space grow.
-/

namespace ShapeCheck

open List

namespace StateSpace

variable {fp : State → Nat} {sp : StateSpace fp} {id i target : StateId} {kind : EdgeKind}
  {t : State} {e : EdgeKind × StateId}

/-- Whether a state is in the space. -/
def Holds (sp : StateSpace fp) (t : State) : Prop :=
  ∃ id, sp.state? id = some t

theorem lt_size_of_state? (ht : sp.state? id = some t) : id < sp.size := by
  obtain ⟨e, he, -⟩ := Option.map_eq_some_iff.1 ht
  exact (Array.getElem?_eq_some_iff.1 he).1

theorem edges_eq (sp : StateSpace fp) (id : StateId) :
    sp.edges id = (sp.entries[id]?.map (·.edges)).getD [] := by
  rw [edges]
  cases sp.entries[id]? <;> rfl

section Modify

variable {entries : Array Entry} {f : Entry → Entry}

theorem map_getElem?_modify {β : Type} {π : Entry → β} (hf : ∀ e, π (f e) = π e) :
    (entries.modify i f)[id]?.map π = entries[id]?.map π := by
  rw [Array.getElem?_modify]
  split
  · rw [Option.map_map]
    exact congrArg (Option.map · _) (funext hf)
  · rfl

theorem any_getElem?_modify {p : Entry → Bool} (hf : ∀ e, p (f e) = p e) :
    (entries.modify i f)[id]?.any p = entries[id]?.any p := by
  rw [Array.getElem?_modify]
  split
  · rw [Option.any_map]
    exact congrArg (Option.any · _) (funext hf)
  · rfl

end Modify

@[simp] theorem state?_addEdge : (sp.addEdge i kind target).state? id = sp.state? id :=
  map_getElem?_modify fun e => by split <;> rfl

@[simp] theorem isExpanded_addEdge :
    (sp.addEdge i kind target).isExpanded id = sp.isExpanded id :=
  any_getElem?_modify fun e => by split <;> rfl

@[simp] theorem isFinal_addEdge : (sp.addEdge i kind target).isFinal id = sp.isFinal id :=
  any_getElem?_modify fun e => by split <;> rfl

@[simp] theorem finals_addEdge : (sp.addEdge i kind target).finals = sp.finals := rfl

@[simp] theorem size_addEdge : (sp.addEdge i kind target).size = sp.size :=
  Array.size_modify

@[simp] theorem state?_markExpanded : (sp.markExpanded i).state? id = sp.state? id :=
  map_getElem?_modify fun _ => rfl

theorem isExpanded_markExpanded : (sp.markExpanded i).isExpanded id =
    (decide (id = i ∧ id < sp.size) || sp.isExpanded id) := by
  rw [isExpanded, markExpanded, Array.getElem?_modify, isExpanded, size]
  by_cases hlt : id < sp.entries.size
  · by_cases heq : id = i
    · subst heq
      simp [hlt]
    · simp [hlt, heq, Ne.symm heq]
  · simp [hlt]

@[simp] theorem isFinal_markExpanded : (sp.markExpanded i).isFinal id = sp.isFinal id :=
  any_getElem?_modify fun _ => rfl

@[simp] theorem finals_markExpanded : (sp.markExpanded i).finals = sp.finals := rfl

@[simp] theorem size_markExpanded : (sp.markExpanded i).size = sp.size :=
  Array.size_modify

@[simp] theorem edges_markExpanded : (sp.markExpanded i).edges id = sp.edges id := by
  rw [edges_eq, edges_eq]
  exact congrArg (Option.getD · []) (map_getElem?_modify fun _ => rfl)

@[simp] theorem state?_setFinal : (sp.setFinal i).state? id = sp.state? id := by
  rw [setFinal]
  split
  · rfl
  · rw [state?_addEdge]
    exact map_getElem?_modify fun _ => rfl

@[simp] theorem isExpanded_setFinal : (sp.setFinal i).isExpanded id = sp.isExpanded id := by
  rw [setFinal]
  split
  · rfl
  · rw [isExpanded_addEdge]
    exact any_getElem?_modify fun _ => rfl

@[simp] theorem size_setFinal : (sp.setFinal i).size = sp.size := by
  rw [setFinal]
  split
  · rfl
  · rw [size_addEdge]
    exact Array.size_modify

/-- The states that are marked as final are listed. -/
def FinalsAreListed (sp : StateSpace fp) : Prop :=
  ∀ id, sp.isFinal id → id ∈ sp.finals

theorem mem_finals_setFinal (hsp : sp.FinalsAreListed) :
    id ∈ (sp.setFinal i).finals ↔ id ∈ sp.finals ∨ id = i := by
  rw [setFinal]
  split
  · next hfinal => exact ⟨.inl, fun h => h.elim (fun h => h) fun h => h ▸ hsp i hfinal⟩
  · rw [finals_addEdge, mem_append, mem_singleton]

theorem FinalsAreListed.setFinal (hsp : sp.FinalsAreListed) : (sp.setFinal i).FinalsAreListed := by
  intro j hj
  rw [mem_finals_setFinal hsp]
  by_cases heq : j = i
  · exact .inr heq
  · refine .inl (hsp j ?_)
    rw [StateSpace.setFinal] at hj
    split at hj
    · exact hj
    · rw [isFinal_addEdge, isFinal] at hj
      rw [isFinal]
      simpa only [Array.getElem?_modify, Ne.symm heq, if_false] using hj

/-- What an insertion does: an equal state is there already, or the state comes last. -/
theorem insert_cases (sp : StateSpace fp) (t : State) :
    (∃ id, sp.state? id = some t ∧
      sp.insert t = ({ sp with merges := sp.merges + 1 }, id, false)) ∨
    ((sp.insert t).2 = (sp.size, true) ∧ (sp.insert t).1.finals = sp.finals ∧
      ∃ kind, kind ≠ .final ∧ (sp.insert t).1.entries = sp.entries.push { state := t, kind }) := by
  rw [insert]
  split
  · next id hid =>
    exact .inl ⟨id, by simpa using find?_some hid, rfl⟩
  · refine .inr ⟨rfl, rfl, _, ?_, rfl⟩
    split <;> simp

theorem insert_eq (sp : StateSpace fp) (t : State) (id : StateId) :
    (sp.insert t).1.isExpanded id = sp.isExpanded id ∧
      (sp.insert t).1.isFinal id = sp.isFinal id ∧ (sp.insert t).1.edges id = sp.edges id ∧
      (sp.insert t).1.finals = sp.finals := by
  rcases sp.insert_cases t with ⟨i, -, heq⟩ | ⟨-, hfinals, kind, hkind, hentries⟩
  · rw [heq]
    exact ⟨rfl, rfl, rfl, rfl⟩
  · rw [isExpanded, isFinal, edges_eq, hentries, Array.getElem?_push, isExpanded, isFinal, edges_eq]
    split
    · next heq =>
      rw [Array.getElem?_eq_none (Nat.le_of_eq heq.symm)]
      exact ⟨rfl, by simpa using hkind, rfl, hfinals⟩
    · exact ⟨rfl, rfl, rfl, hfinals⟩

@[simp] theorem isExpanded_insert : (sp.insert t).1.isExpanded id = sp.isExpanded id :=
  (sp.insert_eq t id).1

@[simp] theorem edges_insert : (sp.insert t).1.edges id = sp.edges id :=
  (sp.insert_eq t id).2.2.1

theorem state?_insert : (sp.insert t).1.state? id =
    if (sp.insert t).2.2 ∧ id = (sp.insert t).2.1 then some t else sp.state? id := by
  rcases sp.insert_cases t with ⟨i, -, heq⟩ | ⟨heq, -, kind, -, hentries⟩
  · rw [heq, if_neg fun h => Bool.false_ne_true h.1]
    rfl
  · rw [heq, state?, hentries, Array.getElem?_push, state?, size]
    split <;> simp_all

theorem state?_insert_self : (sp.insert t).1.state? (sp.insert t).2.1 = some t := by
  rcases sp.insert_cases t with ⟨i, hi, heq⟩ | ⟨heq, -⟩
  · rw [heq]
    exact hi
  · rw [state?_insert, if_pos ⟨by rw [heq], rfl⟩]

theorem state?_insert_of_state? {u : State} (hu : sp.state? id = some u) :
    (sp.insert t).1.state? id = some u := by
  rw [state?_insert]
  split
  · next hfresh =>
    rcases sp.insert_cases t with ⟨i, -, heq⟩ | ⟨heq, -⟩
    · simp [heq] at hfresh
    · have hlt := lt_size_of_state? hu
      rw [hfresh.2, heq] at hlt
      exact absurd hlt (Nat.lt_irrefl _)
  · exact hu

theorem lt_size_insert : (sp.insert t).2.1 < (sp.insert t).1.size :=
  lt_size_of_state? state?_insert_self

/-- Up to `2 ^ 32` states, the number that an insertion returns is not changed in 32 bits. -/
theorem ofIndex_insert (h : (sp.insert t).1.size ≤ Text.bound32) :
    StateId.ofIndex (sp.insert t).2.1 = (sp.insert t).2.1 :=
  Nat.mod_eq_of_lt (Nat.lt_of_lt_of_le lt_size_insert h)

theorem state?_insert_cases {u : State} (hu : (sp.insert t).1.state? id = some u) :
    sp.state? id = some u ∨ (sp.insert t).2.2 ∧ id = (sp.insert t).2.1 ∧ u = t := by
  rw [state?_insert] at hu
  split at hu
  · next hnew => exact .inr ⟨hnew.1, hnew.2, (Option.some.inj hu).symm⟩
  · exact .inl hu

theorem size_insert (sp : StateSpace fp) (t : State) :
    (sp.insert t).1.size = sp.size + if (sp.insert t).2.2 then 1 else 0 := by
  rcases sp.insert_cases t with ⟨id, -, heq⟩ | ⟨heq, -, kind, -, hentries⟩
  · rw [heq]
    rfl
  · rw [heq, size, hentries, Array.size_push]
    rfl

theorem size_le_size_insert : sp.size ≤ (sp.insert t).1.size := by
  rw [size_insert]
  exact Nat.le_add_right _ _

/-- A later stage of a space. -/
structure Grows (sp sp' : StateSpace fp) : Prop where
  state? : ∀ id t, sp.state? id = some t → sp'.state? id = some t
  finals : ∀ id ∈ sp.finals, id ∈ sp'.finals

theorem Grows.refl (sp : StateSpace fp) : sp.Grows sp :=
  ⟨fun _ _ h => h, fun _ h => h⟩

theorem Grows.trans {sp₁ sp₂ sp₃ : StateSpace fp} (h : sp₁.Grows sp₂) (h' : sp₂.Grows sp₃) :
    sp₁.Grows sp₃ :=
  ⟨fun id t ht => h'.state? id t (h.state? id t ht), fun id hid => h'.finals id (h.finals id hid)⟩

theorem exists_state?_of_lt (hid : id < sp.size) : ∃ t, sp.state? id = some t :=
  ⟨sp.entries[id].state, by rw [state?, Array.getElem?_eq_getElem hid]; rfl⟩

theorem Grows.size_le {sp' : StateSpace fp} (h : sp.Grows sp') : sp.size ≤ sp'.size := by
  refine Nat.le_of_not_lt fun hlt => ?_
  obtain ⟨t, ht⟩ := exists_state?_of_lt hlt
  exact Nat.lt_irrefl _ (lt_size_of_state? (h.state? _ t ht))

theorem grows_insert (sp : StateSpace fp) (t : State) : sp.Grows (sp.insert t).1 :=
  ⟨fun _ _ => state?_insert_of_state?, fun id hid => by rwa [(sp.insert_eq t id).2.2.2]⟩

theorem grows_addEdge (sp : StateSpace fp) (i : StateId) (kind : EdgeKind) (target : StateId) :
    sp.Grows (sp.addEdge i kind target) :=
  ⟨fun _ _ ht => state?_addEdge.trans ht, fun _ h => h⟩

theorem grows_markExpanded (sp : StateSpace fp) (i : StateId) : sp.Grows (sp.markExpanded i) :=
  ⟨fun _ _ ht => state?_markExpanded.trans ht, fun _ h => h⟩

theorem grows_setFinal (hsp : sp.FinalsAreListed) (i : StateId) : sp.Grows (sp.setFinal i) :=
  ⟨fun _ _ ht => state?_setFinal.trans ht, fun _ h => (mem_finals_setFinal hsp).2 (.inl h)⟩

end StateSpace

/-- The answers that calls may have: a call in a heap, and the heaps that follow it. -/
abbrev Answering := Code.CallSite → Heap → List Heap → Prop

/-- The places and heaps that follow a statement, if calls are answered as `Ans` says. -/
def Code.Statement.Yields (stmt : Code.Statement) (Ans : Answering) (g : Heap)
    (next : List (Location × Heap)) : Prop :=
  match stmt.step g with
  | .moves moves => next = moves
  | .call site => ∃ results, Ans site g results ∧ next = results.map (stmt.next, ·)
  | .fault => False

theorem Code.Statement.Yields.mono {stmt : Code.Statement} {Ans Ans' : Answering} {g : Heap}
    {next : List (Location × Heap)} (h : stmt.Yields Ans g next)
    (hAns : ∀ site g results, Ans site g results → Ans' site g results) :
    stmt.Yields Ans' g next := by
  unfold Yields at h ⊢
  split
  · next heq => simpa only [heq] using h
  · next heq =>
    simp only [heq] at h
    exact h.imp fun results => And.imp_left (hAns _ _ _)
  · next heq => simp only [heq] at h

theorem Abstraction.unfold_singleton (A : Abstraction) (p : AccessPoint) (h : Heap) :
    A.unfold [p] h = A.unfoldPoint p h := by
  rw [unfold, foldlM_cons, mapM_cons, mapM_nil]
  cases A.unfoldPoint p h with
  | error e => rfl
  | ok heaps => exact congrArg Except.ok (append_nil heaps)

namespace Engine

/-- The heaps from which a statement is run: the unfolded variants of a heap, or the heap itself if
nothing hides the selector that the statement goes through. -/
def sources (E : Engine) (stmt : Code.Statement) (h : Heap) : Except UnfoldError (List Heap) :=
  if stmt.needsUnfolding h then
    (E.abstraction.unfold stmt.accessPoints h).map fun heaps =>
      if heaps.any (· ≠ h) then heaps else [h]
  else .ok [h]

variable {E : Engine} {stmt : Code.Statement} {h : Heap}

/-- A statement has at most one access point, so its sources come from one unfolding. -/
theorem sources_eq {p : AccessPoint} (hp : stmt.accessPoint? = some p) :
    E.sources stmt h = if stmt.needsUnfolding h then
      (E.abstraction.unfoldPoint p h).map fun heaps => if heaps.any (· ≠ h) then heaps else [h]
    else .ok [h] := by
  rw [sources, Code.Statement.accessPoints, hp, Option.toList_some, Abstraction.unfold_singleton]

theorem sources_eq_self (hp : stmt.accessPoint? = none) : E.sources stmt h = .ok [h] := by
  rw [sources, if_neg]
  simp [Code.Statement.needsUnfolding, Code.Statement.accessPoints, hp]

theorem sources_cases {g : Heap} {gs : List Heap} (hgs : E.sources stmt h = .ok gs) (hg : g ∈ gs) :
    (g = h ∧ ∀ p, stmt.accessPoint? = some p → stmt.needsUnfolding h = false) ∨
      ∃ p heaps, stmt.accessPoint? = some p ∧ E.abstraction.unfoldPoint p h = .ok heaps ∧
        (g ∈ heaps ∨ g = h ∧ ∀ g' ∈ heaps, g' = h) := by
  cases hpoint : stmt.accessPoint? with
  | none =>
    rw [sources_eq_self hpoint] at hgs
    cases hgs
    exact .inl ⟨mem_singleton.1 hg, by simp⟩
  | some p =>
    rw [sources_eq hpoint] at hgs
    split at hgs
    · cases hunfold : E.abstraction.unfoldPoint p h with
      | error e =>
        rw [hunfold] at hgs
        cases hgs
      | ok heaps =>
        rw [hunfold] at hgs
        cases hgs
        refine .inr ⟨p, heaps, rfl, hunfold, ?_⟩
        dsimp only at hg
        split at hg
        · exact .inl hg
        · next hany => exact .inr ⟨mem_singleton.1 hg, by simpa using hany⟩
    · next hneeds =>
      cases hgs
      exact .inl ⟨mem_singleton.1 hg, fun _ _ => by simpa using hneeds⟩

/-- The states that a chain of unfoldings and statements leads to. An unfolded state is one from
which its statement is run. -/
inductive Reached (E : Engine) (m : Code.Method) (Ans : Answering) (heaps : List Heap) : State → Prop
  | start {h : Heap} : h ∈ heaps → Reached E m Ans heaps ⟨E.abstraction.canonical h, .line 0, false⟩
  | source {h g : Heap} {i : Nat} {stmt : Code.Statement} {gs : List Heap} :
    Reached E m Ans heaps ⟨h, .line i, false⟩ → m.statement? i = some stmt →
    E.sources stmt h = .ok gs → g ∈ gs → Reached E m Ans heaps ⟨g, .line i, true⟩
  | step {g : Heap} {i : Nat} {stmt : Code.Statement} {next : List (Location × Heap)}
    {p : Location × Heap} :
    Reached E m Ans heaps ⟨g, .line i, true⟩ → m.statement? i = some stmt →
    stmt.Yields Ans g next → p ∈ next → Reached E m Ans heaps (E.settled p.1 p.2)

variable {E : Engine} {m : Code.Method} {Ans Ans' : Answering} {heaps : List Heap} {sp sp' : E.Space}
  {t : State} {g : Heap} {stmt : Code.Statement} {id : StateId}

theorem Reached.mono (h : Reached E m Ans heaps t)
    (hAns : ∀ site g results, Ans site g results → Ans' site g results) :
    Reached E m Ans' heaps t := by
  induction h with
  | start hh => exact .start hh
  | source _ hstmt hgs hg ih => exact .source ih hstmt hgs hg
  | step _ hstmt hnext hp ih => exact .step ih hstmt (hnext.mono hAns) hp

theorem Reached.location_ne_exit (h : Reached E m Ans heaps t) (ht : t.unfolded) :
    t.location ≠ .exit := by
  cases h with
  | start _ => cases ht
  | source _ _ _ _ => exact fun h => nomatch h
  | step _ _ _ _ => cases ht

/-- The space holds what follows a statement that is run from `g`. -/
def IsRun (E : Engine) (Ans : Answering) (sp : E.Space) (stmt : Code.Statement) (g : Heap) : Prop :=
  ∃ next, stmt.Yields Ans g next ∧ ∀ p ∈ next, sp.Holds (E.settled p.1 p.2)

/-- The space holds what follows a state: a state without a statement is final, an unfolded state has
been run, and an ordinary state has been run from all its sources. -/
def IsDone (E : Engine) (m : Code.Method) (Ans : Answering) (sp : E.Space) (t : State) : Prop :=
  match statementAt? m t with
  | none => ∃ id ∈ sp.finals, sp.state? id = some t
  | some stmt =>
    if t.unfolded then IsRun E Ans sp stmt t.heap
    else ∃ gs, E.sources stmt t.heap = .ok gs ∧ ∀ g ∈ gs, IsRun E Ans sp stmt g

theorem isDone_line_iff {i : Nat} (hstmt : m.statement? i = some stmt) :
    IsDone E m Ans sp ⟨h, .line i, false⟩ ↔
      ∃ gs, E.sources stmt h = .ok gs ∧ ∀ g ∈ gs, IsRun E Ans sp stmt g := by
  simp only [IsDone, statementAt?, hstmt, Bool.false_eq_true, if_false]

theorem isDone_iff_of_none (hnone : statementAt? m t = none) :
    IsDone E m Ans sp t ↔ ∃ id ∈ sp.finals, sp.state? id = some t := by
  simp only [IsDone, hnone]

end Engine

end ShapeCheck
