import ShapeCheck.Proofs.Generation
import Mathlib.Data.List.Forall2
import Mathlib.Data.List.Perm.Subperm

/-!
# What contracts say

A *judgement* says what postconditions mean: which ones cover all runs of a method whose calls are
nested at most `n` deep, which ones are admissible at all, and when a run has to fail. If a judgement
follows the rules by which spaces are explored, then the handler of calls obeys it. The final heaps of
a contract under construction may be used before they are complete, so what a call is answered is
judged relative to the contracts that are in use; a contract that uses none is judged absolutely, and
only such contracts are recorded.

## Main definitions

* `Judgement`: what postconditions mean.
* `Judgement.Admits`, `Judgement.Rests`: sessions whose contracts are right.

## Main results

* `Judgement.isObeyed_invoke`: calls are answered by right contracts.
* `Judgement.generate_ensures`: what a generation from a session at rest finds.
-/

namespace ShapeCheck

open List Option

namespace SortedSet

variable {α : Type} [Ord α] [Std.LawfulEqOrd α]

theorem nodup_toList (s : SortedSet α) : s.toList.Nodup :=
  s.sorted.imp fun hlt heq => by simp [heq, Std.ReflCmp.compare_self] at hlt

variable [Std.TransOrd α]

/-- A union that is not larger brings nothing new. -/
theorem union_eq_left_of_size_eq {s t : SortedSet α} (hsize : (s.union t).size = s.size) :
    s.union t = s := by
  have hsub : s.toList.Subperm (s.union t).toList :=
    subperm_of_subset s.nodup_toList fun a ha => mem_union.2 (.inl ha)
  have hperm := hsub.perm_of_length_le (Nat.le_of_eq hsize)
  exact SortedSet.ext fun a => hperm.mem_iff.symm

end SortedSet

/-! ### Recorded contracts -/

namespace ContractStore

variable {c : ContractStore} {method method' : String} {pre pre' : Heap} {posts posts' : HeapSet}

/-- The store holds this general contract. -/
def Records (c : ContractStore) (method : String) (pre : Heap) (posts : HeapSet) : Prop :=
  ∃ t, c.table? method = some t ∧ t.general.find? pre = some posts

/-- The store holds this refined contract. -/
def Refines (c : ContractStore) (method : String) (r : RefinedContract) : Prop :=
  ∃ t, c.table? method = some t ∧ r ∈ t.refined

theorem table?_modify {f : ContractTable → ContractTable} : (c.modify method f).table? method' =
    if method' = method then some (f ((c.table? method).getD {})) else c.table? method' :=
  SortedMap.find?_insert

/-- The contract that an addition leaves: postconditions are joined to those that were there. -/
theorem records_add_iff : (c.add method pre posts).Records method' pre' posts' ↔
    if method' = method ∧ pre' = pre then
      posts' = ((((c.table? method).getD {}).general.find? pre).getD ∅).union posts
    else c.Records method' pre' posts' := by
  rw [Records, add, table?_modify]
  by_cases hmethod : method' = method
  · subst hmethod
    simp only [if_true, Option.some.injEq, exists_eq_left', ContractTable.add,
      SortedMap.find?_insert, true_and]
    split
    · rw [Option.some.injEq]
      exact eq_comm
    · rw [Records]
      cases c.table? method' with
      | none => simp [show ({} : ContractTable).general = ∅ from rfl]
      | some t => simp
  · simp only [hmethod, if_false, false_and, Records]

theorem records_add (h : (c.add method pre posts).Records method' pre' posts') :
    c.Records method' pre' posts' ∨ method' = method ∧ pre' = pre ∧ (∀ q ∈ posts, q ∈ posts') ∧
      ∀ q ∈ posts', q ∈ posts ∨ ∃ old, c.Records method pre old ∧ q ∈ old := by
  rw [records_add_iff] at h
  split at h
  · next heq =>
    subst h
    refine .inr ⟨heq.1, heq.2, fun q hq => SortedSet.mem_union.2 (.inr hq), fun q hq => ?_⟩
    rcases SortedSet.mem_union.1 hq with hq | hq
    · cases ht : c.table? method with
      | none => simp [ht, show ({} : ContractTable).general = ∅ from rfl] at hq
      | some t =>
        rw [ht, getD_some] at hq
        cases hfind : t.general.find? pre with
        | none => simp [hfind] at hq
        | some old => exact .inr ⟨old, ⟨t, ht, hfind⟩, by simpa [hfind] using hq⟩
    · exact .inl hq
  · exact .inl h

theorem exists_records_add (c : ContractStore) (method : String) (pre : Heap) (posts : HeapSet) :
    ∃ posts', (c.add method pre posts).Records method pre posts' :=
  ⟨_, records_add_iff.2 (by rw [if_pos ⟨rfl, rfl⟩])⟩

variable {r : RefinedContract}

theorem refines_add (h : (c.add method pre posts).Refines method' r) :
    c.Refines method' r := by
  obtain ⟨t, ht, hr⟩ := h
  rw [add, table?_modify] at ht
  split at ht
  · next heq =>
    subst heq
    obtain rfl := Option.some.inj ht
    cases htable : c.table? method' with
    | none => simp [htable, ContractTable.add] at hr
    | some t => exact ⟨t, htable, by simpa [htable, ContractTable.add] using hr⟩
  · exact ⟨t, ht, hr⟩

theorem records_addRefined (h : (c.addRefined method r).Records method' pre' posts') :
    c.Records method' pre' posts' := by
  obtain ⟨t, ht, hfind⟩ := h
  rw [addRefined, table?_modify] at ht
  split at ht
  · next heq =>
    subst heq
    obtain rfl := Option.some.inj ht
    have hgeneral (t : ContractTable) : (t.addRefined r).general = t.general := by
      rw [ContractTable.addRefined]
      split <;> rfl
    rw [hgeneral] at hfind
    cases htable : c.table? method' with
    | none => simp [htable, show ({} : ContractTable).general = ∅ from rfl] at hfind
    | some t => exact ⟨t, htable, by simpa [htable] using hfind⟩
  · exact ⟨t, ht, hfind⟩

theorem refines_addRefined {r' : RefinedContract} (h : (c.addRefined method r).Refines method' r') :
    c.Refines method' r' ∨ method' = method ∧ r' = r := by
  obtain ⟨t, ht, hr⟩ := h
  rw [addRefined, table?_modify] at ht
  split at ht
  · next heq =>
    subst heq
    obtain rfl := Option.some.inj ht
    have hmem (t : ContractTable) (h : r' ∈ (t.addRefined r).refined) : r' ∈ t.refined ∨ r' = r := by
      rw [ContractTable.addRefined] at h
      split at h
      · exact .inl h
      · simpa using h
    refine (hmem _ hr).imp (fun hr => ?_) fun hr => ⟨rfl, hr⟩
    cases htable : c.table? method' with
    | none => simp [htable] at hr
    | some t => exact ⟨t, htable, by simpa [htable] using hr⟩
  · exact .inl ⟨t, ht, hr⟩

theorem Records.add (h : c.Records method' pre' posts') :
    ∃ posts', (c.add method pre posts).Records method' pre' posts' := by
  by_cases heq : method' = method ∧ pre' = pre
  · rw [heq.1, heq.2]
    exact c.exists_records_add method pre posts
  · exact ⟨posts', records_add_iff.2 (by rwa [if_neg heq])⟩

theorem Records.addRefined (h : c.Records method' pre' posts') :
    (c.addRefined method r).Records method' pre' posts' := by
  obtain ⟨t, ht, hfind⟩ := h
  rw [Records, ContractStore.addRefined, table?_modify]
  split
  · next heq =>
    refine ⟨_, rfl, ?_⟩
    rw [← heq, ht, getD_some, ContractTable.addRefined]
    split <;> exact hfind
  · exact ⟨t, ht, hfind⟩

/-- What holds of a store, and is kept when a contract of another store is added, holds of the store
with all contracts of the other one. -/
theorem join_induction {P : ContractStore → Prop} {d : ContractStore} (hc : P c)
    (hadd : ∀ c method pre posts, d.Records method pre posts → P c → P (c.add method pre posts))
    (haddRefined : ∀ c method r, d.Refines method r → P c → P (c.addRefined method r)) :
    P (c.join d) := by
  refine List.foldlRecOn _ _ (motive := P) hc fun c hc t ht => ?_
  have htable : d.table? t.1 = some t.2 := SortedMap.mem_toList_iff.1 ht
  refine List.foldlRecOn _ _ (motive := P) ?_ fun c hc r hr =>
    haddRefined c t.1 r ⟨t.2, htable, hr⟩ hc
  exact List.foldlRecOn _ _ (motive := P) hc fun c hc e he =>
    hadd c t.1 e.1 e.2 ⟨t.2, htable, SortedMap.mem_toList_iff.1 he⟩ hc

theorem Records.join {d : ContractStore} (h : c.Records method pre posts) :
    ∃ posts', (c.join d).Records method pre posts' :=
  join_induction (P := fun c => ∃ posts', c.Records method pre posts') ⟨posts, h⟩
    (fun _ _ _ _ _ h => h.elim fun _ h => h.add)
    fun _ _ _ _ h => h.imp fun _ h => h.addRefined

theorem records_of_match? {A : Abstraction} {P : Heap}
    (h : c.match? A method pre = some (P, posts)) : c.Records method P posts ∧ P ∈ A.views pre := by
  obtain ⟨t, ht, hmatch⟩ := bind_eq_some_iff.1 h
  rw [ContractTable.match?] at hmatch
  split at hmatch
  · next found hfind =>
    obtain ⟨rfl, rfl⟩ := Prod.mk.inj (Option.some.inj hmatch)
    exact ⟨⟨t, ht, hfind⟩, mem_cons_self⟩
  · exact ⟨⟨t, ht, SortedMap.mem_toList_iff.1 (mem_of_find?_eq_some hmatch)⟩,
      by simpa using find?_some hmatch⟩

theorem isSome_match? {A : Abstraction} {P : Heap} (hrec : c.Records method P posts)
    (hP : P ∈ A.views pre) : (c.match? A method pre).isSome := by
  obtain ⟨t, ht, hfind⟩ := hrec
  rw [match?, ht]
  show (t.match? A pre).isSome
  rw [ContractTable.match?]
  split
  · rfl
  · rw [find?_isSome]
    exact ⟨_, SortedMap.mem_toList_iff.2 hfind, by simpa using hP⟩

theorem refines_of_matchRefined? {required : HeapSet}
    (h : c.matchRefined? method pre required = some posts) :
    ∃ r, c.Refines method r ∧ r.pre = pre ∧ r.posts = posts := by
  obtain ⟨t, ht, hmatch⟩ := bind_eq_some_iff.1 h
  obtain ⟨r, hr, hposts⟩ := map_eq_some_iff.1 hmatch
  have hpre := find?_some hr
  simp only [Bool.and_eq_true, decide_eq_true_eq] at hpre
  exact ⟨r, ⟨t, ht, mem_of_find?_eq_some hr⟩, hpre.1, hposts⟩

end ContractStore

/-! ### The stack of contracts under construction -/

/-- The other contract is the same up to marks, and keeps the marks. -/
structure Pending.Marked (p q : Pending) : Prop where
  method : q.method = p.method
  pre : q.pre = p.pre
  posts : q.posts = p.posts
  consulted : p.consulted → q.consulted
  dependent : p.dependent → q.dependent

theorem Pending.Marked.refl (p : Pending) : p.Marked p :=
  ⟨rfl, rfl, rfl, fun h => h, fun h => h⟩

theorem Pending.Marked.trans {p q r : Pending} (h : p.Marked q) (h' : q.Marked r) : p.Marked r :=
  ⟨h'.method.trans h.method, h'.pre.trans h.pre, h'.posts.trans h.posts,
    fun hp => h'.consulted (h.consulted hp), fun hp => h'.dependent (h.dependent hp)⟩

theorem forall₂_marked_refl (stack : List Pending) : List.Forall₂ Pending.Marked stack stack :=
  forall₂_same.2 fun p _ => .refl p

theorem forall₂_marked_trans {stack₁ stack₂ stack₃ : List Pending}
    (h : List.Forall₂ Pending.Marked stack₁ stack₂)
    (h' : List.Forall₂ Pending.Marked stack₂ stack₃) :
    List.Forall₂ Pending.Marked stack₁ stack₃ := by
  induction h generalizing stack₃ with
  | nil => exact h'
  | cons hpq _ ih =>
    cases h' with
    | cons hqr hrest => exact .cons (hpq.trans hqr) (ih hrest)

/-- The contracts under construction that have been used: the innermost one if it was consulted, and
those that it depends on. -/
def inUse : List Pending → List Pending
  | [] => []
  | p :: rest => (if p.consulted then [p] else []) ++ if p.dependent then inUse rest else []

theorem exists_mem_inUse {stack stack' : List Pending} (h : List.Forall₂ Pending.Marked stack stack')
    {p : Pending} (hp : p ∈ inUse stack) : ∃ q ∈ inUse stack', p.Marked q := by
  induction h with
  | nil => exact absurd hp not_mem_nil
  | @cons p' q rest rest' hpq _ ih =>
    rw [inUse, mem_append] at hp
    rcases hp with hp | hp
    · split at hp
      · next hc =>
        rw [mem_singleton.1 hp]
        refine ⟨q, ?_, hpq⟩
        rw [inUse, if_pos (hpq.consulted hc)]
        exact mem_append_left _ mem_cons_self
      · exact absurd hp not_mem_nil
    · split at hp
      · next hd =>
        obtain ⟨r, hr, hpr⟩ := ih hp
        refine ⟨r, ?_, hpr⟩
        rw [inUse, if_pos (hpq.dependent hd)]
        exact mem_append_right _ hr
      · exact absurd hp not_mem_nil

/-- A contract that is consulted is in use from then on. -/
theorem consult_spec {method : String} {pre : Heap} {stack stack' : List Pending} {posts : HeapSet}
    (h : consult method pre stack = some (posts, stack')) :
    List.Forall₂ Pending.Marked stack stack' ∧
      ∃ p ∈ inUse stack', p.method = method ∧ p.pre = pre ∧ p.posts = posts := by
  induction stack generalizing stack' with
  | nil => cases h
  | cons p rest ih =>
    rw [consult] at h
    split at h
    · next hp =>
      obtain ⟨rfl, rfl⟩ := Prod.mk.inj (Option.some.inj h)
      refine ⟨.cons ⟨rfl, rfl, rfl, fun _ => rfl, fun h => h⟩
        (forall₂_marked_refl rest), { p with consulted := true }, ?_, hp.1, hp.2, rfl⟩
      simp [inUse]
    · obtain ⟨⟨posts', rest'⟩, hrest, heq⟩ := map_eq_some_iff.1 h
      obtain ⟨rfl, rfl⟩ := Prod.mk.inj heq
      obtain ⟨hmarked, q, hq, hspec⟩ := ih hrest
      refine ⟨.cons ⟨rfl, rfl, rfl, fun h => h, fun _ => rfl⟩ hmarked, q, ?_, hspec⟩
      simp [inUse, hq]

/-! ### Later sessions -/

/-- A later session with the same requirements. Bounds do not appear, and turns are taken in order. -/
structure Session.Precedes (s t : Session) : Prop where
  limits : s.limits = [] → t.limits = []
  required : t.required = s.required
  turns : t.turns <:+ s.turns
  waits : t.waits = s.waits

theorem Session.Precedes.refl (s : Session) : s.Precedes s :=
  ⟨fun h => h, rfl, suffix_rfl, rfl⟩

theorem Session.Precedes.trans {s t u : Session} (h : s.Precedes t) (h' : t.Precedes u) :
    s.Precedes u :=
  ⟨fun hs => h'.limits (h.limits hs), h'.required.trans h.required, h'.turns.trans h.turns,
    h'.waits.trans h.waits⟩

theorem Session.Counted.precedes {s t : Session} (h : s.Counted t) : s.Precedes t :=
  ⟨h.limits, h.required, h.turns ▸ suffix_rfl, h.waits⟩

namespace Engine

/-! ### Answers and refusals -/

/-- The heap from which a callee is analysed. -/
def calleeStart (E : Engine) (m : Code.Method) (site : Code.CallSite) (g : Heap) : Heap :=
  E.abstraction.canonical (Call.enter g m.params site.args).1

/-- The answers to calls whose postconditions are as `Good` says. -/
def CallAnswer (E : Engine) (Good : String → Heap → HeapSet → Prop) : Answering :=
  fun site g results =>
    site.method ∈ E.settings.skipped ∧ results = skipCall site g ∨
    site.method ∉ E.settings.skipped ∧ ∃ m posts, E.program.method? site.method = some m ∧
      Good site.method (E.calleeStart m site g) posts ∧
      results = posts.toList.map ((Call.enter g m.params site.args).2.resume · site.result)

theorem CallAnswer.mono {E : Engine} {Good Good' : String → Heap → HeapSet → Prop}
    (hGood : ∀ method pre posts, Good method pre posts → Good' method pre posts)
    (site : Code.CallSite) (g : Heap) (results : List Heap)
    (h : E.CallAnswer Good site g results) : E.CallAnswer Good' site g results :=
  h.imp_right (And.imp_right fun ⟨m, posts, hm, hgood, hresults⟩ =>
    ⟨m, posts, hm, hGood _ _ _ hgood, hresults⟩)

/-- The calls of methods that do not exist, or that fail as `Fails` says. -/
def CallRefusal (E : Engine) (Fails : String → Heap → GenerationError → Prop) (site : Code.CallSite)
    (g : Heap) (e : GenerationError) : Prop :=
  site.method ∉ E.settings.skipped ∧
    ∀ m, E.program.method? site.method = some m → Fails site.method (E.calleeStart m site g) e

/-- What postconditions mean, and the rules that this follows. -/
structure Judgement (E : Engine) where
  /-- The calls that may be made. -/
  Fit : Code.CallSite → Heap → Prop
  /-- The preconditions from which methods may be analysed. -/
  Key : String → Heap → Prop
  /-- The preconditions of recorded contracts. -/
  Known : String → Heap → Prop
  /-- The methods whose answers are never narrowed. -/
  Free : String → Prop
  /-- The postconditions cover all runs in which calls are nested less than `n` deep. -/
  Covers : Nat → String → Heap → HeapSet → Prop
  /-- A postcondition that some run has. -/
  Allows : String → Heap → Heap → Prop
  /-- Some run fails with the error. -/
  Fails : String → Heap → GenerationError → Prop
  known {method : String} {pre : Heap} : Key method pre → Known method pre
  covers_zero {method : String} {pre : Heap} {posts : HeapSet} : Covers 0 method pre posts
  covers_pred {n : Nat} {method : String} {pre : Heap} {posts : HeapSet} :
    Covers (n + 1) method pre posts → Covers n method pre posts
  covers_mono {n : Nat} {method : String} {pre : Heap} {posts posts' : HeapSet} :
    Covers n method pre posts → (∀ q ∈ posts, q ∈ posts') → Covers n method pre posts'
  /-- A view of a precondition may be analysed instead. -/
  view {method : String} {pre P : Heap} : Key method pre → P ∈ E.abstraction.views pre →
    Key method P ∧ (∀ n posts, Covers n method P posts → Covers n method pre posts) ∧
      (∀ q, Allows method P q → Allows method pre q) ∧ ∀ e, Fails method P e → Fails method pre e
  key {site : Code.CallSite} {g : Heap} {m : Code.Method} : Fit site g →
    E.program.method? site.method = some m → Key site.method (E.calleeStart m site g)
  /-- Runs make calls that may be made. -/
  fit {method : String} {pre g : Heap} {m : Code.Method} {i : Nat} {stmt : Code.Statement}
    {site : Code.CallSite} : Key method pre → E.program.method? method = some m →
    Reached E m (E.CallAnswer fun method pre posts => ∀ q ∈ posts, Allows method pre q) [pre]
      ⟨g, .line i, true⟩ → m.statement? i = some stmt → stmt.step g = .call site → Fit site g
  /-- If calls are covered, then an explored space covers runs that are nested one deeper. -/
  covers_succ {method : String} {pre : Heap} {m : Code.Method} {sp : E.Space} {n : Nat} :
    Key method pre → E.program.method? method = some m →
    IsExplored E m (E.CallAnswer fun method pre posts => Free method → Covers n method pre posts)
      [pre] sp → Covers (n + 1) method pre (E.harvest sp)
  allows {method : String} {pre h : Heap} {m : Code.Method} :
    Key method pre → E.program.method? method = some m →
    Reached E m (E.CallAnswer fun method pre posts => ∀ q ∈ posts, Allows method pre q) [pre]
      ⟨h, .exit, false⟩ → Allows method pre (E.harvestHeap h)
  fails {method : String} {pre : Heap} {m : Code.Method} {e : GenerationError} :
    Key method pre → E.program.method? method = some m →
    IsStuck E m (E.CallAnswer fun method pre posts => ∀ q ∈ posts, Allows method pre q)
      (E.CallRefusal Fails) [pre] e → Fails method pre e

namespace Judgement

variable {E : Engine} (J : Judgement E)

/-! ### Sessions that a judgement admits -/

/-- The contracts in use cover runs that are nested less than `n` deep. -/
def Supports (n : Nat) (stack : List Pending) : Prop :=
  ∀ p ∈ inUse stack, J.Covers n p.method p.pre p.posts

/-- Postconditions that are right, provided that the contracts in use are. -/
structure Meets (stack : List Pending) (method : String) (pre : Heap) (posts : HeapSet) : Prop where
  allows : ∀ q ∈ posts, J.Allows method pre q
  covers : ∀ n, J.Supports n stack → J.Covers n method pre posts

/-- The postconditions with which a call may be answered. Only those of a method whose answers are
never narrowed have to cover all runs. -/
structure Grants (s : Session) (method : String) (pre : Heap) (posts : HeapSet) : Prop where
  allows : ∀ q ∈ posts, J.Allows method pre q
  meets : J.Free method → J.Meets s.stack method pre posts

/-- A store all of whose contracts are right. -/
structure IsRight (c : ContractStore) : Prop where
  records : ∀ method pre posts, c.Records method pre posts →
    J.Known method pre ∧ (∀ n, J.Covers n method pre posts) ∧ ∀ q ∈ posts, J.Allows method pre q
  refines : ∀ method r, c.Refines method r →
    J.Known method r.pre ∧ ∀ q ∈ r.posts, J.Allows method r.pre q

/-- A session all of whose contracts are right, and those that it will share too. -/
structure Admits (s : Session) : Prop where
  contracts : J.IsRight s.contracts
  turns : ∀ c ∈ s.turns, J.IsRight c
  stack : ∀ p ∈ s.stack, ∀ q ∈ p.posts, J.Allows p.method p.pre q
  required : ∀ method, J.Free method → s.required.find? method = none

/-- A right session that comes after another one. Contracts under construction may have been
marked. -/
structure Follows (s t : Session) : Prop extends s.Precedes t where
  before : J.Admits s
  after : J.Admits t
  stack : List.Forall₂ Pending.Marked s.stack t.stack

variable {J} {s t u : Session} {method : String} {pre : Heap} {posts : HeapSet} {n : Nat}

variable {stack stack' rest : List Pending} {p : Pending} {m : Code.Method} {heaps : List Heap}
  {call : CallHandler} {steps : Nat} {F : GenerationError → Session → Prop}

theorem Supports.pred (h : J.Supports (n + 1) stack) : J.Supports n stack :=
  fun p hp => J.covers_pred (h p hp)

theorem Supports.earlier (h : J.Supports n stack')
    (hmarked : List.Forall₂ Pending.Marked stack stack') : J.Supports n stack := by
  intro p hp
  obtain ⟨q, hq, hpq⟩ := exists_mem_inUse hmarked hp
  rw [← hpq.method, ← hpq.pre, ← hpq.posts]
  exact h q hq

theorem Meets.later (h : J.Meets stack method pre posts)
    (hmarked : List.Forall₂ Pending.Marked stack stack') : J.Meets stack' method pre posts :=
  ⟨h.allows, fun n hn => h.covers n (hn.earlier hmarked)⟩

theorem Admits.follows (h : J.Admits s) : J.Follows s s :=
  ⟨.refl s, h, h, forall₂_marked_refl s.stack⟩

theorem Follows.trans (h : J.Follows s t) (h' : J.Follows t u) : J.Follows s u :=
  ⟨h.toPrecedes.trans h'.toPrecedes, h.before, h'.after, forall₂_marked_trans h.stack h'.stack⟩

theorem Admits.counted (h : J.Admits s) (ht : s.Counted t) : J.Admits t := by
  refine ⟨?_, ?_, ?_, ?_⟩
  · rw [ht.contracts]
    exact h.contracts
  · rw [ht.turns]
    exact h.turns
  · rw [ht.stack]
    exact h.stack
  · rw [ht.required]
    exact h.required

/-- The protocol that keeps all contracts right. -/
def protocol (J : Judgement E) : Protocol where
  Later := J.Follows
  Asks := J.Fit
  Answers s := E.CallAnswer (J.Grants s)
  Refuses := E.CallRefusal J.Fails
  trans := .trans
  self h := h.after.follows
  limits h := h.limits
  count h ht := ⟨h.toPrecedes.trans ht.precedes, h.before, h.after.counted ht, ht.stack ▸ h.stack⟩
  answers h := CallAnswer.mono (fun _ _ _ hgrants =>
    ⟨hgrants.allows, fun hfree => (hgrants.meets hfree).later h.stack⟩) _ _ _

theorem answers_allows (site : Code.CallSite) (g : Heap) (results : List Heap)
    (h : J.protocol.Answers s site g results) :
    E.CallAnswer (fun method pre posts => ∀ q ∈ posts, J.Allows method pre q) site g results :=
  CallAnswer.mono (fun _ _ _ (hgrants : J.Grants s _ _ _) => hgrants.allows) site g results h

theorem mem_of_forall₂_marked (h : List.Forall₂ Pending.Marked stack stack') {q : Pending}
    (hq : q ∈ stack') :
    ∃ p ∈ stack, p.Marked q := by
  induction h with
  | nil => exact absurd hq not_mem_nil
  | cons hpq _ ih =>
    rcases mem_cons.1 hq with rfl | hq
    · exact ⟨_, mem_cons_self, hpq⟩
    · exact (ih hq).imp fun p hp => ⟨mem_cons_of_mem _ hp.1, hp.2⟩

theorem inUse_subset (hp : p ∈ inUse stack) : p ∈ stack := by
  induction stack with
  | nil => exact hp
  | cons q rest ih =>
    rw [inUse, mem_append] at hp
    rcases hp with hp | hp
    · split at hp
      · exact mem_singleton.1 hp ▸ mem_cons_self
      · exact absurd hp not_mem_nil
    · split at hp
      · exact mem_cons_of_mem _ (ih hp)
      · exact absurd hp not_mem_nil

theorem Admits.marked (h : J.Admits s) (hstack : List.Forall₂ Pending.Marked s.stack stack) :
    J.Admits { s with stack } := by
  refine ⟨h.contracts, h.turns, fun q hq => ?_, h.required⟩
  obtain ⟨p, hp, hpq⟩ := mem_of_forall₂_marked hstack hq
  rw [hpq.method, hpq.pre, hpq.posts]
  exact h.stack p hp

/-! ### Getting at contracts -/

namespace IsRight

variable {c : ContractStore}

theorem add (hc : J.IsRight c) (hknown : J.Known method pre) (hcovers : ∀ n, J.Covers n method pre posts)
    (hallows : ∀ q ∈ posts, J.Allows method pre q) : J.IsRight (c.add method pre posts) := by
  refine ⟨fun method' pre' posts' hrec => ?_, fun method' r hr =>
    hc.refines method' r (ContractStore.refines_add hr)⟩
  rcases ContractStore.records_add hrec with hrec | ⟨rfl, rfl, hsub, hposts⟩
  · exact hc.records method' pre' posts' hrec
  · refine ⟨hknown, fun n => J.covers_mono (hcovers n) hsub, fun q hq => ?_⟩
    rcases hposts q hq with hq | ⟨old, hold, hq⟩
    · exact hallows q hq
    · exact (hc.records _ _ old hold).2.2 q hq

theorem addRefined (hc : J.IsRight c) {r : RefinedContract} (hknown : J.Known method r.pre)
    (hr : ∀ q ∈ r.posts, J.Allows method r.pre q) : J.IsRight (c.addRefined method r) := by
  refine ⟨fun method' pre' posts' hrec => hc.records method' pre' posts'
    (ContractStore.records_addRefined hrec), fun method' r' hr' => ?_⟩
  rcases ContractStore.refines_addRefined hr' with hr' | ⟨rfl, rfl⟩
  · exact hc.refines method' r' hr'
  · exact ⟨hknown, hr⟩

/-- Right contracts of several tasks are right together. -/
theorem join {d : ContractStore} (hc : J.IsRight c) (hd : J.IsRight d) : J.IsRight (c.join d) := by
  refine ContractStore.join_induction hc (fun c method pre posts hrec hc => ?_)
    fun c method r hr hc => hc.addRefined (hd.refines method r hr).1 (hd.refines method r hr).2
  obtain ⟨hknown, hcovers, hallows⟩ := hd.records method pre posts hrec
  exact hc.add hknown hcovers hallows

end IsRight

/-- What other tasks have recorded comes to what is recorded already. -/
theorem access_ensures (hs : J.Admits s) : Run.access.Ensures s
    (fun _ t => J.Follows s t ∧ t.stack = s.stack ∧ ∀ method pre posts,
      s.contracts.Records method pre posts → ∃ posts', t.contracts.Records method pre posts')
    fun e t => J.Follows s t ∧ e = .outOfSteps := by
  rw [Run.access, Run.ensures_bind, Run.ensures_get]
  cases hturns : s.turns with
  | nil =>
    cases hwaits : s.waits with
    | false =>
      simp only [Session.access?, hturns, hwaits]
      exact ⟨hs.follows, rfl, fun _ _ posts hrec => ⟨posts, hrec⟩⟩
    | true =>
      simp only [Session.access?, hturns, hwaits]
      exact ⟨hs.follows, rfl⟩
  | cons shared turns =>
    have hright := forall_mem_cons.1 (hturns ▸ hs.turns)
    simp only [Session.access?, hturns]
    exact ⟨⟨⟨fun h => h, rfl, hturns ▸ suffix_cons shared turns, rfl⟩, hs,
      ⟨hs.contracts.join hright.1, hright.2, hs.stack, hs.required⟩, forall₂_marked_refl s.stack⟩, rfl,
      fun _ _ _ hrec => hrec.join⟩

theorem meets_of_records (hs : J.Admits s) (hkey : J.Key method pre) {P : Heap}
    (hrec : s.contracts.Records method P posts) (hP : P ∈ E.abstraction.views pre)
    (stack : List Pending) : J.Meets stack method pre posts := by
  obtain ⟨-, hcovers, hallows⟩ := hs.contracts.records method P posts hrec
  obtain ⟨-, hview, hallow, -⟩ := J.view hkey hP
  exact ⟨fun q hq => hallow q (hallows q hq), fun n _ => hview n posts (hcovers n)⟩

theorem lookup_ensures (hs : J.Admits s) (hkey : J.Key method pre) :
    (E.lookup method pre).Ensures s (fun a? t => J.Follows s t ∧
      (a? = none → ∀ P posts, s.contracts.Records method P posts → P ∉ E.abstraction.views pre) ∧
      ∀ a, a? = some a → ∃ posts, a.posts = posts.toList ∧ J.Meets t.stack method pre posts)
      fun e t => J.Follows s t ∧ e = .outOfSteps := by
  rw [lookup, Run.ensures_bind, Run.ensures_get]
  split
  · next posts stack hconsult =>
    rw [Run.ensures_bind, Run.ensures_set, Run.ensures_pure]
    obtain ⟨hmarked, p, hp, hmethod, hpre, hposts⟩ := consult_spec hconsult
    have hadmits := hs.marked hmarked
    subst hmethod hpre hposts
    refine ⟨⟨⟨fun h => h, rfl, suffix_rfl, rfl⟩, hs, hadmits, hmarked⟩, nofun,
      fun a ha => ⟨p.posts, ?_, ?_⟩⟩
    · rw [← Option.some.inj ha]
    · exact ⟨hadmits.stack p (inUse_subset hp), fun n hn => hn p hp⟩
  · rw [Run.ensures_bind]
    refine (access_ensures hs).imp (fun _ t ⟨ht, _, hrecords⟩ => ?_) fun _ _ h => h
    rw [Run.ensures_bind, Run.ensures_get, Run.ensures_pure]
    refine ⟨ht, fun hnone P posts hrec hP => ?_, fun a ha => ?_⟩
    · obtain ⟨posts', hrec'⟩ := hrecords method P posts hrec
      have hsome := ContractStore.isSome_match? hrec' hP
      rw [map_eq_none_iff.1 hnone] at hsome
      cases hsome
    · obtain ⟨c, hmatch, rfl⟩ := map_eq_some_iff.1 ha
      obtain ⟨hrec, hP⟩ := ContractStore.records_of_match? hmatch
      exact ⟨c.2, rfl, meets_of_records ht.after hkey hrec hP _⟩

/-! ### Finding a contract -/

/-- The innermost contract is that of the method, and the others are as before up to marks. -/
structure Works (J : Judgement E) (method : String) (pre : Heap) (s t : Session) (p : Pending)
    (rest : List Pending) : Prop extends s.Precedes t where
  admits : J.Admits t
  stack : t.stack = p :: rest
  method : p.method = method
  pre : p.pre = pre
  marked : List.Forall₂ Pending.Marked s.stack rest

/-- Runs of a method from the given heaps make only calls that may be made. -/
def Suits (J : Judgement E) (m : Code.Method) (heaps : List Heap) : Prop :=
  ∀ g i stmt site,
    Reached E m (E.CallAnswer fun method pre posts => ∀ q ∈ posts, J.Allows method pre q) heaps
      ⟨g, .line i, true⟩ → m.statement? i = some stmt → stmt.step g = .call site → J.Fit site g

theorem suits_of_key (hkey : J.Key method pre) (hm : E.program.method? method = some m) :
    J.Suits m [pre] :=
  fun _ _ _ _ => J.fit hkey hm

theorem Suits.isReady (hsuits : J.Suits m heaps) (hcall : J.protocol.IsObeyed call) :
    IsReady J.protocol E call m heaps where
  obeyed := hcall
  asks _ _ g i stmt site hreached := hsuits g i stmt site (hreached.mono answers_allows)

/-- One round. The final heaps that it finds cover runs that are nested one deeper than those that
the contracts in use cover. -/
theorem round_ensures (hcall : J.protocol.IsObeyed call) (hm : E.program.method? method = some m)
    (hkey : J.Key method pre) (hs : J.Works method pre s t p rest) :
    (E.generateWith call steps method [pre] .depthFirst).Ensures t
      (fun r u => ∃ p' rest', J.Works method pre s u p' rest' ∧ p.Marked p' ∧
        (∀ q ∈ E.harvest r.1, J.Allows method pre q) ∧
        ∀ n, J.Supports n u.stack → J.Covers (n + 1) method pre (E.harvest r.1))
      fun e u => ∃ p' rest', J.Works method pre s u p' rest' ∧
        (e.IsStop s ∨ J.Fails method pre e) := by
  have hworks {u : Session} (hu : J.Follows t u) :
      ∃ p' rest', J.Works method pre s u p' rest' ∧ p.Marked p' := by
    have hstack := hu.stack
    rw [hs.stack] at hstack
    obtain ⟨p', rest', hp', hrest', heq⟩ := forall₂_cons_left_iff.1 hstack
    exact ⟨p', rest', ⟨hs.toPrecedes.trans hu.toPrecedes, hu.after, heq, hp'.method.trans hs.method,
      hp'.pre.trans hs.pre, forall₂_marked_trans hs.marked hrest'⟩, hp'⟩
  refine (generateWith_ensures True hm (cons_ne_nil _ _)
    ((suits_of_key hkey hm).isReady hcall) hs.admits.follows (fun _ => rfl) Search.isBelow_depthFirst).imp
    ?_ ?_
  · rintro ⟨sp, v?⟩ u ⟨⟨hu, hstage⟩, hstart⟩
    obtain ⟨p', rest', hw, hp'⟩ := hworks hu
    have hexplored : IsExplored E m (J.protocol.Answers u) [pre] sp := ⟨hstart.holds, hstage⟩
    refine ⟨p', rest', hw, hp', fun q hq => ?_, fun n hn => ?_⟩
    · obtain ⟨h, hh, rfl⟩ := hexplored.mem_harvest_iff.1 hq
      exact J.allows hkey hm ((hexplored.reached hh).mono answers_allows)
    · refine J.covers_succ hkey hm (hexplored.mono fun site g results h => ?_)
      exact CallAnswer.mono (fun _ _ _ (hgrants : J.Grants u _ _ _) hfree =>
        (hgrants.meets hfree).covers n hn) site g results h
  · rintro e u ⟨hu, hfails⟩
    obtain ⟨p', rest', hw, -⟩ := hworks hu
    refine ⟨p', rest', hw, hfails.imp ?_ fun hstuck => J.fails hkey hm (hstuck.mono answers_allows)⟩
    exact fun hstop => hstop.imp_right (And.imp_left fun hne heq => hne (hs.limits heq))

theorem join_ensures {found : HeapSet} (hs : J.Works method pre s t p rest)
    (hfound : ∀ q ∈ found, J.Allows method pre q) :
    (Engine.join found).Ensures t (fun again u => ∃ p', J.Works method pre s u p' rest ∧
      p'.posts = p.posts.union found ∧ p'.dependent = p.dependent ∧
      again = (p.consulted && (p.posts.union found).size ≠ p.posts.size)) F := by
  rw [Engine.join, Run.ensures_modifyGet, hs.stack]
  refine ⟨_, ⟨⟨hs.limits, hs.required, hs.turns, hs.waits⟩,
    ⟨hs.admits.contracts, hs.admits.turns, fun p' hp' => ?_, hs.admits.required⟩, rfl, hs.method,
      hs.pre, hs.marked⟩, rfl, rfl, rfl⟩
  have hadmits := hs.admits.stack
  rw [hs.stack] at hadmits
  rcases mem_cons.1 hp' with rfl | hp'
  · intro q hq
    rcases SortedSet.mem_union.1 hq with hq | hq
    · exact hadmits p mem_cons_self q hq
    · rw [hs.method, hs.pre]
      exact hfound q hq
  · exact hadmits p' (mem_cons_of_mem _ hp')

/-- If a round finds nothing that was used before and is new, then its final heaps are right. The
induction is on the nesting of calls: the contract itself is in use. -/
theorem covers_of_round {found : HeapSet} (hp : p.method = method ∧ p.pre = pre)
    (hround : ∀ n, J.Supports n (p :: rest) → J.Covers (n + 1) method pre found)
    (hsame : p.consulted → p.posts.union found = p.posts) (hn : p.dependent → J.Supports n rest) :
    J.Covers n method pre (p.posts.union found) := by
  have hsub : ∀ q ∈ found, q ∈ p.posts.union found := fun q hq => SortedSet.mem_union.2 (.inr hq)
  induction n with
  | zero => exact J.covers_zero
  | succ n ih =>
    refine J.covers_mono (hround n fun q hq => ?_) hsub
    rw [inUse, mem_append] at hq
    rcases hq with hq | hq
    · split at hq
      · next hconsulted =>
        rw [mem_singleton.1 hq, hp.1, hp.2, ← hsame hconsulted]
        exact ih fun hd => (hn hd).pred
      · exact absurd hq not_mem_nil
    · split at hq
      · next hdependent => exact (hn hdependent).pred q hq
      · exact absurd hq not_mem_nil

/-- Repeated analysis of a method finds final heaps that are right if the enclosing contracts that it
depends on are. -/
theorem settle_ensures {rounds : Nat} (hcall : J.protocol.IsObeyed call)
    (hm : E.program.method? method = some m) (hkey : J.Key method pre)
    (hs : J.Works method pre s t p rest) :
    (E.settle call steps method pre rounds).Ensures t
      (fun _ u => ∃ p' rest', J.Works method pre s u p' rest' ∧
        ∀ n, (p'.dependent → J.Supports n rest') → J.Covers n method pre p'.posts)
      fun e u => ∃ p' rest', J.Works method pre s u p' rest' ∧
        (e.IsStop s ∨ J.Fails method pre e) := by
  induction rounds generalizing t p rest with
  | zero => exact ⟨p, rest, hs, .inl (.inl rfl)⟩
  | succ rounds ih =>
    rw [settle, Run.ensures_bind]
    refine (round_ensures hcall hm hkey hs).imp ?_ fun _ _ h => h
    rintro ⟨sp, v?⟩ u ⟨q, rest', hq, -, hallows, hcovers⟩
    dsimp only
    rw [Run.ensures_bind]
    refine (join_ensures hq hallows).imp ?_ fun _ _ h => h
    rintro again v ⟨q', hq', hposts, hdependent, hagain⟩
    cases again with
    | true => exact ih hq'
    | false =>
      refine ⟨q', rest', hq', fun n hn => ?_⟩
      rw [hposts]
      rw [hdependent] at hn
      refine covers_of_round ⟨hq.method, hq.pre⟩ (hq.stack ▸ hcovers) (fun hconsulted => ?_) hn
      refine SortedSet.union_eq_left_of_size_eq ?_
      simpa [hconsulted] using hagain.symm

theorem within_ensures {act : Run Unit} {Q : Unit → Session → Prop}
    (hact : act.Ensures (s.push method pre) Q F) :
    (Run.within method pre act).Ensures s (fun p? t => ∃ u, Q () u ∧ u.pop = (p?, t))
      fun e t => ∃ u, F e u ∧ u.pop.2 = t := by
  have houtcome : (Run.within method pre act).outcome s =
      ((act.outcome (s.push method pre)).1.map fun _ => (act.outcome (s.push method pre)).2.pop.1,
        (act.outcome (s.push method pre)).2.pop.2) := rfl
  unfold Run.Ensures at hact ⊢
  rw [houtcome]
  generalize act.outcome (s.push method pre) = r at hact ⊢
  rcases r with ⟨_ | _, u⟩
  · exact ⟨u, hact, rfl⟩
  · exact ⟨u, hact, rfl⟩

theorem Works.push (hs : J.Admits s) (method : String) (pre : Heap) :
    J.Works method pre s (s.push method pre) { method, pre } s.stack :=
  ⟨⟨fun h => h, rfl, suffix_rfl, rfl⟩, ⟨hs.contracts, hs.turns, forall_mem_cons.2
    ⟨fun _ hq => absurd hq SortedSet.not_mem_empty, hs.stack⟩, hs.required⟩, rfl, rfl, rfl,
    forall₂_marked_refl s.stack⟩

theorem Works.pop (hs : J.Admits s) (ht : J.Works method pre s t p rest) :
    J.Follows s t.pop.2 ∧ t.pop.1 = some p ∧
      t.pop.2.stack = rest := by
  rw [Session.pop, ht.stack]
  refine ⟨⟨⟨ht.limits, ht.required, ht.turns, ht.waits⟩, hs,
    ⟨ht.admits.contracts, ht.admits.turns, fun q hq => ?_, ht.admits.required⟩, ht.marked⟩, rfl, rfl⟩
  exact ht.admits.stack q (ht.stack ▸ mem_cons_of_mem _ hq)

theorem conclude_ensures (hcall : J.protocol.IsObeyed call) (hm : E.program.method? method = some m)
    (hkey : J.Key method pre) (hs : J.Admits s) :
    (E.conclude call steps method pre).Ensures s
      (fun a? t => J.Follows s t ∧
        (a? = none → ∃ posts, t.contracts.Records method pre posts) ∧
        ∀ a, a? = some a → ∃ posts, a.posts = posts.toList ∧ J.Meets t.stack method pre posts)
      fun e t => J.Follows s t ∧ (e.IsStop s ∨ J.Fails method pre e) := by
  rw [conclude, Run.ensures_bind]
  refine (within_ensures (settle_ensures hcall hm hkey (.push hs method pre))).imp ?_ ?_
  · rintro p? t ⟨u, ⟨p, rest, hu, hcovers⟩, hpop⟩
    obtain ⟨hfollows, hp, hstack⟩ := hu.pop hs
    rw [hpop] at hfollows hp hstack
    obtain rfl : p? = some p := hp
    have hallows : ∀ q ∈ p.posts, J.Allows method pre q := by
      have := hu.admits.stack p (hu.stack ▸ mem_cons_self)
      rwa [hu.method, hu.pre] at this
    dsimp only
    split
    · next hdependent =>
      refine ⟨hfollows, nofun, fun a ha => ⟨p.posts, ?_, hallows, fun n hn => ?_⟩⟩
      · rw [← Option.some.inj ha]
      · exact hcovers n fun _ => hstack ▸ hn
    · next hdependent =>
      rw [Run.ensures_bind]
      refine (access_ensures hfollows.after).imp (fun _ v ⟨hv, _⟩ => ?_) fun e v ⟨hv, he⟩ =>
        ⟨hfollows.trans hv, .inl (.inl he)⟩
      rw [Run.ensures_bind, Run.ensures_modify, Run.ensures_pure]
      have hlater := hfollows.trans hv
      have hright := hv.after.contracts.add (J.known hkey)
        (fun n => hcovers n fun hd => absurd hd hdependent) hallows
      refine ⟨⟨⟨hlater.limits, hlater.required, hlater.turns, hlater.waits⟩, hs,
        ⟨hright, hv.after.turns, hv.after.stack, hv.after.required⟩, hlater.stack⟩, fun _ => ?_, nofun⟩
      exact ContractStore.exists_records_add _ method pre p.posts
  · rintro e t ⟨u, ⟨p, rest, hu, herror⟩, rfl⟩
    exact ⟨(hu.pop hs).1, herror⟩

/-! ### The postconditions of a call -/

theorem contractStart_mem_views (E : Engine) (pre : Heap) :
    E.contractStart pre ∈ E.abstraction.views pre := by
  rw [contractStart]
  split <;> simp [Abstraction.views]

theorem Meets.ofView {P : Heap} (hkey : J.Key method pre) (hP : P ∈ E.abstraction.views pre)
    (hmeets : J.Meets stack method P posts) :
    J.Meets stack method pre posts := by
  obtain ⟨-, hcovers, hallows, -⟩ := J.view hkey hP
  exact ⟨fun q hq => hallows q (hmeets.allows q hq), fun n hn => hcovers n posts (hmeets.covers n hn)⟩

theorem remembered_eq (method : String) (pre : Heap) : E.remembered method pre =
    E.lookup method pre >>= fun a? => a?.elim (if E.contractStart pre ≠ pre then
      E.lookup method (E.contractStart pre) else pure none) fun a => pure (some a) := by
  rw [remembered]
  congr 1
  funext a?
  cases a? <;> rfl

theorem remembered_ensures (hs : J.Admits s) (hkey : J.Key method pre) :
    (E.remembered method pre).Ensures s (fun a? t => J.Follows s t ∧
      ∀ a, a? = some a → ∃ posts, a.posts = posts.toList ∧ J.Meets t.stack method pre posts)
      fun e t => J.Follows s t ∧ e = .outOfSteps := by
  have hview := contractStart_mem_views E pre
  rw [remembered_eq, Run.ensures_bind]
  refine (lookup_ensures hs hkey).imp (fun a? t ⟨ht, _, hsome⟩ => ?_) fun _ _ h => h
  cases a? with
  | some a => exact ⟨ht, hsome⟩
  | none =>
    dsimp only [Option.elim]
    split
    · refine (lookup_ensures ht.after (J.view hkey hview).1).imp (fun a? u ⟨hu, _, hsome⟩ => ?_)
        fun e u ⟨hu, he⟩ => ⟨ht.trans hu, he⟩
      exact ⟨ht.trans hu, fun a ha => (hsome a ha).imp fun posts hposts =>
        ⟨hposts.1, hposts.2.ofView hkey hview⟩⟩
    · exact ⟨ht, nofun⟩

theorem postconditions_eq (call : CallHandler) (steps : Nat) (method : String) (pre : Heap) :
    E.postconditions call steps method pre = (E.remembered method pre).orElseRun
      ((E.conclude call steps method (E.contractStart pre)).orElseRun
        ((E.lookup method pre).orElseRun (throw (.contractMismatch method)))) :=
  Run.bind_eq_orElseRun (fun _ => rfl) (Run.bind_eq_orElseRun (fun _ => rfl)
    (Run.bind_eq_orElseRun (fun _ => rfl) rfl))

theorem postconditions_ensures (hcall : J.protocol.IsObeyed call)
    (hm : E.program.method? method = some m) (hkey : J.Key method pre) (hs : J.Admits s) :
    (E.postconditions call steps method pre).Ensures s
      (fun a t => J.Follows s t ∧ ∃ posts, a.posts = posts.toList ∧ J.Meets t.stack method pre posts)
      fun e t => J.Follows s t ∧ (e.IsStop s ∨ J.Fails method pre e) := by
  have hview := contractStart_mem_views E pre
  obtain ⟨hkey', -, -, hfails⟩ := J.view hkey hview
  rw [postconditions_eq, Run.ensures_orElseRun]
  refine (remembered_ensures hs hkey).imp
    (fun a? t ⟨ht, hsome⟩ => ⟨fun a ha => ⟨ht, hsome a ha⟩, fun _ => ?_⟩)
    fun e t ⟨ht, he⟩ => ⟨ht, .inl (.inl he)⟩
  have hlater : J.protocol.Later s t := ht
  rw [Run.ensures_orElseRun]
  refine (conclude_ensures hcall hm hkey' ht.after).imp (fun a? u ⟨hu, hnone, hsome⟩ => ?_)
    fun e u ⟨hu, he⟩ => ⟨ht.trans hu, he.imp (·.earlier hlater) (hfails e)⟩
  refine ⟨fun a ha => ⟨ht.trans hu, (hsome a ha).imp fun posts hposts =>
    ⟨hposts.1, hposts.2.ofView hkey hview⟩⟩, fun h => ?_⟩
  obtain ⟨posts, hrec⟩ := hnone h
  rw [Run.ensures_orElseRun]
  refine (lookup_ensures hu.after hkey).imp (fun a? v ⟨hv, hnone, hsome⟩ => ?_)
    fun e v ⟨hv, he⟩ => ⟨(ht.trans hu).trans hv, .inl (.inl he)⟩
  -- The contract that was just recorded subsumes the precondition.
  exact ⟨fun a ha => ⟨(ht.trans hu).trans hv, hsome a ha⟩, fun h =>
    absurd hview (hnone h _ posts hrec)⟩

/-- Narrowing keeps answers admissible, and leaves those alone that are never narrowed. -/
theorem refine_ensures {a : Answer} (hs : J.Admits s) (hkey : J.Key method pre)
    (ha : a.posts = posts.toList) (hmeets : J.Meets s.stack method pre posts) :
    (E.refine method pre a).Ensures s (fun results t => J.Follows s t ∧
      ∃ posts, results = posts.toList ∧ J.Grants t method pre posts) F := by
  rw [Engine.refine, Run.ensures_bind, Run.ensures_get]
  cases hrequired : s.required.find? method with
  | none => exact ⟨hs.follows, posts, ha, hmeets.allows, fun _ => hmeets⟩
  | some required =>
    have hfree : ¬J.Free method := fun hfree => by simp [hs.required method hfree] at hrequired
    dsimp only
    cases hmatch : if a.recorded then s.contracts.matchRefined? method pre required else none with
    | some refined =>
      refine ⟨hs.follows, refined, rfl, fun q hq => ?_, fun h => absurd h hfree⟩
      split at hmatch
      · obtain ⟨r, hr, rfl, rfl⟩ := ContractStore.refines_of_matchRefined? hmatch
        exact (hs.contracts.refines method r hr).2 q hq
      · cases hmatch
    | none =>
      have hfilter (views : List Heap) : a.posts.filter (· ∈ views) =
          (posts.filter (· ∈ views)).toList := by rw [ha]; rfl
      have hgrants (views : List Heap) (t : Session) :
          J.Grants t method pre (posts.filter (· ∈ views)) :=
        ⟨fun q hq => hmeets.allows q (SortedSet.mem_filter.1 hq).1, fun h => absurd h hfree⟩
      dsimp only
      split
      · refine ⟨⟨⟨fun h => h, rfl, suffix_rfl, rfl⟩, hs,
          ⟨hs.contracts.addRefined (J.known hkey) fun q hq => ?_, hs.turns, hs.stack, hs.required⟩,
          forall₂_marked_refl s.stack⟩, _, hfilter _, hgrants _ _⟩
        rw [SortedSet.mem_ofList, hfilter] at hq
        exact (hgrants _ s).allows q hq
      · exact ⟨hs.follows, _, hfilter _, hgrants _ _⟩

/-- The handler of calls keeps all contracts right. -/
theorem isObeyed_invoke (J : Judgement E) (steps : Nat) : J.protocol.IsObeyed (E.invoke steps) := by
  induction steps with
  | zero => exact fun s site g hs _ => ⟨hs, .inl (.inl rfl)⟩
  | succ steps ih =>
    intro s site g hs hfit
    rw [invoke]
    split
    · next hskip => exact ⟨hs, .inl ⟨hskip, rfl⟩⟩
    · next hskip =>
      cases hm : E.program.method? site.method with
      | none => exact ⟨hs, .inr ⟨hskip, fun m h => nomatch h.symm.trans hm⟩⟩
      | some m =>
        dsimp only
        rw [Run.ensures_bind]
        refine (postconditions_ensures ih hm (J.key hfit hm) hs.after).imp
          (fun a t ⟨ht, posts, ha, hmeets⟩ => ?_) fun e t ⟨ht, he⟩ =>
            ⟨ht, he.imp_right fun hfails => ⟨hskip, fun m' hm' => ?_⟩⟩
        · rw [Run.ensures_bind]
          refine (refine_ensures ht.after (J.key hfit hm) ha hmeets).imp
            (fun results u ⟨hu, posts', hresults, hgrants⟩ => ?_) fun _ _ h => h
          refine ⟨ht.trans hu, .inr ⟨hskip, m, posts', hm, hgrants, ?_⟩⟩
          rw [hresults]
        · obtain rfl := Option.some.inj (hm.symm.trans hm')
          exact hfails

/-! ### Sessions at rest -/

/-- Postconditions that are right without any provision. -/
structure Settles (J : Judgement E) (method : String) (pre : Heap) (posts : HeapSet) : Prop where
  allows : ∀ q ∈ posts, J.Allows method pre q
  covers : J.Free method → ∀ n, J.Covers n method pre posts

/-- A session with right contracts, none of them under construction. -/
structure Rests (J : Judgement E) (s : Session) : Prop where
  admits : J.Admits s
  stack : s.stack = []

/-- A session at rest that comes after another one. -/
structure Passes (J : Judgement E) (s t : Session) : Prop extends s.Precedes t where
  rests : J.Rests t

/-- With no contract under construction, what is granted is right without any provision. -/
theorem Rests.settles (hs : J.Rests s) (hgrants : J.Grants s method pre posts) :
    J.Settles method pre posts := by
  have hsupports (n : Nat) : J.Supports n s.stack := by
    rw [hs.stack]
    exact forall_mem_nil _
  exact ⟨hgrants.allows, fun hfree n => (hgrants.meets hfree).covers n (hsupports n)⟩

theorem Rests.passes (hs : J.Rests s) (ht : J.Follows s t) : J.Passes s t := by
  have hstack := ht.stack
  rw [hs.stack, forall₂_nil_left_iff] at hstack
  exact ⟨ht.toPrecedes, ht.after, hstack⟩

/-- Before the first run there are no contracts. -/
theorem rests_session : J.Rests E.session where
  admits := by
    refine ⟨⟨fun method pre posts hrec => ?_, fun method r hr => ?_⟩, forall_mem_nil _,
      forall_mem_nil _, fun _ _ => rfl⟩
    · obtain ⟨t, ht, -⟩ := hrec
      cases ht
    · obtain ⟨t, ht, -⟩ := hr
      cases ht
  stack := rfl

/-- A run finds a space whose calls are answered rightly, and it fails only if it is stopped or if
some reached state cannot be run. -/
theorem search_ensures {S : Search} (steps : Nat) (hm : E.program.method? method = some m)
    (hheaps : heaps ≠ []) (hsuits : J.Suits m heaps) (hs : J.Rests s) (hS : S.IsBelow 0) :
    (E.search steps method heaps S).Ensures s
      (fun r t => J.Passes s t ∧
        (S.checker? = none → IsExplored E m (E.CallAnswer J.Settles) heaps r.1))
      fun e t => J.Passes s t ∧ (e.IsStop s ∨
        IsStuck E m (E.CallAnswer fun method pre posts => ∀ q ∈ posts, J.Allows method pre q)
          (E.CallRefusal J.Fails) heaps e) := by
  have hready := hsuits.isReady (J.isObeyed_invoke steps)
  rw [search]
  refine (generateWith_ensures (S.checker? = none) hm hheaps hready hs.admits.follows
    (fun h => h) hS).imp (fun r t ⟨⟨ht, hstage⟩, hstart⟩ => ⟨hs.passes ht, fun hfull => ?_⟩)
    fun e t ⟨ht, he⟩ => ⟨hs.passes ht, he.imp_right fun hstuck => hstuck.mono answers_allows⟩
  have hexplored : IsExplored E m (J.protocol.Answers t) heaps r.1 :=
    ⟨hstart.holds, by rwa [eq_true hfull] at hstage⟩
  exact hexplored.mono (CallAnswer.mono fun _ _ _ => (hs.passes ht).rests.settles)

theorem Rests.restart (hs : J.Rests s) : J.Rests s.restart :=
  ⟨hs.admits.counted ⟨rfl, rfl, rfl, rfl, rfl, fun h => h⟩, hs.stack⟩

theorem generate_ensures (steps : Nat) (hm : E.program.method? method = some m)
    (hheaps : heaps ≠ []) (hsuits : J.Suits m heaps) (hs : J.Rests s) :
    (E.generate steps method heaps).Ensures s
      (fun sp t => J.Passes s t ∧ IsExplored E m (E.CallAnswer J.Settles) heaps sp)
      fun e t => J.Passes s t ∧ (e.IsStop s ∨
        IsStuck E m (E.CallAnswer fun method pre posts => ∀ q ∈ posts, J.Allows method pre q)
          (E.CallRefusal J.Fails) heaps e) := by
  rw [generate, restart, Run.ensures_bind, Run.ensures_modify, Run.ensures_bind]
  refine (search_ensures steps hm hheaps hsuits hs.restart Search.isBelow_depthFirst).imp
    (fun r t ⟨ht, hsp⟩ => ⟨⟨⟨ht.limits, ht.required, ht.turns, ht.waits⟩, ht.rests⟩, hsp rfl⟩)
    fun e t ⟨ht, he⟩ => ⟨⟨⟨ht.limits, ht.required, ht.turns, ht.waits⟩, ht.rests⟩, he⟩

end Judgement

end Engine

end ShapeCheck
