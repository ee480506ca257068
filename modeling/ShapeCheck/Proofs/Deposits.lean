import ShapeCheck.Proofs.Contracts

/-!
# Stores built contract by contract

Whatever contracts are put into a store, one after the other, the store keeps for each method and
precondition the union of all postconditions that were put in for them, and for each method its
refined contracts in the order in which they first came. Nothing else of the history is left: general
contracts may come in any order and any number of times, and refined ones may come between them.

A heap is matched by the contract with this very precondition, or else by the least precondition
that subsumes it.
-/

namespace ShapeCheck

open Std List

namespace SortedMap

variable {κ α : Type} [Ord κ] [LawfulEqOrd κ]

theorem isLE_of_find?_toList {m : SortedMap κ α} {p : κ → Bool} {k k' : κ} {a : α}
    (hfirst : m.toList.find? (fun e => p e.1) = some (k, a)) (hk' : (m.find? k').isSome)
    (hp : p k') : (compare k k').isLE := by
  obtain ⟨-, before, behind, hlist, hbefore⟩ := find?_eq_some_iff_append.1 hfirst
  obtain ⟨a', ha'⟩ := Option.isSome_iff_exists.1 hk'
  have hsorted := (pairwise_append.1 (hlist ▸ m.sorted)).2.1
  have hmem := mem_toList_iff.2 ha'
  rw [hlist, mem_append, mem_cons] at hmem
  rcases hmem with hmem | heq | hmem
  · simpa [hp] using hbefore _ hmem
  · rw [(Prod.mk.inj heq).1]
    exact Ordering.isLE_of_eq_eq ReflCmp.compare_self
  · exact Ordering.isLE_of_eq_lt ((pairwise_cons.1 hsorted).1 _ hmem)

theorem find?_toList_eq_some_iff [TransOrd κ] {m : SortedMap κ α} {p : κ → Bool} {k : κ} {a : α} :
    m.toList.find? (fun e => p e.1) = some (k, a) ↔
      m.find? k = some a ∧ p k ∧ ∀ k', (m.find? k').isSome → p k' → (compare k k').isLE := by
  constructor
  · intro hfirst
    have hp : p k := find?_some (p := fun e : κ × α => p e.1) hfirst
    exact ⟨mem_toList_iff.1 (mem_of_find?_eq_some hfirst), hp,
      fun k' hk' hp' => isLE_of_find?_toList hfirst hk' hp'⟩
  · rintro ⟨hk, hp, hleast⟩
    cases hfirst : m.toList.find? (fun e => p e.1) with
    | none => exact absurd hp (find?_eq_none.1 hfirst _ (mem_toList_iff.2 hk))
    | some e =>
      have he : m.find? e.1 = some e.2 := mem_toList_iff.1 (mem_of_find?_eq_some hfirst)
      have hge := hleast e.1 (by rw [he]; rfl) (find?_some (p := fun e : κ × α => p e.1) hfirst)
      have hle := isLE_of_find?_toList hfirst (by rw [hk]; rfl) hp
      have heq := LawfulEqCmp.eq_of_compare (OrientedCmp.isLE_antisymm hge hle)
      rw [← heq, hk, Option.some.injEq] at he
      rw [he, heq]

end SortedMap

/-- A contract that is put into a store. -/
inductive Deposit where
  | general (method : String) (pre : Heap) (posts : HeapSet)
  | refined (method : String) (contract : RefinedContract)
  deriving DecidableEq

namespace Deposit

/-- The method that a contract is about. -/
def method : Deposit → String
  | general method _ _ => method
  | refined method _ => method

/-- The refined contract, if it is one of the method. -/
def refined? (method : String) : Deposit → Option RefinedContract
  | general _ _ _ => none
  | refined method' c => if method' = method then some c else none

end Deposit

namespace ContractTable

variable {t t' : ContractTable} {pre : Heap} {posts : HeapSet}
  {offers offers' : Heap → HeapSet → Prop}

/-- The general contracts of the table are the unions of what was offered for each precondition. -/
structure Joins (t : ContractTable) (offers : Heap → HeapSet → Prop) : Prop where
  isSome_iff : ∀ pre, (t.general.find? pre).isSome ↔ ∃ part, offers pre part
  mem_iff : ∀ pre q, q ∈ (t.general.find? pre).getD ∅ ↔ ∃ part, offers pre part ∧ q ∈ part

theorem joins_empty : ({} : ContractTable).Joins fun _ _ => False :=
  ⟨by simp, by simp⟩

theorem Joins.add (h : t.Joins offers) (pre : Heap) (posts : HeapSet) :
    (t.add pre posts).Joins fun P part => offers P part ∨ P = pre ∧ part = posts where
  isSome_iff P := by
    rw [ContractTable.add, SortedMap.find?_insert]
    split
    · next hP => exact ⟨fun _ => ⟨posts, .inr ⟨hP, rfl⟩⟩, fun _ => rfl⟩
    · next hP => simpa [hP] using h.isSome_iff P
  mem_iff P q := by
    rw [ContractTable.add, SortedMap.find?_insert]
    split
    · next hP =>
      subst hP
      rw [Option.getD_some, SortedSet.mem_union, h.mem_iff]
      simp only [true_and, or_and_right, exists_or, exists_eq_left]
    · next hP => simpa [hP] using h.mem_iff P q

theorem Joins.addRefined (h : t.Joins offers) (c : RefinedContract) :
    (t.addRefined c).Joins offers := by
  rw [ContractTable.addRefined]
  split
  · exact h
  · exact ⟨h.isSome_iff, h.mem_iff⟩

theorem Joins.congr (h : t.Joins offers) (hoffers : ∀ P part, offers P part ↔ offers' P part) :
    t.Joins offers' := by
  obtain rfl : offers = offers' := funext fun P => funext fun part => propext (hoffers P part)
  exact h

theorem Joins.find?_eq_some_iff (h : t.Joins offers) : t.general.find? pre = some posts ↔
    (∃ part, offers pre part) ∧ ∀ q, q ∈ posts ↔ ∃ part, offers pre part ∧ q ∈ part := by
  rw [← h.isSome_iff]
  simp only [← h.mem_iff]
  cases t.general.find? pre with
  | none => simp
  | some found =>
    simp only [Option.some.injEq, Option.isSome_some, Option.getD_some, true_and]
    exact ⟨fun heq q => heq ▸ Iff.rfl, fun hmem => SortedSet.ext fun q => (hmem q).symm⟩

theorem Joins.general_eq (h : t.Joins offers) (h' : t'.Joins offers) : t.general = t'.general := by
  refine SortedMap.ext fun pre => Option.ext fun posts => ?_
  rw [h.find?_eq_some_iff, h'.find?_eq_some_iff]

theorem joins_toList (t : ContractTable) : t.Joins fun P part => (P, part) ∈ t.general.toList where
  isSome_iff P := by
    rw [Option.isSome_iff_exists]
    exact exists_congr fun part => SortedMap.mem_toList_iff.symm
  mem_iff P q := by
    simp only [SortedMap.mem_toList_iff]
    cases t.general.find? P <;> simp

theorem Joins.foldl_add (h : t.Joins offers) (l : List (Heap × HeapSet)) :
    (l.foldl (fun t e => t.add e.1 e.2) t).Joins fun P part => offers P part ∨ (P, part) ∈ l := by
  induction l generalizing t offers with
  | nil => simpa using h
  | cons e l ih =>
    refine (ih (h.add e.1 e.2)).congr fun P part => ?_
    rw [mem_cons, or_assoc, Prod.ext_iff]

/-! ### Matching -/

/-- A heap is matched by its own contract, or else by the contract of the least precondition that
subsumes it. -/
theorem match?_eq_some_iff {A : Abstraction} {h P : Heap} : t.match? A h = some (P, posts) ↔
    t.general.find? P = some posts ∧ (P = h ∨ t.general.find? h = none ∧ A.subsumes P h ∧
      ∀ P', (t.general.find? P').isSome → A.subsumes P' h → (compare P P').isLE) := by
  rw [ContractTable.match?]
  split
  · next found hfound =>
    rw [Option.some.injEq, Prod.mk.injEq]
    constructor
    · rintro ⟨rfl, rfl⟩
      exact ⟨hfound, .inl rfl⟩
    · rintro ⟨hfind, rfl | ⟨hnone, -⟩⟩
      · exact ⟨rfl, Option.some.inj (hfound.symm.trans hfind)⟩
      · rw [hfound] at hnone
        contradiction
  · next hnone =>
    have hne : t.general.find? P = some posts → P ≠ h := by
      rintro hfind rfl
      rw [hnone] at hfind
      contradiction
    show t.general.toList.find? (fun e => A.subsumes e.1 h) = _ ↔ _
    rw [SortedMap.find?_toList_eq_some_iff (p := (A.subsumes · h))]
    refine and_congr_right fun hfind => ?_
    simp [hne hfind, hnone]

theorem match?_eq_none_iff {A : Abstraction} {h : Heap} : t.match? A h = none ↔
    ∀ P, (t.general.find? P).isSome → ¬ A.subsumes P h := by
  rw [ContractTable.match?]
  split
  · next found hfound =>
    refine ⟨fun heq => by contradiction, fun hall => absurd ?_ (hall h (by simp [hfound]))⟩
    simp [Abstraction.subsumes, Abstraction.views]
  · show t.general.toList.find? (fun e => A.subsumes e.1 h) = none ↔ _
    rw [find?_eq_none]
    simp only [Prod.forall, SortedMap.mem_toList_iff, Option.isSome_iff_exists, forall_exists_index]

/-- Put a contract into the table of its method. -/
def deposit (t : ContractTable) : Deposit → ContractTable
  | .general _ pre posts => t.add pre posts
  | .refined _ c => t.addRefined c

theorem Joins.deposit (h : t.Joins offers) (d : Deposit) :
    (t.deposit d).Joins fun P part => offers P part ∨ d = .general d.method P part := by
  cases d with
  | general method pre posts =>
    refine (h.add pre posts).congr fun P part => or_congr_right ?_
    simp [Deposit.method, eq_comm]
  | refined method c =>
    refine (h.addRefined c).congr fun P part => ?_
    simp

theorem refined_deposit (t : ContractTable) (d : Deposit) : (t.deposit d).refined =
    t.refined ++ (d.refined? d.method).toList.filter (· ∉ t.refined) := by
  cases d with
  | general method pre posts => simp [deposit, ContractTable.add, Deposit.refined?]
  | refined method c =>
    rw [deposit, ContractTable.addRefined]
    split <;> simp_all [Deposit.refined?, Deposit.method]

end ContractTable

/-! ### Stores -/

namespace ContractStore

variable {s : ContractStore} {ds ds' : List Deposit} {d : Deposit} {method : String}

/-- Put a contract into a store. -/
def deposit (s : ContractStore) : Deposit → ContractStore
  | .general method pre posts => s.add method pre posts
  | .refined method c => s.addRefined method c

/-- The store that is left after contracts were put into an empty one. -/
def ofDeposits (ds : List Deposit) : ContractStore :=
  ds.foldl deposit {}

theorem ofDeposits_append_singleton : ofDeposits (ds ++ [d]) = (ofDeposits ds).deposit d := by
  rw [ofDeposits, foldl_append]
  rfl

theorem table?_deposit : (s.deposit d).table? method =
    if d.method = method then some (((s.table? method).getD {}).deposit d) else s.table? method := by
  have hmodify : s.deposit d = s.modify d.method (·.deposit d) := by cases d <;> rfl
  rw [hmodify, table?_modify]
  by_cases hmethod : d.method = method
  · simp [hmethod]
  · simp [hmethod, Ne.symm hmethod]

theorem isSome_table?_ofDeposits :
    ((ofDeposits ds).table? method).isSome ↔ ∃ d ∈ ds, d.method = method := by
  induction ds using List.reverseRecOn with
  | nil => simp [ofDeposits, table?]
  | append_singleton ds d ih =>
    rw [ofDeposits_append_singleton, table?_deposit]
    split
    · next hmethod => exact ⟨fun _ => ⟨d, by simp, hmethod⟩, fun _ => rfl⟩
    · next hmethod => simpa [hmethod] using ih

theorem joins_ofDeposits (ds : List Deposit) (method : String) :
    (((ofDeposits ds).table? method).getD {}).Joins fun P part => .general method P part ∈ ds := by
  induction ds using List.reverseRecOn with
  | nil => simpa [ofDeposits, table?] using ContractTable.joins_empty
  | append_singleton ds d ih =>
    rw [ofDeposits_append_singleton, table?_deposit]
    split
    · next hmethod =>
      subst hmethod
      rw [Option.getD_some]
      refine (ih.deposit d).congr fun P part => ?_
      rw [mem_append, mem_singleton, eq_comm]
    · next hmethod =>
      refine ih.congr fun P part => ?_
      have hd : Deposit.general method P part ≠ d := by
        rintro rfl
        exact hmethod rfl
      simp [hd]

theorem refined_ofDeposits (ds : List Deposit) (method : String) :
    (((ofDeposits ds).table? method).getD {}).refined =
      (ds.filterMap (Deposit.refined? method)).eraseDups := by
  induction ds using List.reverseRecOn with
  | nil => rfl
  | append_singleton ds d ih =>
    rw [ofDeposits_append_singleton, table?_deposit, filterMap_append, eraseDups_append]
    split
    · next hmethod =>
      subst hmethod
      rw [Option.getD_some, ContractTable.refined_deposit, ih]
      cases hrefined : d.refined? d.method with
      | none => simp [hrefined]
      | some c =>
        simp only [Option.toList_some, filterMap_cons, hrefined, filterMap_nil,
          mem_eraseDups, List.removeAll]
        generalize ds.filterMap (Deposit.refined? d.method) = earlier
        by_cases hc : c ∈ earlier <;> simp [hc, eraseDups_cons]
    · next hmethod =>
      have hd : d.refined? method = none := by
        cases d with
        | general method' pre posts => rfl
        | refined method' c => exact if_neg hmethod
      simp [ih, hd, List.removeAll]

theorem mem_filterMap_refined? {c : RefinedContract} :
    c ∈ ds.filterMap (Deposit.refined? method) ↔ Deposit.refined method c ∈ ds := by
  rw [mem_filterMap]
  constructor
  · rintro ⟨d, hd, hc⟩
    cases d with
    | general method' pre posts => contradiction
    | refined method' c' =>
      rw [Deposit.refined?] at hc
      split at hc
      · next hmethod => rwa [← Option.some.inj hc, ← hmethod]
      · contradiction
  · intro hmem
    exact ⟨_, hmem, if_pos rfl⟩

/-- Stores are equal that were given the same general contracts, in whatever order and number, and
for each method the same refined ones in the same order of first occurrence. -/
theorem ofDeposits_congr
    (hgeneral : ∀ method pre posts,
      Deposit.general method pre posts ∈ ds ↔ Deposit.general method pre posts ∈ ds')
    (hrefined : ∀ method, (ds.filterMap (Deposit.refined? method)).eraseDups =
      (ds'.filterMap (Deposit.refined? method)).eraseDups) :
    ofDeposits ds = ofDeposits ds' := by
  have hmem (d : Deposit) : d ∈ ds ↔ d ∈ ds' := by
    cases d with
    | general method pre posts => exact hgeneral method pre posts
    | refined method c =>
      rw [← mem_filterMap_refined?, ← mem_filterMap_refined?, ← mem_eraseDups, hrefined,
        mem_eraseDups]
  have htable (method : String) : (ofDeposits ds).table? method = (ofDeposits ds').table? method := by
    have hjoins := (joins_ofDeposits ds' method).congr fun P part => (hgeneral method P part).symm
    have hgetD : ((ofDeposits ds).table? method).getD {} = ((ofDeposits ds').table? method).getD {} :=
      congrArg₂ ContractTable.mk ((joins_ofDeposits ds method).general_eq hjoins)
        ((refined_ofDeposits ds method).trans
          ((hrefined method).trans (refined_ofDeposits ds' method).symm))
    have hsome : ((ofDeposits ds).table? method).isSome ↔ ((ofDeposits ds').table? method).isSome := by
      simp only [isSome_table?_ofDeposits, hmem]
    revert hgetD hsome
    cases (ofDeposits ds).table? method <;> cases (ofDeposits ds').table? method <;> simp
  exact congrArg ContractStore.mk (SortedMap.ext htable)

/-! ### What a store answers -/

/-- The postconditions are all that were put in for a method and a precondition, if there is one. -/
def IsUnion (ds : List Deposit) (method : String) (pre : Heap) (posts : HeapSet) : Prop :=
  (∃ part, Deposit.general method pre part ∈ ds) ∧
    ∀ q, q ∈ posts ↔ ∃ part, Deposit.general method pre part ∈ ds ∧ q ∈ part

theorem match?_eq (s : ContractStore) (A : Abstraction) (method : String) (h : Heap) :
    s.match? A method h = ((s.table? method).getD {}).match? A h := by
  rw [match?]
  cases s.table? method <;> rfl

/-- The answer is the union for this very heap, or else for the least precondition that subsumes
it. -/
theorem match?_ofDeposits_eq_some_iff {A : Abstraction} {h P : Heap} {posts : HeapSet} :
    (ofDeposits ds).match? A method h = some (P, posts) ↔ IsUnion ds method P posts ∧
      (P = h ∨ (∀ part, Deposit.general method h part ∉ ds) ∧ A.subsumes P h ∧
        ∀ P' part, Deposit.general method P' part ∈ ds → A.subsumes P' h → (compare P P').isLE) := by
  have hjoins := joins_ofDeposits ds method
  rw [match?_eq, ContractTable.match?_eq_some_iff, hjoins.find?_eq_some_iff,
    ← Option.not_isSome_iff_eq_none]
  simp only [hjoins.isSome_iff, not_exists, forall_exists_index]
  rfl

theorem match?_ofDeposits_eq_none_iff {A : Abstraction} {h : Heap} :
    (ofDeposits ds).match? A method h = none ↔
      ∀ P part, Deposit.general method P part ∈ ds → ¬ A.subsumes P h := by
  rw [match?_eq, ContractTable.match?_eq_none_iff]
  simp only [(joins_ofDeposits ds method).isSome_iff, forall_exists_index]

end ContractStore

end ShapeCheck
