import ShapeCheck.Archive.Cache
import ShapeCheck.Proofs.Deposits
import ShapeCheck.Proofs.Resolution

/-!
# Contracts kept in files

Every part of a store is decoded from its encoding: the general contracts, which are written as a list,
are joined again one after the other, and the refined ones are kept in order. So a store is loaded again
from the file that it was saved in, provided that the text of a Json value is read as this value. Nodes
have to be numbers of 32 bits and the hash one of 64 bits, as they are in every run.
-/

namespace ShapeCheck

open List

/-! ### Collections -/

theorem SortedMap.ofList_toList {κ α : Type} [Ord κ] [Std.LawfulEqOrd κ] [Std.TransOrd κ]
    [DecidableEq κ] (m : SortedMap κ α) : SortedMap.ofList m.toList = m := by
  refine SortedMap.ext fun k => Option.ext fun a => ⟨fun hk => ?_, fun hk => ?_⟩
  · exact mem_toList_iff.1 (mem_of_find?_ofList hk)
  · have hmem := mem_toList_iff.2 hk
    cases hfind : (SortedMap.ofList m.toList).find? k with
    | some b => rw [← hk, mem_toList_iff.1 (mem_of_find?_ofList hfind)]
    | none =>
      rw [find?_ofList, Option.map_eq_none_iff, find?_eq_none] at hfind
      exact absurd (hfind (k, a) (mem_reverse.2 hmem)) (by simp)

theorem SortedSet.ofList_toList {α : Type} [Ord α] [Std.LawfulEqOrd α] [Std.TransOrd α]
    (s : SortedSet α) : SortedSet.ofList s.toList = s :=
  SortedSet.ext fun _ => SortedSet.mem_ofList

namespace Json

variable {α : Type} {f : Json → Option α} {g : α → Json} {levels : Nat}

theorem listOf?_ofList {l : List α} (h : ∀ a ∈ l, f (g a) = some a) :
    (ofList g l).listOf? f = some l :=
  mapM_map_eq_some h

theorem mapOf?_ofMap {m : SortedMap String α} (h : ∀ a ∈ m.values, f (g a) = some a) :
    (ofMap g m).mapOf? f = some m := by
  rw [ofMap, mapOf?, mapM_map_eq_some fun e he => ?_]
  · exact congrArg some m.ofList_toList
  · simp [h e.2 (mem_map.2 ⟨e, he, rfl⟩)]

theorem isSound_ofList {l : List α} (h : ∀ a, (g a).isSound levels) :
    (ofList g l).isSound (levels + 1) := by
  have hitems : areSound levels (l.map g) := by
    induction l with
    | nil => rfl
    | cons a l ih => simp [areSound, h, ih]
  simp [ofList, isSound, hitems]

theorem isSound_ofMap {m : SortedMap String α} (h : ∀ a, (g a).isSound levels) :
    (ofMap g m).isSound (levels + 1) := by
  have hfields : fieldsAreSound levels (m.toList.map fun e => (e.1, g e.2)) := by
    induction m.toList with
    | nil => rfl
    | cons e l ih => simp [fieldsAreSound, h, ih]
  simp [ofMap, isSound, hfields]

/-! ### Equality of values -/

mutual

/-- Whether two values are the same. -/
def same : Json → Json → Bool
  | null, null | fault, fault => true
  | bool a, bool b => a = b
  | nat a, nat b => a = b
  | number a, number b | str a, str b => a = b
  | arr a, arr b => sameItems a b
  | obj a, obj b => sameFields a b
  | _, _ => false

/-- Whether the items of two arrays are the same. -/
def sameItems : List Json → List Json → Bool
  | [], [] => true
  | a :: as, b :: bs => same a b && sameItems as bs
  | _, _ => false

/-- Whether the fields of two objects are the same. -/
def sameFields : List (String × Json) → List (String × Json) → Bool
  | [], [] => true
  | (m, a) :: as, (n, b) :: bs => m = n && same a b && sameFields as bs
  | _, _ => false

end

mutual

theorem eq_of_same {a b : Json} (h : same a b) : a = b := by
  cases a <;> cases b <;> simp [same] at h
  case arr.arr as bs => rw [eq_of_sameItems h]
  case obj.obj as bs => rw [eq_of_sameFields h]
  all_goals simp [h]

theorem eq_of_sameItems {as bs : List Json} (h : sameItems as bs) : as = bs := by
  match as, bs with
  | [], [] => rfl
  | a :: as, b :: bs =>
    simp only [sameItems, Bool.and_eq_true] at h
    rw [eq_of_same h.1, eq_of_sameItems h.2]

theorem eq_of_sameFields {as bs : List (String × Json)} (h : sameFields as bs) : as = bs := by
  match as, bs with
  | [], [] => rfl
  | (m, a) :: as, (n, b) :: bs =>
    simp only [sameFields, Bool.and_eq_true, decide_eq_true_eq] at h
    rw [h.1.1, eq_of_same h.1.2, eq_of_sameFields h.2]

end

theorem read?_text_of_readValue {j : Json} {L : Layout}
    (h : (readValue (2 * (j.write L 0).length + 2) (j.write L 0)).any
      fun r => same j r.1 && r.2.isEmpty) :
    read? (j.text L) = some j := by
  obtain ⟨⟨j', rest⟩, hread, h⟩ := Option.any_eq_true .. |>.1 h
  obtain ⟨hsame, hrest⟩ := Bool.and_eq_true .. ▸ h
  obtain rfl := List.isEmpty_iff.1 hrest
  obtain rfl : j = j' := eq_of_same hsame
  rw [read?, text, String.toList_ofList, hread]
  rfl

end Json

open Json Text

/-! ### Encodings -/

theorem Node.ofJson?_nat {v : Node} (hv : v < bound32) : Node.ofJson? (nat v) = some v :=
  if_pos hv

namespace Heap

variable {h : Heap}

/-- The numbers of all nodes have 32 bits. -/
def FitsWord (h : Heap) : Prop :=
  (∀ c ∈ h.cells, ∀ v ∈ c.values, v < bound32) ∧ (∀ v ∈ h.vars.values, v < bound32) ∧
    ∀ e ∈ h.summaries, ∀ v ∈ e.ends, v < bound32

instance (h : Heap) : Decidable h.FitsWord :=
  inferInstanceAs (Decidable (_ ∧ _ ∧ _))

theorem ofJson?_toJson (hh : h.FitsWord) : Heap.ofJson? h.toJson = some h := by
  have hcell (c : Cell) (hc : c ∈ h.cells) : Cell.ofJson? c.toJson = some c := by
    have hsels := mapOf?_ofMap (m := c) fun v hv => Node.ofJson?_nat (hh.1 c hc v hv)
    simp [Cell.ofJson?, Cell.toJson, parts?, objectParts?, single?, hsels]
  have hsummary (e : Summary) (he : e ∈ h.summaries) : Summary.ofJson? e.toJson = some e := by
    have hends := listOf?_ofList (l := e.ends) fun v hv => Node.ofJson?_nat (hh.2.2 e he v hv)
    simp [Summary.ofJson?, Summary.toJson, parts?, objectParts?, single?, str?, hends]
  have hvars := mapOf?_ofMap (m := h.vars) fun v hv => Node.ofJson?_nat (hh.2.1 v hv)
  simp [Heap.ofJson?, toJson, parts?, objectParts?, single?, hvars, listOf?_ofList hcell,
    listOf?_ofList hsummary]

theorem isSound_toJson (h : Heap) (levels : Nat) : h.toJson.isSound (levels + 4) := by
  have hnode (levels : Nat) (v : Node) : (nat v).isSound levels := rfl
  have hcell (c : Cell) : c.toJson.isSound (levels + 2) := by
    simp [Cell.toJson, isSound, fieldsAreSound, isSound_ofMap (hnode levels)]
  have hsummary (e : Summary) : e.toJson.isSound (levels + 2) := by
    simp [Summary.toJson, isSound, fieldsAreSound, isSound_ofList (hnode levels)]
  simp [toJson, isSound, fieldsAreSound, isSound_ofList hcell, isSound_ofList hsummary,
    isSound_ofMap (hnode (levels + 2))]

end Heap

theorem HeapSet.ofJson?_toJson {posts : HeapSet} (h : ∀ q ∈ posts.toList, q.FitsWord) :
    HeapSet.ofJson? (HeapSet.toJson posts) = some posts := by
  rw [HeapSet.ofJson?, HeapSet.toJson, listOf?_ofList fun q hq => Heap.ofJson?_toJson (h q hq)]
  exact congrArg some posts.ofList_toList

namespace RefinedContract

variable {c : RefinedContract}

/-- The numbers of all nodes in a refined contract have 32 bits. -/
def FitsWord (c : RefinedContract) : Prop :=
  (∀ q ∈ c.required.toList, q.FitsWord) ∧ c.pre.FitsWord ∧ ∀ q ∈ c.posts.toList, q.FitsWord

instance (c : RefinedContract) : Decidable c.FitsWord :=
  inferInstanceAs (Decidable (_ ∧ _ ∧ _))

theorem ofJson?_toJson (hc : c.FitsWord) : RefinedContract.ofJson? c.toJson = some c := by
  have hposts : (HeapSet.toJson c.posts).isSound (117 + 5) :=
    isSound_ofList fun q => q.isSound_toJson 117
  have hsound : c.toJson.asideIsSound := by
    simp [toJson, asideIsSound, fieldsAreSound, asideLevels, c.pre.isSound_toJson 118, hposts]
  rw [RefinedContract.ofJson?, hsound]
  simp [toJson, objectParts?, single?, HeapSet.ofJson?_toJson hc.1, Heap.ofJson?_toJson hc.2.1,
    HeapSet.ofJson?_toJson hc.2.2]

end RefinedContract

namespace ContractTable

variable {t : ContractTable}

/-- The numbers of all nodes in a table have 32 bits. -/
def FitsWord (t : ContractTable) : Prop :=
  (∀ e ∈ t.general.toList, e.1.FitsWord ∧ ∀ q ∈ e.2.toList, q.FitsWord) ∧
    ∀ c ∈ t.refined, c.FitsWord

instance (t : ContractTable) : Decidable t.FitsWord :=
  inferInstanceAs (Decidable (_ ∧ _))

theorem ofJson?_toJson (ht : t.FitsWord) : ContractTable.ofJson? t.toJson = some t := by
  have hcontract (e : Heap × HeapSet) (he : e ∈ t.general.toList) :
      contractOfJson? (contractToJson e) = some e := by
    obtain ⟨hpre, hposts⟩ := ht.1 e he
    simp [contractOfJson?, contractToJson, parts?, objectParts?, single?, Heap.ofJson?_toJson hpre,
      HeapSet.ofJson?_toJson hposts]
  -- The general contracts are joined one after the other, to an empty table.
  have hgeneral : (t.general.toList.foldl (fun t e => t.add e.1 e.2) ({} : ContractTable)).general =
      t.general :=
    ((joins_empty.foldl_add _).congr fun P part => false_or _ ▸ Iff.rfl).general_eq t.joins_toList
  have hrefined := listOf?_ofList fun c hc => RefinedContract.ofJson?_toJson (ht.2 c hc)
  simp [ContractTable.ofJson?, toJson, parts?, objectParts?, single?, listOf?_ofList hcontract,
    hrefined, hgeneral]

end ContractTable

/-! ### Files -/

namespace Files

variable {fs fs' : Files} {p q : Place} {text : String}

theorem checkParents_eq_ok_iff :
    fs.checkParents p = .ok () ↔ ∀ q ∈ p.above, fs.item? q = some .directory := by
  rw [checkParents]
  induction p.above with
  | nil => simp [List.forM, pure, Except.pure]
  | cons q qs ih =>
    rw [List.forM, forall_mem_cons, ← ih]
    cases hq : fs.item? q with
    | none => simp [bind, Except.bind]
    | some item => cases item <;> simp [bind, Except.bind]

theorem item?_insert {item : FileItem} (hp : ¬p.isFixed) :
    Files.item? ⟨fs.items.insert p item⟩ q = if q = p then some item else fs.item? q := by
  rw [item?, item?, SortedMap.find?_insert]
  by_cases hq : q = p
  · simp [hq, hp]
  · simp [hq]

theorem read_of_write (h : fs.write p text = .ok fs') : fs'.read p = .ok text := by
  obtain ⟨⟨⟩, hparents, h⟩ := Code.exists_of_bind_eq_ok h
  have hfixed : ¬p.isFixed := by
    intro hfixed
    rw [item?, if_pos hfixed] at h
    cases h
  obtain rfl : ⟨fs.items.insert p (.file text)⟩ = fs' := by
    split at h
    · cases h
    · exact Except.ok.inj h
  have hparents' : checkParents ⟨fs.items.insert p (.file text)⟩ p = .ok () := by
    rw [checkParents_eq_ok_iff] at hparents ⊢
    intro q hq
    rw [item?_insert hfixed, if_neg, hparents q hq]
    -- A directory above a place has fewer names.
    rintro rfl
    obtain ⟨i, hi, htake⟩ := mem_map.1 hq
    have hlength := congrArg List.length htake
    rw [length_take] at hlength
    have hlt := mem_range.1 hi
    omega
  rw [read, hparents', item?_insert hfixed, if_pos rfl]
  rfl

end Files

namespace ContractStore

/-- The numbers of all nodes in a store have 32 bits. -/
def FitsWord (s : ContractStore) : Prop :=
  ∀ t ∈ s.tables.values, t.FitsWord

instance (s : ContractStore) : Decidable s.FitsWord :=
  inferInstanceAs (Decidable (∀ t ∈ s.tables.values, t.FitsWord))

/-- The value that is written to the cache file of a store. -/
def fileValue (s : ContractStore) (hash : Nat) : Json :=
  obj [("hash", nat hash), ("methods", s.toJson)]

/-- Contracts that were saved are loaded again. -/
theorem load?_of_save {s : ContractStore} {fs fs' : Files} {program : Place} {hash : Nat}
    (hs : s.FitsWord) (hhash : hash < bound64)
    (hread : Json.read? ((s.fileValue hash).text .pretty) = some (s.fileValue hash))
    (h : Cache.save fs program hash s = .ok fs') : Cache.load? fs' program hash = some s := by
  obtain ⟨fs₁, -, hwrite⟩ := Code.exists_of_bind_eq_ok h
  have htables := mapOf?_ofMap fun t ht => ContractTable.ofJson?_toJson (hs t ht)
  have hdecode : Cache.decode? (Cache.encode hash s) = some (hash, s) := by
    rw [Cache.decode?, show Json.read? (Cache.encode hash s) = _ from hread]
    simp [fileValue, parts?, objectParts?, single?, below?, hhash, ContractStore.ofJson?, toJson,
      htables]
  simp [Cache.load?, Files.read_of_write hwrite, Except.toOption, hdecode]

/-- A store keeps the union of the postconditions of each precondition and the refined contracts in
their order, and forgets all else; it answers by the very precondition or by the least one that
subsumes a heap; and it is loaded as it was saved. -/
theorem deposits_kept :
    (∀ (ds : List Deposit) (method : String),
      ((ofDeposits ds).table? method = none ↔ ∀ d ∈ ds, d.method ≠ method) ∧
      ∀ t, (ofDeposits ds).table? method = some t →
        (∀ pre posts, (pre, posts) ∈ t.general.toList ↔ IsUnion ds method pre posts) ∧
        t.refined = (ds.filterMap (Deposit.refined? method)).eraseDups) ∧
    (∀ ds ds' : List Deposit,
      (∀ method pre posts,
        Deposit.general method pre posts ∈ ds ↔ Deposit.general method pre posts ∈ ds') →
      (∀ method, (ds.filterMap (Deposit.refined? method)).eraseDups =
        (ds'.filterMap (Deposit.refined? method)).eraseDups) →
      ofDeposits ds = ofDeposits ds') ∧
    (∀ (ds : List Deposit) (A : Abstraction) (method : String) (h : Heap),
      (∀ P posts, (ofDeposits ds).match? A method h = some (P, posts) ↔
        IsUnion ds method P posts ∧
          (P = h ∨ (∀ part, Deposit.general method h part ∉ ds) ∧ A.subsumes P h ∧
            ∀ P' part, Deposit.general method P' part ∈ ds → A.subsumes P' h →
              (compare P P').isLE)) ∧
      ((ofDeposits ds).match? A method h = none ↔
        ∀ P part, Deposit.general method P part ∈ ds → ¬ A.subsumes P h)) ∧
    ∀ (ds : List Deposit) (fs fs' : Files) (program : Place) (hash : Nat),
      (ofDeposits ds).FitsWord → hash < bound64 →
      Json.read? (((ofDeposits ds).fileValue hash).text .pretty) =
        some ((ofDeposits ds).fileValue hash) →
      Cache.save fs program hash (ofDeposits ds) = .ok fs' →
      Cache.load? fs' program hash = some (ofDeposits ds) := by
  refine ⟨fun ds method => ⟨?_, fun t ht => ?_⟩, fun ds ds' => ofDeposits_congr,
    fun ds A method h => ⟨fun P posts => match?_ofDeposits_eq_some_iff,
      match?_ofDeposits_eq_none_iff⟩,
    fun ds fs fs' program hash => load?_of_save⟩
  · rw [← Option.not_isSome_iff_eq_none, isSome_table?_ofDeposits]
    simp only [not_exists, not_and]
  · have hjoins := joins_ofDeposits ds method
    have hrefined := refined_ofDeposits ds method
    rw [ht, Option.getD_some] at hjoins hrefined
    exact ⟨fun pre posts => SortedMap.mem_toList_iff.trans hjoins.find?_eq_some_iff, hrefined⟩

/-- A list of two cells at `x`. -/
def twoCells : Heap :=
  ⟨[∅, .ofList [("next", 2)], .ofList [("next", 0)]], .ofList [("x", 1)], []⟩

/-- Contracts for the shape of a list, in two parts and with a refined one between them. -/
def twoCellDeposits : List Deposit :=
  [.general "f" (Abstraction.canonical {} twoCells) (.ofList [twoCells]),
    .refined "f" ⟨.ofList [twoCells], twoCells, .ofList [twoCells]⟩,
    .general "g" twoCells ∅,
    .general "f" (Abstraction.canonical {} twoCells) (.ofList [.empty])]

theorem deposits_kept_two_cells :
    ofDeposits (twoCellDeposits.reverse ++ twoCellDeposits) = ofDeposits twoCellDeposits ∧
    (ofDeposits twoCellDeposits).match? {} "f" twoCells =
      some (Abstraction.canonical {} twoCells, .ofList [twoCells, .empty]) ∧
    (ofDeposits twoCellDeposits).match? {} "g" .empty = none ∧
    ∃ fs', Cache.save {} ["list.grasp"] 7 (ofDeposits twoCellDeposits) = .ok fs' ∧
      Cache.load? fs' ["list.grasp"] 7 = some (ofDeposits twoCellDeposits) := by
  have hread : Json.read? (((ofDeposits twoCellDeposits).fileValue 7).text .pretty) =
      some ((ofDeposits twoCellDeposits).fileValue 7) :=
    read?_text_of_readValue (by decide +kernel)
  have hsaved : (Cache.save {} ["list.grasp"] 7 (ofDeposits twoCellDeposits)).isOk := by
    decide +kernel
  obtain ⟨fs', hsave⟩ : ∃ fs', Cache.save {} ["list.grasp"] 7 (ofDeposits twoCellDeposits) =
      .ok fs' := by
    cases h : Cache.save {} ["list.grasp"] 7 (ofDeposits twoCellDeposits) with
    | error e => simp [h, Except.isOk, Except.toBool] at hsaved
    | ok fs' => exact ⟨fs', rfl⟩
  refine ⟨deposits_kept.2.1 _ _ (by simp) fun method => ?_, by decide +kernel, by decide +kernel,
    fs', hsave, deposits_kept.2.2.2 _ _ _ _ _ (by decide +kernel) (by decide) hread hsave⟩
  by_cases hmethod : "f" = method <;>
    simp [twoCellDeposits, Deposit.refined?, hmethod, filterMap_cons, eraseDups_cons]

end ContractStore

end ShapeCheck
