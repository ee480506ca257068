import ShapeCheck.Collection.Lex

/-!
# Sorted maps

A finite map kept as the list of its entries in strictly increasing order of their keys. Maps with
the same value at every key are equal, so equality of heaps is decided by comparing lists, and the
order of heaps is the lexicographic one on entries.
-/

namespace ShapeCheck

open Std List Option

variable {κ α β : Type} [Ord κ]

/-- Set the value of `k` in a list of entries with increasing keys. -/
def putSorted (k : κ) (a : α) : List (κ × α) → List (κ × α)
  | [] => [(k, a)]
  | e :: l =>
    match compare k e.1 with
    | .lt => (k, a) :: e :: l
    | .eq => (k, a) :: l
    | .gt => e :: putSorted k a l

/-- A finite map, held as its entries in strictly increasing order of keys. -/
structure SortedMap (κ α : Type) [Ord κ] where
  /-- The entries in increasing order of keys. -/
  toList : List (κ × α)
  /-- No key occurs twice, and the keys increase. -/
  sorted : toList.Pairwise (fun a b => compare a.1 b.1 = .lt)

theorem mem_of_mem_putSorted {k : κ} {a : α} {e : κ × α} {l : List (κ × α)}
    (h : e ∈ putSorted k a l) : e = (k, a) ∨ e ∈ l := by
  induction l with
  | nil => exact .inl (mem_singleton.1 h)
  | cons c l ih =>
    rw [putSorted] at h
    split at h
    · exact mem_cons.1 h
    · exact (mem_cons.1 h).imp_right (mem_cons_of_mem _)
    · rcases mem_cons.1 h with rfl | h
      · exact .inr mem_cons_self
      · exact (ih h).imp_right (mem_cons_of_mem _)

theorem pairwise_putSorted [TransOrd κ] [LawfulEqOrd κ] {k : κ} {a : α} {l : List (κ × α)}
    (h : l.Pairwise (fun a b => compare a.1 b.1 = .lt)) :
    (putSorted k a l).Pairwise (fun a b => compare a.1 b.1 = .lt) := by
  induction l with
  | nil => simp [putSorted]
  | cons c l ih =>
    rw [pairwise_cons] at h
    rw [putSorted]
    split
    · next hkc =>
      refine pairwise_cons.2 ⟨fun b hb => ?_, pairwise_cons.2 h⟩
      rcases mem_cons.1 hb with rfl | hb
      · exact hkc
      · exact TransCmp.lt_trans hkc (h.1 b hb)
    · next hkc =>
      have hkc : k = c.1 := LawfulEqCmp.eq_of_compare hkc
      exact pairwise_cons.2 ⟨hkc ▸ h.1, h.2⟩
    · next hkc =>
      refine pairwise_cons.2 ⟨fun b hb => ?_, ih h.2⟩
      rcases mem_of_mem_putSorted hb with rfl | hb
      · exact OrientedCmp.lt_of_gt hkc
      · exact h.1 b hb

namespace SortedMap

instance [DecidableEq κ] [DecidableEq α] : DecidableEq (SortedMap κ α) := fun s t =>
  if h : s.toList = t.toList then isTrue (by cases s; cases t; simp_all)
  else isFalse (fun e => h (e ▸ rfl))

/-- The map with no entries. -/
def empty : SortedMap κ α :=
  ⟨[], .nil⟩

instance : EmptyCollection (SortedMap κ α) := ⟨empty⟩

instance : Inhabited (SortedMap κ α) := ⟨empty⟩

@[simp] theorem toList_empty : (∅ : SortedMap κ α).toList = [] := rfl

/-- The keys in increasing order. -/
def keys (m : SortedMap κ α) : List κ :=
  m.toList.map Prod.fst

/-- The values in order of their keys. -/
def values (m : SortedMap κ α) : List α :=
  m.toList.map Prod.snd

/-- The number of entries. -/
def size (m : SortedMap κ α) : Nat :=
  m.toList.length

/-- The value at a key. -/
def find? (m : SortedMap κ α) (k : κ) : Option α :=
  (m.toList.find? fun e => compare k e.1 == .eq).map Prod.snd

/-- Whether a key has a value. -/
def contains (m : SortedMap κ α) (k : κ) : Bool :=
  (m.find? k).isSome

/-- The entries whose key and value satisfy `p`. -/
def filter (p : κ → α → Bool) (m : SortedMap κ α) : SortedMap κ α :=
  ⟨m.toList.filter fun e => p e.1 e.2, m.sorted.filter _⟩

/-- The map without the key `k`. -/
def erase (m : SortedMap κ α) (k : κ) : SortedMap κ α :=
  m.filter fun k' _ => compare k k' != .eq

theorem pairwise_filterMap {f : α → Option β} : {l : List (κ × α)} →
    l.Pairwise (fun a b => compare a.1 b.1 = .lt) →
    (l.filterMap fun e => (f e.2).map (e.1, ·)).Pairwise (fun a b => compare a.1 b.1 = .lt)
  | _, h => List.Pairwise.filterMap _ (fun a a' haa' b hb b' hb' => by
      obtain ⟨c, -, rfl⟩ := map_eq_some_iff.1 hb
      obtain ⟨c', -, rfl⟩ := map_eq_some_iff.1 hb'
      exact haa') h

/-- Replace each value by its image, and drop the entries whose value has none. -/
def filterMap (f : α → Option β) (m : SortedMap κ α) : SortedMap κ β :=
  ⟨m.toList.filterMap fun e => (f e.2).map (e.1, ·), pairwise_filterMap m.sorted⟩

@[simp] theorem find?_empty {k : κ} : (∅ : SortedMap κ α).find? k = none := rfl

section Lawful

variable [LawfulEqOrd κ]

theorem mem_toList_iff {m : SortedMap κ α} {k : κ} {a : α} :
    (k, a) ∈ m.toList ↔ m.find? k = some a := by
  obtain ⟨l, h⟩ := m
  induction l with
  | nil => simp [find?]
  | cons e l ih =>
    rw [pairwise_cons] at h
    have ih := ih h.2
    simp only [find?] at ih ⊢
    rw [find?_cons]
    by_cases hk : compare k e.1 = .eq
    · obtain rfl : k = e.1 := LawfulEqCmp.eq_of_compare hk
      have hnot : (e.1, a) ∉ l := fun hm => by
        have := h.1 _ hm
        simp [ReflCmp.compare_self] at this
      simp only [hk, mem_cons, hnot, or_false, beq_self_eq_true, map_some,
        Option.some.injEq]
      exact ⟨fun h => h ▸ rfl, fun h => Prod.ext rfl h.symm⟩
    · have hne : (k, a) ≠ e := fun h => hk (h ▸ ReflCmp.compare_self)
      have hb : (compare k e.1 == .eq) = false := by simpa using hk
      simp only [mem_cons, hne, false_or, ih, hb]

theorem find?_filter {m : SortedMap κ α} {p : κ → α → Bool} {k : κ} :
    (m.filter p).find? k = (m.find? k).filter (p k) := by
  ext a
  rw [← mem_toList_iff, filter_eq_some_iff, ← mem_toList_iff]
  simp [filter]

theorem find?_filterMap {m : SortedMap κ α} {f : α → Option β} {k : κ} :
    (m.filterMap f).find? k = (m.find? k).bind f := by
  ext b
  rw [← mem_toList_iff, bind_eq_some_iff]
  simp only [filterMap, mem_filterMap, map_eq_some_iff, Prod.mk.injEq]
  constructor
  · rintro ⟨⟨k', a⟩, hm, b', hb, rfl, rfl⟩
    exact ⟨a, mem_toList_iff.1 hm, hb⟩
  · rintro ⟨a, ha, hb⟩
    exact ⟨(k, a), mem_toList_iff.2 ha, b, hb, rfl, rfl⟩

theorem find?_erase [DecidableEq κ] {m : SortedMap κ α} {k k' : κ} :
    (m.erase k).find? k' = if k' = k then none else m.find? k' := by
  rw [erase, find?_filter]
  by_cases hk : k' = k
  · subst hk
    simp [ReflCmp.compare_self]
  · have hne : compare k k' ≠ .eq := fun h => hk (LawfulEqCmp.eq_of_compare h).symm
    have hb : (compare k k' != .eq) = true := by simpa using hne
    rw [if_neg hk, hb]
    cases m.find? k' <;> rfl

variable [TransOrd κ]

/-- The map with `k` sent to `a`. -/
def insert (m : SortedMap κ α) (k : κ) (a : α) : SortedMap κ α :=
  ⟨putSorted k a m.toList, pairwise_putSorted m.sorted⟩

/-- The map of a list of entries; a later entry wins over an earlier one of the same key. -/
def ofList (l : List (κ × α)) : SortedMap κ α :=
  l.foldl (fun m e => m.insert e.1 e.2) ∅

/-- Maps that agree at every key are equal. -/
@[ext] theorem ext {m n : SortedMap κ α} (h : ∀ k, m.find? k = n.find? k) : m = n := by
  have hmem (e : κ × α) : e ∈ m.toList ↔ e ∈ n.toList := by
    obtain ⟨k, a⟩ := e
    rw [mem_toList_iff, mem_toList_iff, h]
  have : m.toList = n.toList := by
    have nodup (l : List (κ × α)) (hl : l.Pairwise (fun a b => compare a.1 b.1 = .lt)) :
        l.Nodup :=
      hl.imp fun hab e => by simp [e, ReflCmp.compare_self] at hab
    have perm : m.toList.Perm n.toList :=
      (perm_ext_iff_of_nodup (nodup _ m.sorted) (nodup _ n.sorted)).2 hmem
    refine perm.eq_of_pairwise (fun a b _ _ hab hba => ?_) m.sorted n.sorted
    exact absurd (TransCmp.lt_trans hab hba) (by simp [ReflCmp.compare_self])
  cases m; cases n; simp_all

theorem find?_insert [DecidableEq κ] {m : SortedMap κ α} {k k' : κ} {a : α} :
    (m.insert k a).find? k' = if k' = k then some a else m.find? k' := by
  obtain ⟨l, h⟩ := m
  simp only [find?, insert]
  induction l with
  | nil =>
    by_cases hk : k' = k
    · simp [putSorted, hk, ReflCmp.compare_self]
    · have : compare k' k ≠ .eq := fun h => hk (LawfulEqCmp.eq_of_compare h)
      simp [putSorted, hk, this]
  | cons e l ih =>
    have ih := ih (pairwise_cons.1 h).2
    rw [putSorted]
    by_cases hk : k' = k
    · subst hk
      rw [if_pos rfl] at ih ⊢
      split
      · simp [ReflCmp.compare_self]
      · simp [ReflCmp.compare_self]
      · next hke =>
        have hne : compare k' e.1 ≠ .eq := by simp [hke]
        simpa [hne] using ih
    · rw [if_neg hk] at ih ⊢
      have hne : compare k' k ≠ .eq := fun h => hk (LawfulEqCmp.eq_of_compare h)
      split
      · simp [hne]
      · next hke =>
        obtain rfl : k = e.1 := LawfulEqCmp.eq_of_compare hke
        simp [hne]
      · rw [find?_cons, find?_cons]
        cases compare k' e.1 == .eq
        · exact ih
        · rfl

theorem find?_foldl_insert [DecidableEq κ] {l : List (κ × α)} {m : SortedMap κ α} {k : κ} :
    (l.foldl (fun m e => m.insert e.1 e.2) m).find? k =
      ((l.reverse.find? (·.1 = k)).map Prod.snd).or (m.find? k) := by
  induction l generalizing m with
  | nil => simp
  | cons e l ih =>
    rw [foldl_cons, ih, find?_insert, reverse_cons, find?_append]
    cases l.reverse.find? (·.1 = k) with
    | some e' => rfl
    | none => by_cases hk : k = e.1 <;> simp [hk, eq_comm]

/-- The last entry of a key counts. -/
theorem find?_ofList [DecidableEq κ] {l : List (κ × α)} {k : κ} :
    (ofList l).find? k = (l.reverse.find? (·.1 = k)).map Prod.snd := by
  rw [ofList, find?_foldl_insert, find?_empty, or_none]

theorem mem_of_find?_ofList [DecidableEq κ] {l : List (κ × α)} {k : κ} {a : α}
    (hk : (ofList l).find? k = some a) : (k, a) ∈ l := by
  rw [find?_ofList, map_eq_some_iff] at hk
  obtain ⟨⟨k', a'⟩, hfind, rfl⟩ := hk
  obtain rfl : k' = k := by simpa using find?_some hfind
  exact mem_reverse.1 (mem_of_find?_eq_some hfind)

end Lawful

/-- Maps compared entry by entry, keys before values. -/
instance [Ord α] : Ord (SortedMap κ α) where
  compare := viaView toList (List.compareLex (lexPair compare compare))

instance [TransOrd κ] [Ord α] [TransOrd α] : TransOrd (SortedMap κ α) :=
  transCmp_viaView _ _

instance [LawfulEqOrd κ] [Ord α] [LawfulEqOrd α] : LawfulEqOrd (SortedMap κ α) :=
  lawfulEqCmp_viaView _ fun s t h => by cases s; cases t; simp_all

end SortedMap

end ShapeCheck
