import ShapeCheck.Proofs.Names

/-!
# The heaps that methods start from

The initial heaps of a compiled program are built of null, fresh lists and cycles, and values of
other variables. So they are plain, and since the names of their variables come from the text or
from the parameters, none of their variables is reserved.
-/

namespace ShapeCheck

open List

variable {h : Heap} {v w : Node} {x sel : String} {n : Nat} {cyclic : Bool}

namespace Heap

/-- A plain heap none of whose variables is reserved. -/
structure IsInitial (h : Heap) : Prop extends h.IsPlain where
  unreserved : ∀ x v, h.var? x = some v → Call.isReserved x = false

theorem isInitial_empty : Heap.empty.IsInitial where
  toIsPlain := by decide
  unreserved := nofun

theorem size_addList : (h.addList n cyclic).1.size = h.size + n := by
  simp [addList, size]

theorem selector?_addList (hw : (h.addList n cyclic).1.selector? v sel = some w) :
    h.selector? v sel = some w ∨ h.size ≤ v ∧ w < h.size + n := by
  rw [selector?, cell, addList] at hw
  dsimp only at hw
  by_cases hv : v < h.size
  · rw [getElem?_append_left hv] at hw
    exact .inl hw
  · have hle := Nat.le_of_not_lt hv
    rw [getElem?_append_right hle, getElem?_map] at hw
    refine .inr ⟨hle, ?_⟩
    by_cases hi : v - h.cells.length < n
    · rw [getElem?_range hi, Option.map_some, Option.getD_some] at hw
      have hinsert {t : Node} (ht : ((∅ : Cell).insert linkSelector t).find? sel = some w) :
          w = t := by
        rw [SortedMap.find?_insert] at ht
        split at ht
        · exact (Option.some.inj ht).symm
        · cases ht
      split at hw
      · next hlt =>
        rw [hinsert hw, Nat.add_assoc]
        exact Nat.add_lt_add_left hlt _
      · split at hw
        · rw [hinsert hw]
          exact Nat.lt_add_of_pos_right (Nat.zero_lt_of_lt hi)
        · cases hw
    · rw [getElem?_eq_none (by simpa using hi)] at hw
      cases hw

theorem addList_snd_lt (hh : h.InRange) : (h.addList n cyclic).2 < h.size + n := by
  rw [addList]
  dsimp only
  split
  · exact Nat.add_pos_left hh.pos n
  · next hn => exact Nat.lt_add_of_pos_right (Nat.pos_of_ne_zero hn)

namespace IsInitial

theorem setVar (hh : h.IsInitial) (hv : v < h.size) (hx : Call.isReserved x = false) :
    (h.setVar x v).IsInitial where
  inRange := hh.inRange.setVar hv
  summaries := hh.summaries
  null := hh.null
  unreserved y w hy := by
    rw [var?_setVar] at hy
    split at hy
    · next heq => exact heq ▸ hx
    · exact hh.unreserved y w hy

theorem addList (hh : h.IsInitial) (n : Nat) (cyclic : Bool) : (h.addList n cyclic).1.IsInitial where
  inRange := by
    refine ⟨?_, fun v sel w hw => ?_, fun x v hx => ?_, fun e he => ?_⟩
    · rw [size_addList]
      exact Nat.add_pos_left hh.inRange.pos n
    · rw [size_addList]
      rcases selector?_addList hw with hw | ⟨-, hlt⟩
      · exact Nat.lt_add_right n (hh.inRange.selector v sel w hw)
      · exact hlt
    · rw [size_addList]
      exact Nat.lt_add_right n (hh.inRange.var x v hx)
    · rw [show (h.addList n cyclic).1.summaries = [] from hh.summaries] at he
      cases he
  summaries := hh.summaries
  null := by
    rw [← hh.null, cell, cell]
    exact congrArg (·.getD ∅) (getElem?_append_left hh.inRange.pos)
  unreserved := hh.unreserved

end IsInitial

end Heap

namespace Code

theorem isInitial_of_bind {b : Source.Binding} {h' : Heap} (hh : h.IsInitial)
    (hb : Call.isReserved b.var.name = false) (hbind : bind h b = .ok h') : h'.IsInitial := by
  rw [bind] at hbind
  have hlist (n : Nat) (cyclic : Bool) :
      ((h.addList n cyclic).1.setVar b.var.name (h.addList n cyclic).2).IsInitial :=
    (hh.addList n cyclic).setVar (Heap.size_addList ▸ Heap.addList_snd_lt hh.inRange) hb
  split at hbind
  · obtain rfl := Except.ok.inj hbind
    exact hh.setVar hh.inRange.pos hb
  · obtain rfl := Except.ok.inj hbind
    exact hlist _ false
  · obtain rfl := Except.ok.inj hbind
    exact hlist _ true
  · split at hbind
    · next hv =>
      obtain rfl := Except.ok.inj hbind
      exact hh.setVar (hh.inRange.var _ _ hv) hb
    · cases hbind

theorem isInitial_of_initialHeap {d : Source.InitDecl} (hd : d.IsUnreserved)
    (hh : initialHeap d = .ok h) : h.IsInitial :=
  of_foldlM_eq_ok (I := Heap.IsInitial) Heap.isInitial_empty
    (fun b hb _ _ hh hbind => isInitial_of_bind hh (hd b hb) hbind) hh

theorem Method.isInitial_sampleHeap {params : List String}
    (hparams : ∀ x ∈ params, Call.isReserved x = false) (mask : Nat) :
    (sampleHeap params mask).IsInitial := by
  rw [sampleHeap]
  refine List.foldlRecOn _ _ Heap.isInitial_empty fun h hh p hp => ?_
  obtain ⟨x, i⟩ := p
  have hx := hparams x (fst_mem_of_mem_zipIdx hp)
  by_cases hbit : mask.testBit i
  · simp only [hbit, if_true]
    exact (hh.addList _ false).setVar (Heap.size_addList ▸ Heap.addList_snd_lt hh.inRange) hx
  · simp only [hbit]
    exact hh.setVar hh.inRange.pos hx

theorem isInitial_of_mem_inits {src name : String} {P : Program} {m : Method}
    (hP : compile src = .ok P) (hm : P.method? name = some m) (hh : h ∈ m.inits) : h.IsInitial := by
  obtain ⟨p, hparse, hresolve⟩ := exists_resolve_of_compile hP
  obtain ⟨d, hd, hheap⟩ := exists_init_of_resolve hresolve hm h hh
  exact isInitial_of_initialHeap (Source.isUnreserved_of_parse hparse _ hd) hheap

/-- The heaps that a compiled program starts from are plain, and their variables are not reserved. -/
theorem isInitial_of_mem_initialHeaps {src : String} {P : Program} (hP : compile src = .ok P)
    (name : String) : ∀ h ∈ P.initialHeaps name, h.IsInitial := by
  intro h hh
  cases hm : P.method? name with
  | none => simp [Program.initialHeaps, hm] at hh
  | some m =>
    rw [Program.initialHeaps, hm, Option.map_some, Option.getD_some, Method.initialHeaps] at hh
    split at hh
    · obtain ⟨mask, -, rfl⟩ := mem_map.1 hh
      exact Method.isInitial_sampleHeap (isUnreserved_of_compile hP name m hm).params mask
    · exact isInitial_of_mem_inits hP hm hh

end Code

end ShapeCheck
