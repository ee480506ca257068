import ShapeCheck.Shape.Fold
import Mathlib.Tactic.Common

/-!
# Reading a heap after a change

What each elementary change of a heap does to its selectors, variables and summaries. A heap is *in
range* if null is one of its nodes and everything in it refers to its nodes; the changes keep this as
long as they are made with nodes of the heap.
-/

namespace ShapeCheck

open List

/-- A summary with its ends renamed. -/
def Summary.map (f : Node → Node) (e : Summary) : Summary :=
  ⟨e.label, e.ends.map f⟩

namespace Heap

variable {h : Heap} {u v t : Node} {sel s x y : String}

/-- Null is a node, and selectors, variables and summaries refer to nodes. -/
structure InRange (h : Heap) : Prop where
  pos : 0 < h.size
  selector : ∀ v sel w, h.selector? v sel = some w → w < h.size
  var : ∀ x v, h.var? x = some v → v < h.size
  ends : ∀ e ∈ h.summaries, ∀ v ∈ e.ends, v < h.size

theorem cell_of_size_le (hv : h.size ≤ v) : h.cell v = ∅ := by
  rw [cell, getElem?_eq_none hv, Option.getD_none]

theorem selector?_of_size_le (hv : h.size ≤ v) : h.selector? v sel = none := by
  rw [selector?, cell_of_size_le hv, SortedMap.find?_empty]

theorem lt_size_of_selector? (hv : h.selector? v sel = some t) : v < h.size := by
  by_contra hle
  rw [selector?_of_size_le (Nat.le_of_not_lt hle)] at hv
  cases hv

theorem mem_nodes : v ∈ h.nodes ↔ v < h.size :=
  mem_range

theorem mem_values_cell : t ∈ (h.cell v).values ↔ ∃ sel, h.selector? v sel = some t := by
  simp only [SortedMap.values, mem_map, Prod.exists, exists_eq_right, selector?,
    SortedMap.mem_toList_iff]

theorem mem_values_vars : v ∈ h.vars.values ↔ ∃ x, h.var? x = some v := by
  simp only [SortedMap.values, mem_map, Prod.exists, exists_eq_right, var?,
    SortedMap.mem_toList_iff]

theorem mem_successors_iff : t ∈ h.successors v ↔
    (∃ sel, h.selector? v sel = some t) ∨
      ∃ e ∈ h.summaries, e.source? = some v ∧ t ∈ e.targets := by
  simp only [successors, mem_append, mem_values_cell, mem_flatMap, mem_filter,
    decide_eq_true_eq, and_assoc]

theorem InRange.lt_of_mem_values (hh : h.InRange) (ht : t ∈ (h.cell v).values) : t < h.size := by
  obtain ⟨sel, hsel⟩ := mem_values_cell.1 ht
  exact hh.selector v sel t hsel

theorem InRange.lt_of_mem_vars (hh : h.InRange) (hv : v ∈ h.vars.values) : v < h.size := by
  obtain ⟨x, hx⟩ := mem_values_vars.1 hv
  exact hh.var x v hx

theorem inRange_iff : h.InRange ↔ 0 < h.size ∧ (∀ v ∈ h.nodes, ∀ w ∈ (h.cell v).values, w < h.size) ∧
    (∀ v ∈ h.vars.values, v < h.size) ∧ ∀ e ∈ h.summaries, ∀ v ∈ e.ends, v < h.size := by
  constructor
  · intro hh
    exact ⟨hh.pos, fun _ _ _ => hh.lt_of_mem_values, fun _ => hh.lt_of_mem_vars, hh.ends⟩
  · rintro ⟨hpos, hsel, hvar, hends⟩
    refine ⟨hpos, fun v sel w hw => ?_, fun x v hx => ?_, hends⟩
    · exact hsel v (mem_nodes.2 (lt_size_of_selector? hw)) w (mem_values_cell.2 ⟨sel, hw⟩)
    · exact hvar v (mem_values_vars.2 ⟨x, hx⟩)

instance (h : Heap) : Decidable h.InRange :=
  decidable_of_iff _ inRange_iff.symm

theorem InRange.lt_of_mem_successors (hh : h.InRange) (ht : t ∈ h.successors v) : t < h.size := by
  rcases mem_successors_iff.1 ht with ⟨sel, hsel⟩ | ⟨e, he, -, ht⟩
  · exact hh.selector v sel t hsel
  · exact hh.ends e he t (mem_of_mem_tail ht)

@[simp]
theorem size_grow : h.grow.size = h.size + 1 := by
  simp [size, grow]

@[simp]
theorem cell_grow : h.grow.cell v = h.cell v := by
  rcases Nat.lt_trichotomy v h.cells.length with hlt | rfl | hgt
  · simp [cell, grow, getElem?_append_left hlt]
  · simp [cell, grow]
  · rw [cell_of_size_le (h := h) (Nat.le_of_lt hgt), cell_of_size_le]
    simpa [size, grow, Nat.succ_le_iff] using hgt

@[simp]
theorem selector?_grow : h.grow.selector? v sel = h.selector? v sel := by
  rw [selector?, cell_grow, selector?]

@[simp]
theorem var?_grow : h.grow.var? x = h.var? x :=
  rfl

@[simp]
theorem summaries_grow : h.grow.summaries = h.summaries :=
  rfl

@[simp]
theorem size_modifyCell (f : Cell → Cell) : (h.modifyCell v f).size = h.size := by
  simp [size, modifyCell]

@[simp]
theorem var?_modifyCell (f : Cell → Cell) : (h.modifyCell v f).var? x = h.var? x :=
  rfl

@[simp]
theorem summaries_modifyCell (f : Cell → Cell) : (h.modifyCell v f).summaries = h.summaries :=
  rfl

theorem cell_modifyCell (f : Cell → Cell) :
    (h.modifyCell v f).cell u = if u = v ∧ v < h.size then f (h.cell v) else h.cell u := by
  rw [cell, modifyCell, getElem?_modify]
  by_cases huv : v = u
  · subst huv
    by_cases hlt : v < h.size
    · rw [if_pos ⟨rfl, hlt⟩, cell, getElem?_eq_getElem hlt]
      simp
    · rw [if_neg fun hand => hlt hand.2, cell, getElem?_eq_none (Nat.le_of_not_lt hlt)]
      simp
  · rw [if_neg fun hand => huv hand.1.symm, cell]
    simp [huv]

@[simp]
theorem size_setSelector : (h.setSelector v sel t).size = h.size := by
  rw [setSelector]
  split <;> simp

@[simp]
theorem var?_setSelector : (h.setSelector v sel t).var? x = h.var? x := by
  rw [setSelector]
  split <;> rfl

@[simp]
theorem summaries_setSelector : (h.setSelector v sel t).summaries = h.summaries := by
  rw [setSelector]
  split <;> rfl

theorem selector?_modifyCell_insert :
    (h.modifyCell v (·.insert sel t)).selector? u s =
      if u = v ∧ v < h.size ∧ s = sel then some t else h.selector? u s := by
  rw [selector?, cell_modifyCell]
  by_cases huv : u = v ∧ v < h.size
  · obtain ⟨rfl, hlt⟩ := huv
    rw [if_pos ⟨rfl, hlt⟩, SortedMap.find?_insert, selector?]
    simp [hlt]
  · rw [if_neg huv, if_neg fun hall => huv ⟨hall.1, hall.2.1⟩, selector?]

theorem selector?_setSelector (hv : v ≠ Node.null) :
    (h.setSelector v sel t).selector? u s =
      if u = v ∧ v < h.size ∧ s = sel then some t else h.selector? u s := by
  rw [setSelector, if_neg hv, selector?_modifyCell_insert]

@[simp]
theorem size_dropSelector : (h.dropSelector v sel).size = h.size :=
  size_modifyCell _

@[simp]
theorem var?_dropSelector : (h.dropSelector v sel).var? x = h.var? x :=
  rfl

@[simp]
theorem summaries_dropSelector : (h.dropSelector v sel).summaries = h.summaries :=
  rfl

theorem selector?_dropSelector :
    (h.dropSelector v sel).selector? u s =
      if u = v ∧ s = sel then none else h.selector? u s := by
  rw [dropSelector, selector?, cell_modifyCell]
  by_cases huv : u = v
  · subst huv
    by_cases hlt : u < h.size
    · rw [if_pos ⟨rfl, hlt⟩, SortedMap.find?_erase, selector?]
      simp
    · rw [if_neg fun hand => hlt hand.2, ← selector?, selector?_of_size_le (Nat.le_of_not_lt hlt)]
      simp
  · rw [if_neg fun hand => huv hand.1, if_neg fun hand => huv hand.1, selector?]

theorem cell_clearCell : (h.clearCell v).cell u = if u = v then ∅ else h.cell u := by
  rw [clearCell, cell_modifyCell]
  by_cases huv : u = v
  · subst huv
    by_cases hlt : u < h.size
    · rw [if_pos ⟨rfl, hlt⟩, if_pos rfl]
    · rw [if_neg fun hand => hlt hand.2, if_pos rfl, cell_of_size_le (Nat.le_of_not_lt hlt)]
  · rw [if_neg fun hand => huv hand.1, if_neg huv]

@[simp]
theorem size_setVar : (h.setVar x v).size = h.size :=
  rfl

@[simp]
theorem selector?_setVar : (h.setVar x v).selector? u sel = h.selector? u sel :=
  rfl

@[simp]
theorem summaries_setVar : (h.setVar x v).summaries = h.summaries :=
  rfl

theorem var?_setVar : (h.setVar x v).var? y = if y = x then some v else h.var? y :=
  SortedMap.find?_insert

@[simp]
theorem size_keepVars (p : String → Bool) : (h.keepVars p).size = h.size :=
  rfl

@[simp]
theorem selector?_keepVars (p : String → Bool) :
    (h.keepVars p).selector? u sel = h.selector? u sel :=
  rfl

@[simp]
theorem summaries_keepVars (p : String → Bool) : (h.keepVars p).summaries = h.summaries :=
  rfl

theorem var?_keepVars (p : String → Bool) :
    (h.keepVars p).var? x = if p x then h.var? x else none := by
  rw [var?, keepVars, SortedMap.find?_filter, var?]
  cases h.vars.find? x <;> cases p x <;> rfl

@[simp]
theorem size_addSummary (label : String) (ends : List Node) :
    (h.addSummary label ends).size = h.size :=
  rfl

@[simp]
theorem selector?_addSummary (label : String) (ends : List Node) :
    (h.addSummary label ends).selector? u sel = h.selector? u sel :=
  rfl

@[simp]
theorem var?_addSummary (label : String) (ends : List Node) :
    (h.addSummary label ends).var? x = h.var? x :=
  rfl

@[simp]
theorem size_dropSummaries (positions : List Nat) : (h.dropSummaries positions).size = h.size :=
  rfl

@[simp]
theorem selector?_dropSummaries (positions : List Nat) :
    (h.dropSummaries positions).selector? u sel = h.selector? u sel :=
  rfl

@[simp]
theorem var?_dropSummaries (positions : List Nat) :
    (h.dropSummaries positions).var? x = h.var? x :=
  rfl

theorem valueOf_lt (hh : h.InRange) (operand : Option String) : h.valueOf operand < h.size := by
  rw [valueOf]
  cases hv : operand.bind h.var? with
  | none => exact hh.pos
  | some v =>
    obtain ⟨x, -, hx⟩ := Option.bind_eq_some_iff.1 hv
    exact hh.var x v hx

end Heap

end ShapeCheck
