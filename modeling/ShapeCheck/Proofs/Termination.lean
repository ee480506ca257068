import ShapeCheck.Proofs.Closure
import ShapeCheck.Proofs.Errors
import ShapeCheck.Proofs.ListShape
import ShapeCheck.Proofs.Upkeep
import Mathlib.Data.Fintype.BigOperators

/-!
# Termination for lists

A method without calls that goes through links of lists only is analysed to the end. With garbage
collection and the default abstraction, every state that is reached has a list heap with the names of
the initial heaps and of the method, and the number of its nodes is bounded. There are only so many
such states: a state is known from an *imprint* of it, a tuple of functions between finite types.

Every state is put into the space once and expanded once. So a search that is granted more steps than
there are imprints does not run out of them.
-/

namespace ShapeCheck

open Code List
open Abstraction (lists isDistinct_lists)

/-- All selectors are links of lists. -/
def Heap.HasOnlyLinks (h : Heap) : Prop :=
  ∀ cell ∈ h.cells, ∀ sel ∈ cell.keys, sel = linkSelector

instance (h : Heap) : Decidable h.HasOnlyLinks :=
  inferInstanceAs (Decidable (∀ cell ∈ h.cells, ∀ sel ∈ cell.keys, sel = linkSelector))

theorem Heap.HasOnlyLinks.selector {h : Heap} (hh : h.HasOnlyLinks) (v : Node) (sel : String) (w : Node)
    (hw : h.selector? v sel = some w) : sel = linkSelector := by
  obtain ⟨cell, hcell⟩ : ∃ cell, h.cells[v]? = some cell :=
    ⟨_, getElem?_eq_getElem (Heap.lt_size_of_selector? hw)⟩
  rw [Heap.selector?, Heap.cell, hcell] at hw
  exact hh cell (mem_of_getElem? hcell) sel
    (mem_map.2 ⟨(sel, w), SortedMap.mem_toList_iff.2 hw, rfl⟩)

/-- A list heap whose variables are among the given names, with at most `n` nodes. -/
structure Heap.IsSmall (names : List String) (n : Nat) (h : Heap) : Prop extends h.IsListHeap where
  named : ∀ x, (h.var? x).isSome → x ∈ names
  size : h.size ≤ n

variable {E : Engine} {m : Method} {Ans : Answering} {heaps : List Heap} {g h : Heap} {t : State}
  {names : List String} {n : Nat} {stmt : Statement}

/-- A node, or none, as a number that is at most `n`. -/
def digit (n : Nat) (v? : Option Nat) : Fin (n + 1) :=
  Fin.ofNat (n + 1) ((v?.map Nat.succ).getD 0)

theorem eq_of_digit_eq {v? w? : Option Nat} (hv : ∀ v ∈ v?, v < n) (hw : ∀ w ∈ w?, w < n)
    (heq : digit n v? = digit n w?) : v? = w? := by
  have hval {u? : Option Nat} (hu : ∀ u ∈ u?, u < n) :
      (digit n u?).val = (u?.map Nat.succ).getD 0 := by
    refine Nat.mod_eq_of_lt ?_
    cases u? with
    | none => exact Nat.succ_pos n
    | some u => exact Nat.succ_lt_succ (hu u rfl)
  have hsucc := congrArg Fin.val heq
  rw [hval hv, hval hw] at hsucc
  cases v? <;> cases w? <;> simp_all

theorem eq_of_map_getElem?_eq {α β : Type} {code : α → β} {l l' : List α} (hl : l.length ≤ n)
    (hl' : l'.length ≤ n) (hcode : ∀ a ∈ l, ∀ b ∈ l', code a = code b → a = b)
    (heq : ∀ i : Fin n, l[i.val]?.map code = l'[i.val]?.map code) : l = l' := by
  refine ext_getElem? fun i => ?_
  by_cases hi : i < n
  · have hi := heq ⟨i, hi⟩
    cases ha : l[i]? with
    | none => simpa [ha, eq_comm] using hi
    | some a =>
      rw [ha] at hi
      obtain ⟨b, hb, hab⟩ := Option.map_eq_some_iff.1 hi.symm
      rw [hb, hcode a (mem_of_getElem? ha) b (mem_of_getElem? hb) hab.symm]
  · rw [getElem?_eq_none (by omega), getElem?_eq_none (by omega)]

/-- The links and the segments of a heap, the values of its variables, the place and the mark of a
state, all in terms of small numbers. -/
abbrev Imprint (n k l : Nat) : Type :=
  (Fin n → Option (Fin (n + 1))) × (Fin n → Option (Fin (n + 1) × Fin (n + 1))) ×
    (Fin k → Fin (n + 1)) × Fin (l + 1) × Bool

/-- The number of the line, if a place is not the exit. -/
def Location.line? : Location → Option Nat
  | .line i => some i
  | .exit => none

/-- The imprint of a state. -/
def State.imprint (names : List String) (n l : Nat) (t : State) : Imprint n names.length l :=
  (fun i => t.heap.cells[i.val]?.map fun cell => digit n (cell.find? linkSelector),
    fun i => t.heap.summaries[i.val]?.map fun e => (digit n e.source?, digit n (some e.target)),
    fun i => digit n (t.heap.var? (names.get i)), digit l t.location.line?, t.unfolded)

namespace Heap.IsSmall

theorem of_mem_cells (hh : h.IsSmall names n) {cell : Cell} (hcell : cell ∈ h.cells) {sel : String}
    {w : Node} (hw : cell.find? sel = some w) : sel = linkSelector ∧ w < n := by
  obtain ⟨v, hv⟩ := mem_iff_getElem?.1 hcell
  have hsel : h.selector? v sel = some w := by
    rw [selector?, Heap.cell, hv]
    exact hw
  exact ⟨(hh.selector v sel w hsel).2, Nat.lt_of_lt_of_le (hh.inRange.selector v sel w hsel) hh.size⟩

theorem of_mem_summaries (hh : h.IsSmall names n) {e : Summary} (he : e ∈ h.summaries) :
    ∃ v w, e = ⟨Chain.list.label, [v, w]⟩ ∧ v < n ∧ w < n := by
  obtain ⟨v, w, rfl, -⟩ := hh.eq_of_mem_summaries he
  have hends := hh.inRange.ends _ he
  exact ⟨v, w, rfl, Nat.lt_of_lt_of_le (hends v (by simp)) hh.size,
    Nat.lt_of_lt_of_le (hends w (by simp)) hh.size⟩

theorem length_summaries_le (hh : h.IsSmall names n) : h.summaries.length ≤ n := by
  have hle := length_le_of_nodup hh.nodup_sources (n := n) fun v hv => by
    obtain ⟨e, he, rfl⟩ := mem_map.1 hv
    obtain ⟨v, w, rfl, hlt, -⟩ := hh.of_mem_summaries he
    exact hlt
  rwa [length_map] at hle

end Heap.IsSmall

theorem State.eq_of_imprint_eq {u : State} {l : Nat} (ht : t.heap.IsSmall names n)
    (hu : u.heap.IsSmall names n) (htline : ∀ i ∈ t.location.line?, i < l)
    (huline : ∀ i ∈ u.location.line?, i < l) (heq : t.imprint names n l = u.imprint names n l) :
    t = u := by
  simp only [imprint, Prod.mk.injEq] at heq
  obtain ⟨hcells, hsummaries, hvars, hline, hunfolded⟩ := heq
  have hcells : t.heap.cells = u.heap.cells := by
    refine eq_of_map_getElem?_eq ht.size hu.size (fun c hc c' hc' hdigit => ?_) (congrFun hcells)
    have hlink := eq_of_digit_eq (fun w hw => (ht.of_mem_cells hc hw).2)
      (fun w hw => (hu.of_mem_cells hc' hw).2) hdigit
    refine SortedMap.ext fun sel => ?_
    by_cases hsel : sel = linkSelector
    · rw [hsel, hlink]
    · rw [Option.eq_none_iff_forall_ne_some.2 fun w hw => hsel (ht.of_mem_cells hc hw).1,
        Option.eq_none_iff_forall_ne_some.2 fun w hw => hsel (hu.of_mem_cells hc' hw).1]
  have hsummaries : t.heap.summaries = u.heap.summaries := by
    refine eq_of_map_getElem?_eq ht.length_summaries_le hu.length_summaries_le
      (fun e he e' he' hdigits => ?_) (congrFun hsummaries)
    obtain ⟨v, w, rfl, hv, hw⟩ := ht.of_mem_summaries he
    obtain ⟨v', w', rfl, hv', hw'⟩ := hu.of_mem_summaries he'
    obtain ⟨hsource, htarget⟩ := Prod.mk.inj hdigits
    have hsource := eq_of_digit_eq (by simpa [Summary.source?]) (by simpa [Summary.source?]) hsource
    have htarget := eq_of_digit_eq (by simpa [Summary.target, Summary.targets])
      (by simpa [Summary.target, Summary.targets]) htarget
    simp_all [Summary.source?, Summary.target, Summary.targets]
  have hvars : t.heap.vars = u.heap.vars := by
    refine SortedMap.ext fun x => ?_
    by_cases hx : x ∈ names
    · obtain ⟨i, rfl⟩ := mem_iff_get.1 hx
      exact eq_of_digit_eq (fun v hv => Nat.lt_of_lt_of_le (ht.inRange.var _ v hv) ht.size)
        (fun v hv => Nat.lt_of_lt_of_le (hu.inRange.var _ v hv) hu.size) (congrFun hvars i)
    · have hnone {g : Heap} (hg : g.IsSmall names n) : g.vars.find? x = none :=
        Option.not_isSome_iff_eq_none.1 fun hsome => hx (hg.named x hsome)
      rw [hnone ht, hnone hu]
  have hline := eq_of_digit_eq htline huline hline
  obtain ⟨⟨_, _, _⟩, loc, _⟩ := t
  obtain ⟨⟨_, _, _⟩, loc', _⟩ := u
  obtain rfl : loc = loc' := by cases loc <;> cases loc' <;> simp_all [Location.line?]
  simp_all

/-- The number of imprints. -/
def Imprint.count (n k l : Nat) : Nat :=
  (n + 2) ^ n * (((n + 1) * (n + 1) + 1) ^ n * ((n + 1) ^ k * ((l + 1) * 2)))

theorem Imprint.card (n k l : Nat) : Fintype.card (Imprint n k l) = count n k l := by
  simp [count]

theorem StateSpace.IsTable.size_le {sp : E.Space} (hsp : sp.IsTable) {l : Nat}
    (hsmall : ∀ i t, sp.state? i = some t →
      t.heap.IsSmall names n ∧ ∀ line ∈ t.location.line?, line < l) :
    sp.size ≤ Imprint.count n names.length l := by
  have hinj : Function.Injective fun i : Fin sp.size =>
      ((sp.state? i.val).getD default).imprint names n l := by
    intro i j hij
    obtain ⟨t, ht⟩ := exists_state?_of_lt i.isLt
    obtain ⟨u, hu⟩ := exists_state?_of_lt j.isLt
    obtain ⟨htsmall, htline⟩ := hsmall i t ht
    obtain ⟨husmall, huline⟩ := hsmall j u hu
    dsimp only at hij
    rw [ht, hu] at hij
    obtain rfl := State.eq_of_imprint_eq htsmall husmall htline huline hij
    exact Fin.ext (hsp.unique i j t ht hu)
  rw [← Imprint.card]
  exact (Fintype.card_fin sp.size).symm.trans_le (Fintype.card_le_of_injective _ hinj)

/-- The names that a run of the method can meet: those of the initial heaps, those that its statements
mention, and the one that holds the result. -/
def Code.Method.namesFrom (m : Method) (heaps : List Heap) : List String :=
  heaps.flatMap (·.vars.keys) ++ m.statements.flatMap (·.instruction.names) ++ [Call.returnVar]

/-- The size up to which the heaps of ordinary states grow. -/
def Code.Method.heapBound (m : Method) (heaps : List Heap) : Nat :=
  heaps.foldr (fun h n => max h.size n) (2 * (m.namesFrom heaps).length + 1)

/-- The number of states up to which the space of a method grows. An unfolded state has one node
more. -/
def Code.Method.stateBound (m : Method) (heaps : List Heap) : Nat :=
  Imprint.count (m.heapBound heaps + 1) (m.namesFrom heaps).length m.statements.length

/-- A statement names nothing but the variables that it mentions, and the one that holds the
result. -/
theorem Code.Statement.isSome_var?_of_step {next : List (Location × Heap)} {loc : Location} {x : String}
    (hstep : stmt.step h = .moves next) (hnext : (loc, g) ∈ next) (hx : (g.var? x).isSome) :
    (h.var? x).isSome ∨ x ∈ stmt.instruction.names ∨ x = Call.returnVar := by
  have hset {f : Heap} {y : String} {v : Node} (hx : ((f.setVar y v).var? x).isSome)
      (hf : f.var? x = h.var? x) : (h.var? x).isSome ∨ x = y := by
    rw [Heap.var?_setVar] at hx
    split at hx
    · next heq => exact .inr heq
    · exact .inl (hf ▸ hx)
  cases makes hstep hnext with
  | same => exact .inl hx
  | assign hy _ => exact (hset hx rfl).imp_right fun (heq : x = _) => heq ▸ hy
  | new hy | load hy _ _ => exact (hset hx rfl).imp_right fun (heq : x = _) => .inl (heq ▸ hy)
  | store =>
    rw [Heap.var?_stored] at hx
    exact .inl hx

theorem Code.Method.mem_namesFrom_of_heap (hh : h ∈ heaps) {x : String} (hx : (h.var? x).isSome) :
    x ∈ m.namesFrom heaps := by
  obtain ⟨v, hv⟩ := Option.isSome_iff_exists.1 hx
  refine mem_append_left _ (mem_append_left _ (mem_flatMap.2 ⟨h, hh, ?_⟩))
  exact mem_map.2 ⟨(x, v), SortedMap.mem_toList_iff.2 hv, rfl⟩

theorem Code.Method.mem_namesFrom_of_statement (hstmt : stmt ∈ m.statements) {x : String}
    (hx : x ∈ stmt.instruction.names ∨ x = Call.returnVar) : x ∈ m.namesFrom heaps := by
  rcases hx with hx | rfl
  · exact mem_append_left _ (mem_append_right _ (mem_flatMap.2 ⟨stmt, hstmt, hx⟩))
  · exact mem_append_right _ (mem_singleton_self _)

theorem Code.Method.le_heapBound (m : Method) :
    2 * (m.namesFrom heaps).length + 1 ≤ m.heapBound heaps ∧
      ∀ h ∈ heaps, h.size ≤ m.heapBound heaps := by
  rw [heapBound]
  generalize 2 * (m.namesFrom heaps).length + 1 = least
  induction heaps with
  | nil => exact ⟨Nat.le_refl _, forall_mem_nil _⟩
  | cons h heaps ih =>
    refine ⟨le_max_of_le_right ih.1, forall_mem_cons.2 ⟨le_max_left _ _, fun g hg => ?_⟩⟩
    exact le_max_of_le_right (ih.2 g hg)

/-- A method without calls that goes through links only. -/
structure Code.Method.IsListMethod (m : Method) : Prop where
  calls : m.callees = []
  links : ∀ stmt ∈ m.statements, ∀ p ∈ stmt.accessPoint?, p.selector = linkSelector

instance (m : Method) : Decidable m.IsListMethod :=
  decidable_of_iff (m.callees = [] ∧
      ∀ stmt ∈ m.statements, ∀ p ∈ stmt.accessPoint?, p.selector = linkSelector)
    ⟨fun h => ⟨h.1, h.2⟩, fun h => ⟨h.calls, h.links⟩⟩

namespace Engine

/-- What all states have that a method reaches from list heaps: the heap is small, with room for a
node that unfolding adds, and the selector is exposed that an unfolded state is about to go through. -/
structure IsTame (m : Method) (heaps : List Heap) (t : State) : Prop where
  small : t.heap.IsSmall (m.namesFrom heaps) (m.heapBound heaps + t.unfolded.toNat)
  exposed : t.unfolded → ∀ i stmt, t.location = .line i → m.statement? i = some stmt →
    ∀ p ∈ stmt.accessPoint?, lists.IsExposed t.heap p

section Lists

variable (hE : E.abstraction = lists) (hpruning : E.settings.pruning) (hm : m.IsUnreserved)
  (hlist : m.IsListMethod) (hheaps : ∀ h ∈ heaps, h.IsListHeap)

include hE hheaps in
theorem isTame_start (hh : h ∈ heaps) :
    IsTame m heaps ⟨E.abstraction.canonical h, .line 0, false⟩ := by
  have hcanonical : E.abstraction.canonical h = lists.shapeAt 0 h := by
    rw [hE]
    rfl
  rw [hcanonical]
  refine ⟨⟨(hheaps h hh).shapeAt 0, fun x hx => ?_, ?_⟩, fun h => by cases h⟩
  · exact Method.mem_namesFrom_of_heap hh (((hheaps h hh).inRange.isSome_var?_shapeAt lists 0 x).1 hx)
  · exact ((hheaps h hh).inRange.size_shapeAt_le lists 0).trans
      (Nat.le_add_right_of_le (m.le_heapBound.2 h hh))

include hE in
theorem IsTame.source {i : Nat} {gs : List Heap} (ht : IsTame m heaps ⟨h, .line i, false⟩)
    (hstmt : m.statement? i = some stmt) (hgs : E.sources stmt h = .ok gs) (hg : g ∈ gs) :
    IsTame m heaps ⟨g, .line i, true⟩ := by
  obtain ⟨hlist, hexposed, hsize, hvar⟩ := ht.small.toIsListHeap.source hE hgs hg
  refine ⟨⟨hlist, fun x hx => ht.small.named x ((hvar x).1 hx), ?_⟩, fun _ j stmt' hj hstmt' => ?_⟩
  · exact hsize.trans (Nat.succ_le_succ ht.small.size)
  · obtain rfl := Location.line.inj hj
    exact Option.some.inj (hstmt.symm.trans hstmt') ▸ hexposed

include hE hpruning hm hlist in
theorem IsTame.step {i : Nat} {next : List (Location × Heap)} {p : Location × Heap}
    (ht : IsTame m heaps ⟨g, .line i, true⟩) (hstmt : m.statement? i = some stmt)
    (hstep : stmt.step g = .moves next) (hp : p ∈ next) : IsTame m heaps (E.settled p.1 p.2) := by
  have hmem : stmt ∈ m.statements := mem_of_getElem? hstmt
  have hnext : p.2.IsListHeap := ht.small.toIsListHeap.step (hm.statements stmt hmem)
    (hlist.links stmt hmem) (ht.exposed rfl i stmt rfl hstmt) hstep hp
  have hnames (x : String) (hx : (p.2.var? x).isSome) : x ∈ m.namesFrom heaps :=
    (Statement.isSome_var?_of_step hstep hp hx).elim (ht.small.named x) fun hx =>
      Method.mem_namesFrom_of_statement hmem hx
  obtain ⟨f, hf, -⟩ := hnext.inRange.isPart_collect
  have hsettled : (E.settled p.1 p.2).heap = lists.shapeAt 0 p.2.collect := by
    rw [settled, if_pos hpruning, hE]
    rfl
  refine ⟨⟨?_, fun x hx => hnames x ?_, ?_⟩, fun h => by cases h⟩
  · rw [hsettled]
    exact hnext.collect.shapeAt 0
  · rw [hsettled, hnext.collect.inRange.isSome_var?_shapeAt] at hx
    rwa [hf.var, Option.isSome_map]
  · rw [hsettled]
    exact (hnext.size_coarsest_collect hnames).trans (Nat.le_add_right_of_le m.le_heapBound.1)

include hE hpruning hm hlist hheaps in
theorem Reached.isTame (ht : Reached E m Ans heaps t) : IsTame m heaps t := by
  induction ht with
  | start hh => exact isTame_start hE hheaps hh
  | source _ hstmt hgs hg ih => exact ih.source hE hstmt hgs hg
  | step _ hstmt hnext hp ih =>
    exact ih.step hE hpruning hm hlist hstmt ((Method.yields_iff hlist.calls hstmt).1 hnext) hp

/-- What holds in the course of a generation without bounds: every state in the space has been counted
once. -/
structure IsTallied (sp : E.Space) (s : Session) : Prop where
  limits : s.limits = []
  effort : s.effort = sp.size
  table : sp.IsTable

theorem IsTallied.insert {sp : E.Space} {s : Session} (h : IsTallied sp s) (t : State) :
    IsTallied (sp.insert t).1 (s.insertion (sp.insert t).2.2) := by
  refine ⟨?_, ?_, h.table.insert t⟩
  · cases (sp.insert t).2.2 <;> exact h.limits
  · rw [sp.size_insert, ← h.effort]
    cases (sp.insert t).2.2 <;> rfl

include hE hpruning hm hlist hheaps in
theorem upkeep_lists {method : String} {call : CallHandler}
    (hmethod : E.program.method? method = some m) :
    Upkeep E m call Ans heaps IsTallied E.program.Dereferences where
  insert _ h := h.insert _
  addEdge htarget hkind h := ⟨h.limits, h.effort.trans StateSpace.size_addEdge.symm,
    h.table.addEdge htarget hkind⟩
  setFinal hi h := ⟨h.limits, h.effort.trans StateSpace.size_setFinal.symm, h.table.setFinal hi⟩
  markExpanded h := ⟨h.limits, h.effort.trans StateSpace.size_markExpanded.symm,
    h.table.markExpanded _⟩
  initial h := ⟨h.limits, h.effort, h.table.indexed, h.table.unique, h.table.inRange, h.table.loop,
    h.table.final⟩
  count hcount heffort h := ⟨hcount.limits h.limits, heffort.trans h.effort, h.table⟩
  aborted h hne := absurd h.limits hne
  sources hreached _ :=
    (hreached.isTame hE hpruning hm hlist hheaps).small.isRegular.exists_sources E _
  fault _ hstmt hstep :=
    ⟨method, m, _, _, hmethod, hstmt, Statement.isSome_accessPoint?_of_fault hstep, rfl⟩
  call _ hstmt hstep := by
    have hmem := Method.mem_callees hstmt hstep
    rw [hlist.calls] at hmem
    cases hmem

include hE hpruning hm hlist hheaps in
theorem IsKept.size_le {sp : E.Space} {waiting : List StateId} {s : Session} (hsealed : m.IsSealed)
    (hk : IsKept E m Ans heaps IsTallied sp waiting s) : sp.size ≤ m.stateBound heaps := by
  refine hk.holds.table.size_le fun i t ht => ?_
  obtain ⟨busy, hstage⟩ := hk.stage
  have hreached := hstage.reached i t ht
  obtain ⟨hsmall, -⟩ := hreached.isTame hE hpruning hm hlist hheaps
  refine ⟨⟨hsmall.toIsListHeap, hsmall.named, hsmall.size.trans ?_⟩, fun line hline => ?_⟩
  · exact Nat.add_le_add_left t.unfolded.toNat_le _
  · have hhas := hreached.has hsealed hlist.calls
    cases hloc : t.location with
    | line j =>
      rw [hloc] at hhas hline
      exact Option.some.inj hline ▸ hhas
    | exit =>
      rw [hloc] at hline
      cases hline

end Lists

/-- With the default abstraction, garbage collection and no bounds, the analysis of a method without
calls that goes through links only comes to an end, from any plain heaps without other selectors: if
more steps are granted than the bound says, then there is a space, or a statement goes through null.
The bound is on the number of states that are counted too, and it depends on the method and the heaps
only. -/
theorem generate_terminates {source method : String} {s : Session} {steps : Nat}
    (hsource : compile source = .ok E.program) (hE : E.abstraction = {})
    (hpruning : E.settings.pruning) (hm : E.program.method? method = some m)
    (hlist : m.IsListMethod) (hne : heaps ≠ [])
    (hheaps : ∀ h ∈ heaps, h.IsPlain ∧ h.HasOnlyLinks) (hlimits : s.limits = [])
    (hsteps : m.stateBound heaps < steps) :
    (E.generate steps method heaps).Ensures s
      (fun sp t => sp.size ≤ m.stateBound heaps ∧ t.effort = sp.size)
      fun e t => E.program.Dereferences e ∧ t.effort ≤ m.stateBound heaps := by
  have hunreserved := isUnreserved_of_compile hsource method m hm
  have hsealed := isSealed_of_compile hsource hm
  have hlistHeaps : ∀ h ∈ heaps, h.IsListHeap := fun h hh =>
    .ofPlain (hheaps h hh).1 (hheaps h hh).2.selector
  have hsize (sp : E.Space) (waiting : List StateId) (t : Session)
      (hk : IsKept E m (fun _ _ _ => True) heaps IsTallied sp waiting t) :
      sp.size ≤ m.stateBound heaps :=
    hk.size_le hE hpruning hunreserved hlist hlistHeaps hsealed
  have hupkeep : Upkeep E m (E.invoke steps) (fun _ _ _ => True) heaps IsTallied
      E.program.Dereferences :=
    upkeep_lists hE hpruning hunreserved hlist hlistHeaps hm
  have hempty : IsSeeded E [] .depthFirst {} .depthFirst := .empty
  have hstart : IsTallied {} s.restart := ⟨hlimits, rfl, hempty.isTable⟩
  rw [Engine.generate, restart, Run.ensures_bind, Run.ensures_modify, Run.ensures_bind]
  refine (hupkeep.generateWith_ensures hm hne hstart Search.isBelow_depthFirst
    (.inr ⟨rfl, hsteps, hsize⟩)).imp (fun r t hr => ?_) ?_
  · exact ⟨hsize r.1 [] t hr, hr.holds.effort⟩
  · rintro e t ⟨he, sp, waiting, hk⟩
    exact ⟨he, hk.holds.effort.trans_le (hsize sp waiting t hk)⟩

/-- The walk along a list ends. -/
theorem generate_terminates_walking : ∃ m, walkingEngine.program.method? "walk" = some m ∧
    (walkingEngine.generate (m.stateBound (walkingEngine.program.initialHeaps "walk") + 1) "walk"
      (walkingEngine.program.initialHeaps "walk")).Ensures walkingEngine.session
      (fun sp t => sp.size ≤ m.stateBound (walkingEngine.program.initialHeaps "walk") ∧
        t.effort = sp.size)
      fun e t => walkingEngine.program.Dereferences e ∧
        t.effort ≤ m.stateBound (walkingEngine.program.initialHeaps "walk") := by
  have hlist : (walkingEngine.program.method? "walk").any fun m => m.IsListMethod := by
    decide +kernel
  have hheaps : walkingEngine.program.initialHeaps "walk" ≠ [] ∧
      ∀ h ∈ walkingEngine.program.initialHeaps "walk", h.IsPlain ∧ h.HasOnlyLinks := by
    decide +kernel
  obtain ⟨m, hm, hlist⟩ := (Option.any_eq_true _ _).1 hlist
  exact ⟨m, hm, generate_terminates compile_walkingSource rfl rfl hm (by simpa using hlist) hheaps.1
    hheaps.2 rfl (Nat.lt_succ_self _)⟩

end Engine

end ShapeCheck
