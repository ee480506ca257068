import ShapeCheck.Code.Program
import ShapeCheck.Proofs.Access
import Mathlib.Data.Set.Basic

/-!
# Running programs on plain heaps

A heap is *plain* if it has no summaries and null has no selectors: it is a heap of the machine and
not a shape. On plain heaps a program runs without any analysis. A call runs the body of the callee,
with variables of its own, on the cells it shares with the caller; afterwards the caller has its
variables back.

A run is a relation between a method, the heap it starts with and an outcome, which is a place and a
heap or a dereference of null. Runs are stratified by how deep their calls nest. A property of heaps
is kept by all runs if every change of the heap, the start of a call and its end keep it
(`Program.RunsWithin.invariant`).
-/

namespace ShapeCheck

open List

namespace Heap

/-- All references are to nodes, there are no summaries, and null has no selectors. -/
structure IsPlain (c : Heap) : Prop where
  inRange : c.InRange
  summaries : c.summaries = []
  null : c.cell Node.null = ∅

theorem isPlain_iff {c : Heap} :
    c.IsPlain ↔ c.InRange ∧ c.summaries = [] ∧ c.cell Node.null = ∅ :=
  ⟨fun hc => ⟨hc.inRange, hc.summaries, hc.null⟩, fun hc => ⟨hc.1, hc.2.1, hc.2.2⟩⟩

instance (c : Heap) : Decidable c.IsPlain :=
  decidable_of_iff _ isPlain_iff.symm

/-- The heap that a callee starts with: the cells of the caller, and the parameters bound. -/
def bindArgs (c : Heap) (params : List String) (args : List Node) : Heap :=
  { c with vars := SortedMap.ofList (params.zip args) }

/-- The heap after a call: the cells that the callee leaves in `c'`, the variables of the caller, and
the result bound. -/
def restore (c c' : Heap) (result? : Option String) : Heap :=
  let restored := { c' with vars := c.vars }
  match result? with
  | none => restored
  | some x => restored.setVar x (c'.valueOf (some Call.returnVar))

end Heap

namespace Code

/-- Where a run has come to. -/
inductive Outcome where
  /-- The run is at a place with a heap. -/
  | state (location : Location) (heap : Heap)
  /-- The run went through null. -/
  | fault

namespace Method

variable (P : Program) (Q : Method → Heap → Outcome → Prop) (m : Method)

/-- One step of a method from a place and a heap, where `Q` gives the outcomes of calls. -/
inductive Steps : Location → Heap → Outcome → Prop
  | move {i : Nat} {stmt : Statement} {c : Heap} {next : List (Location × Heap)} {loc : Location}
      {c' : Heap} (hstmt : m.statement? i = some stmt) (hstep : stmt.step c = .moves next)
      (hnext : (loc, c') ∈ next) : Steps (.line i) c (.state loc c')
  | fault {i : Nat} {stmt : Statement} {c : Heap} (hstmt : m.statement? i = some stmt)
      (hstep : stmt.step c = .fault) : Steps (.line i) c .fault
  | call {i : Nat} {stmt : Statement} {c : Heap} {site : CallSite} {callee : Method} {c' : Heap}
      (hstmt : m.statement? i = some stmt) (hstep : stmt.step c = .call site)
      (hcallee : P.method? site.method = some callee)
      (hrun : Q callee (c.bindArgs callee.params site.args) (.state .exit c')) :
      Steps (.line i) c (.state stmt.next (c.restore c' site.result))
  | callFault {i : Nat} {stmt : Statement} {c : Heap} {site : CallSite} {callee : Method}
      (hstmt : m.statement? i = some stmt) (hstep : stmt.step c = .call site)
      (hcallee : P.method? site.method = some callee)
      (hrun : Q callee (c.bindArgs callee.params site.args) .fault) : Steps (.line i) c .fault

/-- The outcomes of a method from a heap, where `Q` gives the outcomes of calls. -/
inductive Runs (c : Heap) : Outcome → Prop
  | start : Runs c (.state (.line 0) c)
  | step {loc : Location} {c' : Heap} {o : Outcome} (hrun : Runs c (.state loc c'))
      (hstep : Steps P Q m loc c' o) : Runs c o

end Method

namespace Program

/-- The outcomes of a method from a heap by runs whose calls, the method included, nest at most `n`
deep. -/
def RunsWithin (P : Program) : Nat → Method → Heap → Outcome → Prop
  | 0, _, _, _ => False
  | n + 1, m, c, o => m.Runs P (P.RunsWithin n) c o

/-- The outcomes of a method from a heap. -/
def Runs (P : Program) (m : Method) (c : Heap) (o : Outcome) : Prop :=
  ∃ n, P.RunsWithin n m c o

end Program

/-- The variables that an instruction mentions. -/
def Instruction.names : Instruction → List String
  | .assignNull x | .assignNew x => [x]
  | .assignVar x y => [x, y]
  | .load x base _ => [x, base]
  | .store base _ value? => base :: value?.toList
  | .call _ args result? => args.filterMap id ++ result?.toList
  | .branch .any _ | .goto _ | .skip => []
  | .branch (.compare lhs rhs? _) _ => lhs :: rhs?.toList
  | .return value? => value?.toList

/-- No statement mentions a reserved variable. -/
def Statement.IsUnreserved (s : Statement) : Prop :=
  ∀ x ∈ s.instruction.names, Call.isReserved x = false

/-- Neither the parameters nor the statements mention a reserved variable. -/
structure Method.IsUnreserved (m : Method) : Prop where
  params : ∀ x ∈ m.params, Call.isReserved x = false
  statements : ∀ s ∈ m.statements, s.IsUnreserved

/-- No method mentions a reserved variable. -/
def Program.IsUnreserved (P : Program) : Prop :=
  ∀ name m, P.method? name = some m → m.IsUnreserved

end Code

namespace Heap

variable {c c' : Heap} {F : Set Node} {u v w : Node} {sel s x y : String}

/-- Null, or a node that a variable names. -/
def IsValue (c : Heap) (v : Node) : Prop :=
  v = Node.null ∨ ∃ x, c.var? x = some v

theorem isValue_valueOf (operand? : Option String) : c.IsValue (c.valueOf operand?) := by
  rw [valueOf]
  cases hv : operand?.bind c.var? with
  | none => exact .inl rfl
  | some v =>
    obtain ⟨x, -, hx⟩ := Option.bind_eq_some_iff.1 hv
    exact .inr ⟨x, hx⟩

theorem IsValue.lt_size (hv : c.IsValue v) (hc : c.InRange) : v < c.size := by
  rcases hv with rfl | ⟨x, hx⟩
  · exact hc.pos
  · exact hc.var x v hx

/-- A statement may assign to a variable of the program and to the one that holds the result. -/
def IsAssignable (x : String) : Prop :=
  Call.isReserved x = false ∨ x = Call.returnVar

/-- The changes that statements make. -/
inductive Change (c : Heap) : Heap → Prop
  | same : Change c c
  | assign {x : String} {v : Node} (hx : IsAssignable x) (hv : c.IsValue v) :
      Change c (c.setVar x v)
  | load {x sel : String} {v w : Node} (hx : IsAssignable x) (hv : c.IsValue v)
      (hw : c.selector? v sel = some w) : Change c (c.setVar x w)
  | new {x : String} (hx : IsAssignable x) : Change c (c.grow.setVar x c.size)
  | store {v w : Node} {sel : String} (hv : c.IsValue v) (hne : v ≠ Node.null)
      (hw : c.IsValue w) : Change c (Code.Statement.stored c v sel w)

@[simp]
theorem size_stored : (Code.Statement.stored c v sel w).size = c.size := by
  rw [Code.Statement.stored]
  split <;> simp

@[simp]
theorem var?_stored : (Code.Statement.stored c v sel w).var? x = c.var? x := by
  rw [Code.Statement.stored]
  split <;> simp

@[simp]
theorem summaries_stored : (Code.Statement.stored c v sel w).summaries = c.summaries := by
  rw [Code.Statement.stored]
  split <;> simp

theorem selector?_stored (hne : v ≠ Node.null) (hv : v < c.size) :
    (Code.Statement.stored c v sel w).selector? u s =
      if u = v ∧ s = sel then (if w = Node.null then none else some w) else c.selector? u s := by
  rw [Code.Statement.stored]
  by_cases hw : w = Node.null
  · rw [if_pos hw, if_pos hw, selector?_dropSelector]
  · simp only [if_neg hw, selector?_setSelector hne, hv, true_and]

theorem selector?_stored_self (hne : v ≠ Node.null) (hv : v < c.size) :
    (Code.Statement.stored c v sel w).selector? v sel = if w = Node.null then none else some w := by
  rw [selector?_stored hne hv, if_pos ⟨rfl, rfl⟩]

theorem selector?_stored_of_ne (hu : ¬(u = v ∧ s = sel)) :
    (Code.Statement.stored c v sel w).selector? u s = c.selector? u s := by
  rw [Code.Statement.stored]
  split
  · rw [selector?_dropSelector, if_neg hu]
  · by_cases hne : v = Node.null
    · rw [setSelector, if_pos hne]
    · rw [selector?_setSelector hne, if_neg fun hand => hu ⟨hand.1, hand.2.2⟩]

theorem cell_stored_of_ne (hne : u ≠ v) : (Code.Statement.stored c v sel w).cell u = c.cell u := by
  rw [Code.Statement.stored, dropSelector, setSelector]
  split
  · rw [cell_modifyCell, if_neg fun hand => hne hand.1]
  · split
    · rfl
    · rw [cell_modifyCell, if_neg fun hand => hne hand.1]

theorem InRange.setVar (hc : c.InRange) (hv : v < c.size) : (c.setVar x v).InRange := by
  refine ⟨hc.pos, hc.selector, fun y w hy => ?_, hc.ends⟩
  rw [var?_setVar] at hy
  split at hy
  · cases hy
    exact hv
  · exact hc.var y w hy

/-- Up to `2 ^ 32` nodes, the number of a new node is not changed in 32 bits. -/
theorem ofIndex_grow (h : c.grow.size ≤ Text.bound32) : Node.ofIndex c.size = c.size :=
  Nat.mod_eq_of_lt (Nat.lt_of_lt_of_le (by simp) h)

theorem InRange.grow (hc : c.InRange) : c.grow.InRange := by
  refine ⟨by simp, fun v sel w hw => ?_, fun x v hx => ?_, fun e he v hv => ?_⟩ <;> rw [size_grow]
  · rw [selector?_grow] at hw
    exact Nat.lt_succ_of_lt (hc.selector v sel w hw)
  · exact Nat.lt_succ_of_lt (hc.var x v hx)
  · exact Nat.lt_succ_of_lt (hc.ends e he v hv)

theorem InRange.stored (hc : c.InRange) (hne : v ≠ Node.null) (hv : v < c.size) (hw : w < c.size) :
    (Code.Statement.stored c v sel w).InRange := by
  refine ⟨by simpa using hc.pos, fun u s t ht => ?_, fun x t hx => ?_, fun e he t ht => ?_⟩ <;>
    rw [size_stored]
  · rw [selector?_stored hne hv] at ht
    split at ht
    · split at ht
      · cases ht
      · cases ht
        exact hw
    · exact hc.selector u s t ht
  · exact hc.var x t (by simpa using hx)
  · exact hc.ends e (by simpa using he) t ht

theorem Change.var?_eq (hchange : c.Change c') (hx : ¬IsAssignable x) : c'.var? x = c.var? x := by
  have hne {y} (hy : IsAssignable y) : x ≠ y := fun heq => hx (heq ▸ hy)
  cases hchange with
  | same => rfl
  | assign hy _ => rw [var?_setVar, if_neg (hne hy)]
  | load hy _ _ => rw [var?_setVar, if_neg (hne hy)]
  | new hy => rw [var?_setVar, if_neg (hne hy), var?_grow]
  | store _ _ _ => rw [var?_stored]

theorem Change.size_le (hchange : c.Change c') : c.size ≤ c'.size := by
  cases hchange <;> simp

theorem Change.summaries_eq (hchange : c.Change c') : c'.summaries = c.summaries := by
  cases hchange with
  | store _ _ _ => exact summaries_stored
  | _ => rfl

@[simp]
theorem size_bindArgs (params : List String) (args : List Node) :
    (c.bindArgs params args).size = c.size :=
  rfl

@[simp]
theorem selector?_bindArgs (params : List String) (args : List Node) :
    (c.bindArgs params args).selector? v sel = c.selector? v sel :=
  rfl

theorem exists_mem_zip_of_var?_bindArgs {params : List String} {args : List Node}
    (hx : (c.bindArgs params args).var? x = some v) : (x, v) ∈ params.zip args :=
  SortedMap.mem_of_find?_ofList hx

@[simp]
theorem size_restore (result? : Option String) : (c.restore c' result?).size = c'.size := by
  cases result? <;> rfl

@[simp]
theorem cell_restore (result? : Option String) :
    (c.restore c' result?).cell v = c'.cell v := by
  cases result? <;> rfl

@[simp]
theorem selector?_restore (result? : Option String) :
    (c.restore c' result?).selector? v sel = c'.selector? v sel := by
  cases result? <;> rfl

@[simp]
theorem summaries_restore (result? : Option String) :
    (c.restore c' result?).summaries = c'.summaries := by
  cases result? <;> rfl

theorem var?_restore (result? : Option String) :
    (c.restore c' result?).var? x =
      if result? = some x then some (c'.valueOf (some Call.returnVar)) else c.var? x := by
  cases result? with
  | none => rfl
  | some y =>
    simp only [restore, var?_setVar, Option.some.injEq, eq_comm (a := y)]
    rfl

/-- A property of heaps that the changes of statements, the start and the end of a call keep. -/
structure IsStable (I : Heap → Prop) : Prop where
  change : ∀ c c', I c → c.Change c' → I c'
  bindArgs : ∀ c params args, I c → (∀ x ∈ params, Call.isReserved x = false) →
    (∀ v ∈ args, c.IsValue v) → I (c.bindArgs params args)
  restore : ∀ c c' result?, I c → I c' → c.size ≤ c'.size →
    (∀ x ∈ result?, Call.isReserved x = false) → I (c.restore c' result?)

end Heap

namespace Code

variable {P : Program} {Q : Method → Heap → Outcome → Prop} {m : Method} {I : Heap → Prop}
  {c c' : Heap} {loc loc' : Location} {o : Outcome} {n k : Nat}

/-- What a statement that goes on does to a heap. -/
inductive Statement.Makes (stmt : Statement) (c : Heap) : Heap → Prop
  | same : stmt.Makes c c
  | assign {x : String} {v : Node} (hx : x ∈ stmt.instruction.names ∨ x = Call.returnVar)
      (hv : c.IsValue v) : stmt.Makes c (c.setVar x v)
  | new {x : String} (hx : x ∈ stmt.instruction.names) : stmt.Makes c (c.grow.setVar x c.size)
  | load {x sel : String} {v w : Node} (hx : x ∈ stmt.instruction.names) (hv : c.IsValue v)
      (hw : c.selector? v sel = some w) : stmt.Makes c (c.setVar x w)
  | store {p : AccessPoint} {w : Node} (hp : stmt.accessPoint? = some p)
      (hne : c.valueOf (some p.base) ≠ Node.null) (hw : c.IsValue w) :
      stmt.Makes c (stored c (c.valueOf (some p.base)) p.selector w)

open Heap in
theorem Statement.makes {stmt : Statement} {next : List (Location × Heap)}
    (hstep : stmt.step c = .moves next) (hnext : (loc, c') ∈ next) : stmt.Makes c c' := by
  rw [step] at hstep
  split at hstep
  case h_1 x hi =>
    cases hstep
    cases mem_singleton.1 hnext
    exact .assign (.inl (by simp [hi, Instruction.names])) (.inl rfl)
  case h_2 x hi =>
    cases hstep
    cases mem_singleton.1 hnext
    exact .new (by simp [hi, Instruction.names])
  case h_3 x y hi =>
    cases hstep
    cases mem_singleton.1 hnext
    exact .assign (.inl (by simp [hi, Instruction.names])) (isValue_valueOf _)
  case h_4 x base sel hi =>
    rw [through] at hstep
    split at hstep
    · cases hstep
    · cases hstep
      cases mem_singleton.1 hnext
      have hx : x ∈ stmt.instruction.names := by simp [hi, Instruction.names]
      cases hw : c.selector? (c.valueOf (some base)) sel with
      | none => exact .assign (.inl hx) (.inl rfl)
      | some w => exact .load hx (isValue_valueOf _) hw
  case h_5 base sel value? hi =>
    rw [through] at hstep
    split at hstep
    · cases hstep
    · next hne =>
      cases hstep
      cases mem_singleton.1 hnext
      exact .store (p := ⟨base, sel⟩) (by rw [accessPoint?, hi]) hne (isValue_valueOf _)
  case h_6 => cases hstep
  case h_7 guard target hi =>
    cases hstep
    rw [mem_append] at hnext
    obtain rfl : c' = c := by
      rcases hnext with hnext | hnext <;> split at hnext <;> simp_all
    exact .same
  case h_8 | h_10 =>
    cases hstep
    cases mem_singleton.1 hnext
    exact .same
  case h_9 value? hi =>
    cases hstep
    cases mem_singleton.1 hnext
    cases value? with
    | none => exact .same
    | some x => exact .assign (.inr rfl) (isValue_valueOf _)

theorem Statement.change {stmt : Statement} {next : List (Location × Heap)}
    (hstmt : stmt.IsUnreserved) (hstep : stmt.step c = .moves next) (hnext : (loc, c') ∈ next) :
    c.Change c' := by
  cases makes hstep hnext with
  | same => exact .same
  | assign hx hv => exact .assign (hx.imp_left (hstmt _)) hv
  | new hx => exact .new (.inl (hstmt _ hx))
  | load hx hv hw => exact .load (.inl (hstmt _ hx)) hv hw
  | store _ hne hw => exact .store (Heap.isValue_valueOf _) hne hw

theorem Statement.stored_or_selector?_eq {stmt : Statement} {next : List (Location × Heap)}
    (hstep : stmt.step c = .moves next) (hnext : (loc, c') ∈ next) :
    (∃ p w, stmt.accessPoint? = some p ∧ c.valueOf (some p.base) ≠ Node.null ∧
      c' = stored c (c.valueOf (some p.base)) p.selector w) ∨
      ∀ v sel, c'.selector? v sel = c.selector? v sel := by
  cases makes hstep hnext with
  | store hp hne _ => exact .inl ⟨_, _, hp, hne, rfl⟩
  | new => exact .inr fun _ _ => Heap.selector?_grow
  | same | assign | load => exact .inr fun _ _ => rfl

theorem Statement.instruction_of_call {stmt : Statement} {site : CallSite}
    (hstep : stmt.step c = .call site) :
    ∃ args, stmt.instruction = .call site.method args site.result ∧
      site.args = args.map c.valueOf := by
  rw [step] at hstep
  split at hstep
  case h_4 | h_5 =>
    rw [through] at hstep
    split at hstep <;> cases hstep
  case h_6 args _ hi =>
    cases hstep
    exact ⟨args, hi, rfl⟩
  all_goals cases hstep

theorem Statement.isValue_of_mem_args {stmt : Statement} {site : CallSite}
    (hstep : stmt.step c = .call site) {v : Node} (hv : v ∈ site.args) : c.IsValue v := by
  obtain ⟨args, -, hargs⟩ := instruction_of_call hstep
  obtain ⟨x, -, rfl⟩ := mem_map.1 (hargs ▸ hv)
  exact Heap.isValue_valueOf x

theorem Statement.isReserved_result {stmt : Statement} {site : CallSite}
    (hstmt : stmt.IsUnreserved) (hstep : stmt.step c = .call site) {x : String}
    (hx : x ∈ site.result) : Call.isReserved x = false := by
  obtain ⟨args, hi, -⟩ := instruction_of_call hstep
  refine hstmt x ?_
  rw [hi, Instruction.names, mem_append, Option.mem_toList]
  exact .inr hx

theorem Method.IsUnreserved.statement {i : Nat} {stmt : Statement} (hm : m.IsUnreserved)
    (hstmt : m.statement? i = some stmt) : stmt.IsUnreserved :=
  hm.statements stmt (mem_of_getElem? hstmt)

/-- The outcomes `Q` of calls keep a property of heaps and lose no nodes. -/
def Keeps (Q : Method → Heap → Outcome → Prop) (I : Heap → Prop) : Prop :=
  ∀ callee d d', callee.IsUnreserved → Q callee d (.state .exit d') →
    d.size ≤ d'.size ∧ (I d → I d')

theorem Method.Steps.invariant (hI : Heap.IsStable I) (hP : P.IsUnreserved) (hm : m.IsUnreserved)
    (hQ : Keeps Q I) (hstep : m.Steps P Q loc c (.state loc' c')) :
    c.size ≤ c'.size ∧ (I c → I c') := by
  cases hstep with
  | move hstmt hstep hnext =>
    have hchange := Statement.change (hm.statement hstmt) hstep hnext
    exact ⟨hchange.size_le, fun hc => hI.change c c' hc hchange⟩
  | call hstmt hstep hcallee hrun =>
    have hcallee := hP _ _ hcallee
    obtain ⟨hsize, hkeep⟩ := hQ _ _ _ hcallee hrun
    rw [Heap.size_bindArgs] at hsize
    refine ⟨by simpa using hsize, fun hc => ?_⟩
    have hstart := hI.bindArgs c _ _ hc hcallee.params
      fun v hv => Statement.isValue_of_mem_args hstep hv
    exact hI.restore c _ _ hc (hkeep hstart) hsize
      fun x hx => Statement.isReserved_result (hm.statement hstmt) hstep hx

theorem Method.Runs.invariant (hI : Heap.IsStable I) (hP : P.IsUnreserved) (hm : m.IsUnreserved)
    (hQ : Keeps Q I) (hrun : m.Runs P Q c (.state loc c')) : c.size ≤ c'.size ∧ (I c → I c') := by
  generalize ho : Outcome.state loc c' = o at hrun
  induction hrun generalizing loc c' with
  | start => cases ho; exact ⟨Nat.le_refl _, id⟩
  | step hrun hstep ih =>
    subst ho
    obtain ⟨hsize, hkeep⟩ := hstep.invariant hI hP hm hQ
    exact ⟨(ih rfl).1.trans hsize, fun hc => hkeep ((ih rfl).2 hc)⟩

namespace Program

/-- What the changes of statements and the calls keep, all runs keep. -/
theorem RunsWithin.invariant (hI : Heap.IsStable I) (hP : P.IsUnreserved) (hm : m.IsUnreserved)
    (hrun : P.RunsWithin n m c (.state loc c')) : c.size ≤ c'.size ∧ (I c → I c') := by
  induction n generalizing m c loc c' with
  | zero => exact hrun.elim
  | succ n ih =>
    exact Method.Runs.invariant hI hP hm (fun callee d d' hcallee hd => ih hcallee hd) hrun

theorem RunsWithin.succ (hrun : P.RunsWithin n m c o) : P.RunsWithin (n + 1) m c o := by
  induction n generalizing m c o with
  | zero => exact hrun.elim
  | succ n ih =>
    induction hrun with
    | start => exact .start
    | step hrun hstep ihrun =>
      refine .step ihrun ?_
      cases hstep with
      | move hstmt hstep hnext => exact .move hstmt hstep hnext
      | fault hstmt hstep => exact .fault hstmt hstep
      | call hstmt hstep hcallee hrun => exact .call hstmt hstep hcallee (ih hrun)
      | callFault hstmt hstep hcallee hrun => exact .callFault hstmt hstep hcallee (ih hrun)

end Program

end Code

namespace Heap

variable {c c' : Heap} {F : Set Node} {u v w : Node} {sel s x y : String}

theorem IsPlain.selector?_null (hc : c.IsPlain) : c.selector? Node.null sel = none := by
  rw [selector?, hc.null, SortedMap.find?_empty]

theorem InRange.keepVars (hc : c.InRange) (p : String → Bool) : (c.keepVars p).InRange := by
  refine ⟨hc.pos, hc.selector, fun x v hx => ?_, hc.ends⟩
  rw [var?_keepVars] at hx
  split at hx
  · exact hc.var x v hx
  · cases hx

theorem IsPlain.keepVars (hc : c.IsPlain) (p : String → Bool) : (c.keepVars p).IsPlain :=
  ⟨hc.inRange.keepVars p, hc.summaries, hc.null⟩

theorem isStable_isPlain : IsStable IsPlain := by
  constructor
  case change =>
    intro c c' hc hchange
    cases hchange with
    | same => exact hc
    | assign _ hv => exact ⟨hc.inRange.setVar (hv.lt_size hc.inRange), hc.summaries, hc.null⟩
    | load _ _ hw =>
      exact ⟨hc.inRange.setVar (hc.inRange.selector _ _ _ hw), hc.summaries, hc.null⟩
    | new _ => exact ⟨hc.inRange.grow.setVar (by simp), hc.summaries, cell_grow.trans hc.null⟩
    | store hv hne hw =>
      have hv := hv.lt_size hc.inRange
      exact ⟨hc.inRange.stored hne hv (hw.lt_size hc.inRange), summaries_stored.trans hc.summaries,
        (cell_stored_of_ne hne.symm).trans hc.null⟩
  case bindArgs =>
    intro c params args hc _ hargs
    refine ⟨⟨hc.inRange.pos, hc.inRange.selector, fun x v hx => ?_, hc.inRange.ends⟩, hc.summaries,
      hc.null⟩
    have hv := (of_mem_zip (exists_mem_zip_of_var?_bindArgs hx)).2
    exact (hargs v hv).lt_size hc.inRange
  case restore =>
    intro c c' result? hc hc' hsize _
    refine ⟨⟨by simpa using hc'.inRange.pos, fun v sel w hw => ?_, fun x v hx => ?_, ?_⟩, ?_, ?_⟩
    · simpa using hc'.inRange.selector v sel w (by simpa using hw)
    · rw [size_restore]
      rw [var?_restore] at hx
      split at hx
      · cases hx
        exact valueOf_lt hc'.inRange _
      · exact (hc.inRange.var x v hx).trans_le hsize
    · simp [hc'.summaries]
    · simp [hc'.summaries]
    · rw [cell_restore, hc'.null]

/-- Variables that statements do not assign to are not there. -/
def IsTidy (c : Heap) : Prop :=
  ∀ x, ¬IsAssignable x → c.var? x = none

theorem isTidy_bindArgs {params : List String} (hparams : ∀ x ∈ params, Call.isReserved x = false)
    (args : List Node) : (c.bindArgs params args).IsTidy := by
  intro x hx
  refine Option.eq_none_iff_forall_ne_some.2 fun v hv => hx (.inl ?_)
  exact hparams x (of_mem_zip (exists_mem_zip_of_var?_bindArgs hv)).1

theorem isStable_isTidy : IsStable IsTidy where
  change c c' hc hchange x hx := (hchange.var?_eq hx).trans (hc x hx)
  bindArgs c params args _ hparams _ := isTidy_bindArgs hparams args
  restore c c' result? hc _ _ hresult x hx := by
    have hne : result? ≠ some x := fun heq => hx (.inl (hresult x heq))
    rw [var?_restore, if_neg hne, hc x hx]

/-- The heap `c'` agrees with `c` outside the set `F`, which has all nodes that are not in `c`, and
the selectors and variables of `c'` do not lead out of `F`. -/
structure Confined (F : Set Node) (c c' : Heap) : Prop where
  null : Node.null ∈ F
  new : ∀ v, c.size ≤ v → v ∈ F
  size : c.size ≤ c'.size
  var : ∀ x v, c'.var? x = some v → v ∈ F
  selector : ∀ v ∈ F, ∀ sel w, c'.selector? v sel = some w → w ∈ F
  outside : ∀ v, v ∉ F → ∀ sel, c'.selector? v sel = c.selector? v sel

theorem Confined.mem_of_isValue (hF : Confined F c c') (hv : c'.IsValue v) : v ∈ F := by
  rcases hv with rfl | ⟨x, hx⟩
  · exact hF.null
  · exact hF.var x v hx

/-- Nothing outside the set changes, since only nodes that variables name are written. -/
theorem isStable_confined : IsStable (Confined F c) where
  change d d' hd hchange := by
    have hsize := hd.size.trans hchange.size_le
    have hbind {e : Heap} {x v} (he : Confined F c e) (hv : v ∈ F) : Confined F c (e.setVar x v) := by
      refine ⟨he.null, he.new, he.size, fun y w hy => ?_, he.selector, he.outside⟩
      rw [var?_setVar] at hy
      split at hy
      · cases hy
        exact hv
      · exact he.var y w hy
    cases hchange with
    | same => exact hd
    | assign _ hv => exact hbind hd (hd.mem_of_isValue hv)
    | load _ hv hw => exact hbind hd (hd.selector _ (hd.mem_of_isValue hv) _ _ hw)
    | new _ =>
      refine hbind ⟨hd.null, hd.new, by simpa using hsize, hd.var, ?_, ?_⟩ (hd.new _ hd.size)
      · simpa using hd.selector
      · simpa using hd.outside
    | @store v w sel hv hne hw =>
      have hvF := hd.mem_of_isValue hv
      refine ⟨hd.null, hd.new, hsize, fun x t hx => hd.var x t (by simpa using hx),
        fun u hu s t ht => ?_, fun u hu s => ?_⟩
      · by_cases hus : u = v ∧ s = sel
        · have hlt := lt_size_of_selector? ht
          rw [size_stored, hus.1] at hlt
          rw [selector?_stored hne hlt, if_pos hus] at ht
          split at ht
          · cases ht
          · cases ht
            exact hd.mem_of_isValue hw
        · rw [selector?_stored_of_ne hus] at ht
          exact hd.selector u hu s t ht
      · have hus : ¬(u = v ∧ s = sel) := fun hus => hu (hus.1.symm ▸ hvF)
        rw [selector?_stored_of_ne hus, hd.outside u hu]
  bindArgs d params args hd _ hargs := by
    refine ⟨hd.null, hd.new, hd.size, fun x v hx => ?_, hd.selector, hd.outside⟩
    exact hd.mem_of_isValue (hargs v (of_mem_zip (exists_mem_zip_of_var?_bindArgs hx)).2)
  restore d d' result? hd hd' _ _ := by
    refine ⟨hd.null, hd.new, by simpa using hd'.size, fun x v hx => ?_, ?_, ?_⟩
    · rw [var?_restore] at hx
      split at hx
      · cases hx
        exact hd'.mem_of_isValue (isValue_valueOf _)
      · exact hd.var x v hx
    · simpa using hd'.selector
    · simpa using hd'.outside

end Heap

end ShapeCheck
