import ShapeCheck.Code.Resolve
import ShapeCheck.Proofs.Access
import Mathlib.Data.List.Basic

/-!
# Programs that resolve

A program as written resolves if and only if its names are right: methods, properties and the labels of
a method are told apart by their names, jumps go to labels of their method, calls fit a method that is
declared, initial heaps belong to a method that is declared, and an alias stands for a variable bound
earlier. A method that resolves has one statement for each that is written and a return after the
last, each on the line of its place, and jumps lead to the lines that carry their labels.

## Main results

* `exists_resolve_iff`: when a program resolves.
* `translates_of_resolve`: what its methods are.
-/

namespace ShapeCheck

open List

namespace Source

/-- The label that a statement may jump to. -/
def StmtKind.target? : StmtKind → Option Ident
  | .branch _ target | .goto target => some target
  | _ => none

/-- The call that a statement makes. -/
def StmtKind.call? : StmtKind → Option CallExpr
  | .assign _ (.call c) | .call c => some c
  | _ => none

namespace MethodDecl

/-- The labels of a method in order, those at its end included. -/
def labels (d : MethodDecl) : List Ident :=
  d.body.flatMap Stmt.labels ++ d.endLabels

/-- The line carries the label: the label stands in front of the statement on that line, or the line is
the one after the last statement and the label stands at the end. -/
def Carries (d : MethodDecl) (label : String) (line : Nat) : Prop :=
  (∃ s, d.body[line]? = some s ∧ label ∈ s.labels.map Ident.name) ∨
    line = d.body.length ∧ label ∈ d.endLabels.map Ident.name

end MethodDecl

/-- The names of a program are right. -/
structure Program.IsResolvable (p : Program) : Prop where
  methods : (p.methods.map (·.name.name)).Nodup
  properties : (p.properties.map (·.name.name)).Nodup
  labels : ∀ d ∈ p.methods, (d.labels.map Ident.name).Nodup
  targets : ∀ d ∈ p.methods, ∀ s ∈ d.body, ∀ x ∈ s.kind.target?, x.name ∈ d.labels.map Ident.name
  calls : ∀ d ∈ p.methods, ∀ s ∈ d.body, ∀ c ∈ s.kind.call?,
    ∃ callee ∈ p.methods, callee.name.name = c.method.name ∧ callee.params.length = c.args.length
  inits : ∀ i ∈ p.inits, ∃ d ∈ p.methods, d.name.name = i.method.name
  aliases : ∀ i ∈ p.inits, ∀ before b after x, i.bindings = before ++ b :: after →
    b.shape = .alias x → ∃ c ∈ before, c.var.name = x.name

end Source

namespace Code

/-! ### Computations that may fail -/

section Computations

variable {ε α β : Type}

variable {x : Except ε α} {b : β} {a : α}

theorem exists_of_bind_eq_ok {f : α → Except ε β} (hb : x >>= f = .ok b) :
    ∃ a, x = .ok a ∧ f a = .ok b := by
  cases x with
  | error e => cases hb
  | ok a => exact ⟨a, rfl, hb⟩

theorem exists_bind_iff {f : α → Except ε β} :
    (∃ b, x >>= f = .ok b) ↔ ∃ a, x = .ok a ∧ ∃ b, f a = .ok b := by
  constructor
  · rintro ⟨b, hb⟩
    obtain ⟨a, ha, hb⟩ := exists_of_bind_eq_ok hb
    exact ⟨a, ha, b, hb⟩
  · rintro ⟨a, rfl, hb⟩
    exact hb

theorem eq_ok_of_toOption (hx : x.toOption = some a) : x = .ok a := by
  cases x with
  | error e => cases hx
  | ok b => exact congrArg Except.ok (Option.some.inj hx)

/-- A fold that ends well has kept what every step of it keeps. -/
theorem of_foldlM_eq_ok {f : β → α → Except ε β} {I : β → Prop} {l : List α} {c : β} (hb : I b)
    (hstep : ∀ a ∈ l, ∀ b b', I b → f b a = .ok b' → I b') (hc : l.foldlM f b = .ok c) : I c := by
  induction l generalizing b with
  | nil => exact Except.ok.inj hc ▸ hb
  | cons a l ih =>
    obtain ⟨b', hb', hc⟩ := exists_of_bind_eq_ok hc
    exact ih (hstep a mem_cons_self b b' hb hb')
      (fun a' ha' => hstep a' (mem_cons_of_mem _ ha')) hc

variable {f : α → Except ε β} {l : List α} {bs : List β}

theorem map_eq_of_mapM (hbs : l.mapM f = .ok bs) : l.map f = bs.map .ok := by
  induction l generalizing bs with
  | nil => exact Except.ok.inj hbs ▸ rfl
  | cons a l ih =>
    rw [mapM_cons] at hbs
    obtain ⟨b, hb, hbs⟩ := exists_of_bind_eq_ok hbs
    obtain ⟨bs', hbs', hbs⟩ := exists_of_bind_eq_ok hbs
    obtain rfl := Except.ok.inj hbs
    rw [map_cons, map_cons, hb, ih hbs']

theorem exists_of_mem_mapM (hbs : l.mapM f = .ok bs) (hb : b ∈ bs) : ∃ a ∈ l, f a = .ok b :=
  mem_map.1 (map_eq_of_mapM hbs ▸ mem_map_of_mem hb)

theorem exists_mem_of_mapM (hbs : l.mapM f = .ok bs) (ha : a ∈ l) : ∃ b ∈ bs, f a = .ok b := by
  have hmem : f a ∈ bs.map .ok := map_eq_of_mapM hbs ▸ mem_map_of_mem ha
  obtain ⟨b, hb, heq⟩ := mem_map.1 hmem
  exact ⟨b, hb, heq.symm⟩

theorem exists_mapM_iff : (∃ bs, l.mapM f = .ok bs) ↔ ∀ a ∈ l, ∃ b, f a = .ok b := by
  constructor
  · rintro ⟨bs, hbs⟩ a ha
    obtain ⟨b, -, hb⟩ := exists_mem_of_mapM hbs ha
    exact ⟨b, hb⟩
  · intro hall
    induction l with
    | nil => exact ⟨[], rfl⟩
    | cons a l ih =>
      obtain ⟨⟨b, hb⟩, hall⟩ := forall_mem_cons.1 hall
      obtain ⟨bs, hbs⟩ := ih hall
      exact ⟨b :: bs, by rw [mapM_cons, hb, hbs]; rfl⟩

theorem getElem?_of_mapM (hbs : l.mapM f = .ok bs) {i : Nat} (ha : l[i]? = some a) :
    ∃ b, bs[i]? = some b ∧ f a = .ok b := by
  have hget : bs[i]?.map .ok = some (f a) := by
    rw [← getElem?_map, ← map_eq_of_mapM hbs, getElem?_map, ha, Option.map_some]
  obtain ⟨b, hb, heq⟩ := Option.map_eq_some_iff.1 hget
  exact ⟨b, hb, heq.symm⟩

end Computations

/-! ### Tables of names -/

section Table

variable {ε α β : Type} {key : α → String} {value : α → β} {error : α → ε} {l : List α}
  {table table' : SortedMap String β}

/-- Enter a value under a name that has none yet. -/
def enter (key : α → String) (value : α → β) (error : α → ε) (table : SortedMap String β) (a : α) :
    Except ε (SortedMap String β) :=
  if table.contains (key a) then .error (error a) else .ok (table.insert (key a) (value a))

theorem enter_eq_ok_iff {a : α} : enter key value error table a = .ok table' ↔
    table.find? (key a) = none ∧ table.insert (key a) (value a) = table' := by
  rw [enter, SortedMap.contains]
  cases table.find? (key a) with
  | none => simp
  | some b => simp

theorem find?_insert_eq_none_iff {x y : String} {b : β} :
    (table.insert x b).find? y = none ↔ y ≠ x ∧ table.find? y = none := by
  rw [SortedMap.find?_insert]
  split
  · next heq => simp [heq]
  · next hne => simp [hne]

/-- A table can be filled if and only if the names are new and differ. -/
theorem exists_foldlM_enter_iff : (∃ table', l.foldlM (enter key value error) table = .ok table') ↔
    (l.map key).Nodup ∧ ∀ a ∈ l, table.find? (key a) = none := by
  induction l generalizing table with
  | nil => exact ⟨fun _ => ⟨nodup_nil, forall_mem_nil _⟩, fun _ => ⟨table, rfl⟩⟩
  | cons a l ih =>
    rw [foldlM_cons, exists_bind_iff, map_cons, nodup_cons, forall_mem_cons]
    constructor
    · rintro ⟨table', hstep, hrest⟩
      obtain ⟨hnone, rfl⟩ := enter_eq_ok_iff.1 hstep
      obtain ⟨hnodup, hall⟩ := ih.1 hrest
      refine ⟨⟨fun hmem => ?_, hnodup⟩, hnone, fun b hb => (find?_insert_eq_none_iff.1 (hall b hb)).2⟩
      obtain ⟨b, hb, heq⟩ := mem_map.1 hmem
      exact (find?_insert_eq_none_iff.1 (hall b hb)).1 heq
    · rintro ⟨⟨hne, hnodup⟩, hnone, hall⟩
      refine ⟨_, enter_eq_ok_iff.2 ⟨hnone, rfl⟩, ih.2 ⟨hnodup, fun b hb => ?_⟩⟩
      exact find?_insert_eq_none_iff.2 ⟨fun heq => hne (heq ▸ mem_map_of_mem hb), hall b hb⟩

theorem find?_foldlM_enter (h : l.foldlM (enter key value error) table = .ok table') {x : String}
    {b : β} : table'.find? x = some b ↔ table.find? x = some b ∨ ∃ a ∈ l, key a = x ∧ value a = b := by
  induction l generalizing table with
  | nil =>
    obtain rfl := Except.ok.inj h
    simp
  | cons a l ih =>
    obtain ⟨next, hstep, hrest⟩ := exists_of_bind_eq_ok h
    obtain ⟨hnone, rfl⟩ := enter_eq_ok_iff.1 hstep
    rw [ih hrest, SortedMap.find?_insert, exists_mem_cons_iff, ← or_assoc]
    refine or_congr_left ?_
    split
    · next heq =>
      subst heq
      simp [hnone]
    · next hne => simp [Ne.symm hne]

end Table

theorem signatures_eq (methods : List Source.MethodDecl) : signatures methods =
    methods.foldlM (enter (·.name.name) (·.params.length)
      fun d => .duplicateMethod d.name.name d.name.span) ∅ :=
  rfl

theorem labelLines_eq (d : Source.MethodDecl) : labelLines d =
    (placedLabels d).foldlM (enter (·.1.name) (·.2) fun p => .duplicateLabel p.1.name p.1.span) ∅ :=
  rfl

theorem exists_signatures_iff {methods : List Source.MethodDecl} :
    (∃ sigs, signatures methods = .ok sigs) ↔ (methods.map (·.name.name)).Nodup := by
  rw [signatures_eq, exists_foldlM_enter_iff]
  exact and_iff_left fun _ _ => SortedMap.find?_empty

/-- A signature is that of a method. -/
theorem find?_signatures {methods : List Source.MethodDecl} {sigs : Signatures}
    (hsigs : signatures methods = .ok sigs) {x : String} {n : Nat} :
    sigs.find? x = some n ↔ ∃ d ∈ methods, d.name.name = x ∧ d.params.length = n := by
  rw [signatures_eq] at hsigs
  rw [find?_foldlM_enter hsigs, SortedMap.find?_empty]
  exact or_iff_right (by simp)

/-! ### Labels -/

section Labels

variable {d : Source.MethodDecl} {labels : Labels}

theorem map_fst_placedLabels (d : Source.MethodDecl) : (placedLabels d).map Prod.fst = d.labels := by
  have hbody (l : List Source.Stmt) (n : Nat) :
      ((l.zipIdx n).flatMap fun p => p.1.labels.map (·, p.2)).map Prod.fst =
        l.flatMap Source.Stmt.labels := by
    induction l generalizing n with
    | nil => rfl
    | cons s l ih => simp [zipIdx_cons, ih, Function.comp_def]
  rw [placedLabels, map_append, Source.MethodDecl.labels]
  congr 1
  · exact hbody d.body 0
  · simp [Function.comp_def]

variable {label : String} {line : Nat}

/-- A label is placed on the line that carries it. -/
theorem exists_mem_placedLabels_iff :
    (∃ p ∈ placedLabels d, p.1.name = label ∧ p.2 = line) ↔ d.Carries label line := by
  rw [placedLabels, Source.MethodDecl.Carries]
  constructor
  · rintro ⟨⟨x, j⟩, hp, rfl, rfl⟩
    rcases mem_append.1 hp with hp | hp
    · obtain ⟨⟨s, i⟩, hi, hx⟩ := mem_flatMap.1 hp
      obtain ⟨y, hy, heq⟩ := mem_map.1 hx
      obtain ⟨rfl, rfl⟩ := Prod.mk.inj heq
      exact .inl ⟨s, mem_zipIdx_iff_getElem?.1 hi, mem_map_of_mem hy⟩
    · obtain ⟨y, hy, heq⟩ := mem_map.1 hp
      obtain ⟨rfl, rfl⟩ := Prod.mk.inj heq
      exact .inr ⟨rfl, mem_map_of_mem hy⟩
  · rintro (⟨s, hs, hlabel⟩ | ⟨rfl, hlabel⟩)
    · obtain ⟨x, hx, rfl⟩ := mem_map.1 hlabel
      refine ⟨(x, line), mem_append_left _ (mem_flatMap.2 ⟨(s, line), ?_, ?_⟩), rfl, rfl⟩
      · exact mem_zipIdx_iff_getElem?.2 hs
      · exact mem_map_of_mem hx
    · obtain ⟨x, hx, rfl⟩ := mem_map.1 hlabel
      exact ⟨(x, d.body.length), mem_append_right _ (mem_map_of_mem hx), rfl, rfl⟩

theorem exists_labelLines_iff :
    (∃ labels, labelLines d = .ok labels) ↔ (d.labels.map Source.Ident.name).Nodup := by
  rw [labelLines_eq, exists_foldlM_enter_iff, ← map_fst_placedLabels, List.map_map]
  exact and_iff_left fun _ _ => SortedMap.find?_empty

/-- A label stands for the line that carries it. -/
theorem find?_labelLines (hlabels : labelLines d = .ok labels) :
    labels.find? label = some line ↔ d.Carries label line := by
  rw [labelLines_eq] at hlabels
  rw [find?_foldlM_enter hlabels, SortedMap.find?_empty, ← exists_mem_placedLabels_iff]
  exact or_iff_right (by simp)

theorem isSome_find?_labelLines (hlabels : labelLines d = .ok labels) :
    (labels.find? label).isSome ↔ label ∈ d.labels.map Source.Ident.name := by
  rw [Option.isSome_iff_exists]
  simp only [find?_labelLines hlabels, ← exists_mem_placedLabels_iff, ← map_fst_placedLabels,
    List.map_map, mem_map, Function.comp_apply]
  constructor
  · rintro ⟨line, p, hp, hlabel, -⟩
    exact ⟨p, hp, hlabel⟩
  · rintro ⟨p, hp, hlabel⟩
    exact ⟨p.2, p, hp, hlabel, rfl⟩

theorem find?_labelLines_eq_some_iff (hlabels : labelLines d = .ok labels) :
    labels.find? label = some line ↔ ∀ j, d.Carries label j ↔ j = line := by
  constructor
  · intro hline j
    rw [← find?_labelLines hlabels, hline, Option.some.injEq, eq_comm]
  · intro hline
    exact (find?_labelLines hlabels).2 ((hline line).2 rfl)

end Labels

/-! ### Statements -/

/-- The instruction of a statement of a method. A jump leads to the one line that carries its label. -/
inductive Performs (d : Source.MethodDecl) : Source.StmtKind → Instruction → Prop
  | assignNull {x : Source.Ident} : Performs d (.assign x .null) (.assignNull x.name)
  | assignNew {x : Source.Ident} : Performs d (.assign x .new) (.assignNew x.name)
  | assignVar {x y : Source.Ident} : Performs d (.assign x (.var y)) (.assignVar x.name y.name)
  | assignCall {x : Source.Ident} {c : Source.CallExpr} : Performs d (.assign x (.call c))
      (.call c.method.name (c.args.map Source.Operand.name?) (some x.name))
  | load {x base sel : Source.Ident} :
      Performs d (.assign x (.load base sel)) (.load x.name base.name sel.name)
  | store {base sel : Source.Ident} {value : Source.Operand} :
      Performs d (.store base sel value) (.store base.name sel.name value.name?)
  | call {c : Source.CallExpr} :
      Performs d (.call c) (.call c.method.name (c.args.map Source.Operand.name?) none)
  | branch {cond : Source.Condition} {x : Source.Ident} {line : Nat}
      (hline : ∀ j, d.Carries x.name j ↔ j = line) :
      Performs d (.branch cond x) (.branch (guardOf cond) line)
  | goto {x : Source.Ident} {line : Nat} (hline : ∀ j, d.Carries x.name j ↔ j = line) :
      Performs d (.goto x) (.goto line)
  | return {value : Option Source.Ident} :
      Performs d (.return value) (.return (value.map Source.Ident.name))
  | skip : Performs d .skip .skip

section Statements

variable {sigs : Signatures} {labels : Labels} {d : Source.MethodDecl} {kind : Source.StmtKind}
  {i : Instruction}

/-- The call of a statement, if any, fits a signature. -/
def Signatures.Fit (sigs : Signatures) (kind : Source.StmtKind) : Prop :=
  ∀ c ∈ kind.call?, sigs.find? c.method.name = some c.args.length

theorem call_eq_ok_iff {c : Source.CallExpr} {result : Option Source.Ident} :
    sigs.call c result = .ok i ↔ sigs.find? c.method.name = some c.args.length ∧
      i = .call c.method.name (c.args.map Source.Operand.name?) (result.map Source.Ident.name) := by
  rw [Signatures.call]
  cases sigs.find? c.method.name with
  | none => simp
  | some n =>
    dsimp only
    split
    · next heq => simp [heq, eq_comm]
    · next hne => simp [hne]

theorem map_line_eq_ok_iff {x : Source.Ident} {f : Nat → Instruction} :
    (labels.line x).map f = .ok i ↔ ∃ line, labels.find? x.name = some line ∧ f line = i := by
  rw [Labels.line]
  cases labels.find? x.name with
  | none => simp [Except.map]
  | some line => simp [Except.map]

theorem fit_of_call?_eq_none (hkind : kind.call? = none) : sigs.Fit kind := by
  simp [Signatures.Fit, hkind]

theorem fit_iff_of_call?_eq_some {c : Source.CallExpr} (hkind : kind.call? = some c) :
    sigs.Fit kind ↔ sigs.find? c.method.name = some c.args.length := by
  simp [Signatures.Fit, hkind]

theorem instruction_eq_ok_iff (hlabels : labelLines d = .ok labels) :
    instruction sigs labels kind = .ok i ↔ Performs d kind i ∧ sigs.Fit kind := by
  -- A statement without a call and a jump has one instruction in any case.
  have hplain {kind : Source.StmtKind} {j : Instruction} (hcall : kind.call? = none)
      (hj : Performs d kind j) (huniq : Performs d kind i → i = j) :
      (.ok j : Except ResolveError Instruction) = .ok i ↔ Performs d kind i ∧ sigs.Fit kind :=
    ⟨fun h => Except.ok.inj h ▸ ⟨hj, fit_of_call?_eq_none hcall⟩,
      fun h => congrArg Except.ok (huniq h.1).symm⟩
  cases kind with
  | assign x rhs =>
    cases rhs with
    | null => exact hplain rfl .assignNull fun h => by cases h; rfl
    | new => exact hplain rfl .assignNew fun h => by cases h; rfl
    | var y => exact hplain rfl .assignVar fun h => by cases h; rfl
    | load base sel => exact hplain rfl .load fun h => by cases h; rfl
    | call c =>
      rw [instruction, call_eq_ok_iff, fit_iff_of_call?_eq_some rfl, and_comm]
      refine and_congr_left fun _ => ⟨?_, fun h => by cases h; rfl⟩
      rintro rfl
      exact .assignCall
  | store base sel value => exact hplain rfl .store fun h => by cases h; rfl
  | call c =>
    rw [instruction, call_eq_ok_iff, fit_iff_of_call?_eq_some rfl, and_comm]
    refine and_congr_left fun _ => ⟨?_, fun h => by cases h; rfl⟩
    rintro rfl
    exact .call
  | branch cond target =>
    rw [instruction, map_line_eq_ok_iff, and_iff_left (fit_of_call?_eq_none rfl)]
    constructor
    · rintro ⟨line, hline, rfl⟩
      exact .branch ((find?_labelLines_eq_some_iff hlabels).1 hline)
    · rintro (_ | _)
      next line hline => exact ⟨line, (find?_labelLines_eq_some_iff hlabels).2 hline, rfl⟩
  | goto target =>
    rw [instruction, map_line_eq_ok_iff, and_iff_left (fit_of_call?_eq_none rfl)]
    constructor
    · rintro ⟨line, hline, rfl⟩
      exact .goto ((find?_labelLines_eq_some_iff hlabels).1 hline)
    · rintro (_ | _)
      next line hline => exact ⟨line, (find?_labelLines_eq_some_iff hlabels).2 hline, rfl⟩
  | «return» value => exact hplain rfl .return fun h => by cases h; rfl
  | skip => exact hplain rfl .skip fun h => by cases h; rfl

theorem exists_performs_iff (hlabels : labelLines d = .ok labels) :
    (∃ i, Performs d kind i) ↔ ∀ x ∈ kind.target?, x.name ∈ d.labels.map Source.Ident.name := by
  have hjump {x : Source.Ident} : (∃ line, ∀ j, d.Carries x.name j ↔ j = line) ↔
      x.name ∈ d.labels.map Source.Ident.name := by
    simp only [← find?_labelLines_eq_some_iff hlabels, ← Option.isSome_iff_exists,
      isSome_find?_labelLines hlabels]
  have hplain {kind : Source.StmtKind} {j : Instruction} (htarget : kind.target? = none)
      (hj : Performs d kind j) : (∃ i, Performs d kind i) ↔
        ∀ x ∈ kind.target?, x.name ∈ d.labels.map Source.Ident.name :=
    iff_of_true ⟨j, hj⟩ (by simp [htarget])
  cases kind with
  | assign x rhs =>
    cases rhs with
    | null => exact hplain rfl .assignNull
    | new => exact hplain rfl .assignNew
    | var y => exact hplain rfl .assignVar
    | load base sel => exact hplain rfl .load
    | call c => exact hplain rfl .assignCall
  | store base sel value => exact hplain rfl .store
  | call c => exact hplain rfl .call
  | branch cond target =>
    simp only [Source.StmtKind.target?, Option.mem_some_iff, forall_eq', ← hjump]
    constructor
    · rintro ⟨i, _ | _⟩
      next line hline => exact ⟨line, hline⟩
    · rintro ⟨line, hline⟩
      exact ⟨_, .branch hline⟩
  | goto target =>
    simp only [Source.StmtKind.target?, Option.mem_some_iff, forall_eq', ← hjump]
    constructor
    · rintro ⟨i, _ | _⟩
      next line hline => exact ⟨line, hline⟩
    · rintro ⟨line, hline⟩
      exact ⟨_, .goto hline⟩
  | «return» value => exact hplain rfl .return
  | skip => exact hplain rfl .skip

theorem exists_instruction_iff (hlabels : labelLines d = .ok labels) :
    (∃ i, instruction sigs labels kind = .ok i) ↔
      (∀ x ∈ kind.target?, x.name ∈ d.labels.map Source.Ident.name) ∧ sigs.Fit kind := by
  simp only [instruction_eq_ok_iff hlabels, exists_and_right, exists_performs_iff hlabels]

end Statements

/-! ### Methods -/

/-- A method is the one that is written: its statements do what is written on their lines, and after
them it returns. -/
structure Translates (d : Source.MethodDecl) (m : Method) : Prop where
  name : m.name = d.name.name
  params : m.params = d.params.map Source.Ident.name
  length : m.statements.length = d.body.length + 1
  line : ∀ i stmt, m.statement? i = some stmt → stmt.line = i
  body : ∀ i s, d.body[i]? = some s → ∃ stmt, m.statement? i = some stmt ∧
    Performs d s.kind stmt.instruction ∧ stmt.span = s.span ∧ stmt.source = s.kind.text
  last : m.statement? d.body.length = some ⟨d.body.length, .return none, d.span, "return"⟩

section Methods

variable {sigs : Signatures} {d : Source.MethodDecl} {m : Method}

theorem Translates.forall_mem (h : Translates d m) {I : Statement → Prop}
    (hbody : ∀ stmt s, s ∈ d.body → stmt.line < d.body.length →
      Performs d s.kind stmt.instruction → I stmt)
    (hlast : I ⟨d.body.length, .return none, d.span, "return"⟩) : ∀ stmt ∈ m.statements, I stmt := by
  intro stmt hstmt
  obtain ⟨i, hi⟩ := getElem?_of_mem hstmt
  have hlt : i < d.body.length + 1 := h.length ▸ (List.getElem?_eq_some_iff.1 hi).1
  rcases Nat.lt_or_eq_of_le (Nat.le_of_lt_succ hlt) with hlt | rfl
  · obtain ⟨stmt', hstmt', hperforms, -⟩ := h.body i _ (getElem?_eq_getElem hlt)
    obtain rfl := Option.some.inj (hi.symm.trans hstmt')
    exact hbody stmt _ (getElem_mem hlt) (h.line i stmt hi ▸ hlt) hperforms
  · exact Option.some.inj (h.last.symm.trans hi) ▸ hlast

theorem exists_resolveMethod_iff : (∃ m, resolveMethod sigs d = .ok m) ↔
    (d.labels.map Source.Ident.name).Nodup ∧ ∀ s ∈ d.body,
      (∀ x ∈ s.kind.target?, x.name ∈ d.labels.map Source.Ident.name) ∧ sigs.Fit s.kind := by
  have hbody {labels : Labels} (hlabels : labelLines d = .ok labels) :
      (∀ p ∈ d.body.zipIdx, ∃ stmt : Statement, (do
        return (⟨p.2, ← instruction sigs labels p.1.kind, p.1.span, p.1.kind.text⟩ : Statement)) =
          (.ok stmt : Except ResolveError Statement)) ↔
      ∀ s ∈ d.body, (∀ x ∈ s.kind.target?, x.name ∈ d.labels.map Source.Ident.name) ∧
        sigs.Fit s.kind := by
    simp only [← exists_instruction_iff hlabels]
    constructor
    · intro hall s hs
      obtain ⟨line, hline⟩ := getElem?_of_mem hs
      obtain ⟨stmt, hstmt⟩ := hall (s, line) (mem_zipIdx_iff_getElem?.2 hline)
      obtain ⟨i, hi, -⟩ := exists_of_bind_eq_ok hstmt
      exact ⟨i, hi⟩
    · intro hall p hp
      obtain ⟨i, hi⟩ := hall p.1 (fst_mem_of_mem_zipIdx hp)
      exact exists_bind_iff.2 ⟨i, hi, _, rfl⟩
  rw [← exists_labelLines_iff]
  constructor
  · rintro ⟨m, hm⟩
    obtain ⟨labels, hlabels, hm⟩ := exists_of_bind_eq_ok hm
    obtain ⟨body, hmapM, -⟩ := exists_of_bind_eq_ok hm
    exact ⟨⟨labels, hlabels⟩, (hbody hlabels).1 (exists_mapM_iff.1 ⟨body, hmapM⟩)⟩
  · rintro ⟨⟨labels, hlabels⟩, hall⟩
    obtain ⟨body, hmapM⟩ := exists_mapM_iff.2 ((hbody hlabels).2 hall)
    exact exists_bind_iff.2 ⟨labels, hlabels, exists_bind_iff.2 ⟨body, hmapM, _, rfl⟩⟩

theorem translates_of_resolveMethod (hm : resolveMethod sigs d = .ok m) : Translates d m := by
  obtain ⟨labels, hlabels, hm⟩ := exists_of_bind_eq_ok hm
  obtain ⟨body, hmapM, hm⟩ := exists_of_bind_eq_ok hm
  obtain rfl := Except.ok.inj hm
  have hlength : body.length = d.body.length := by
    simpa using (congrArg List.length (map_eq_of_mapM hmapM)).symm
  have hstmt (i : Nat) (s : Source.Stmt) (hs : d.body[i]? = some s) : ∃ instr,
      body[i]? = some ⟨i, instr, s.span, s.kind.text⟩ ∧ Performs d s.kind instr := by
    have hp : d.body.zipIdx[i]? = some (s, i) := by simp [hs]
    obtain ⟨stmt, hget, hstmt⟩ := getElem?_of_mapM hmapM hp
    obtain ⟨instr, hinstr, hstmt⟩ := exists_of_bind_eq_ok hstmt
    obtain rfl := Except.ok.inj hstmt
    exact ⟨instr, hget, ((instruction_eq_ok_iff hlabels).1 hinstr).1⟩
  have hbody (i : Nat) (hi : i < d.body.length) (stmts : List Statement) :
      (body ++ stmts)[i]? = body[i]? :=
    getElem?_append_left (hlength ▸ hi)
  have hlast (stmt : Statement) : (body ++ [stmt])[d.body.length]? = some stmt := by
    rw [← hlength, getElem?_concat_length]
  refine ⟨rfl, rfl, by simp [hlength], fun i stmt hi => ?_, fun i s hs => ?_, hlast _⟩
  · have hlt : i < body.length + 1 := by
      simpa using (List.getElem?_eq_some_iff.1 hi).1
    rcases Nat.lt_or_eq_of_le (Nat.le_of_lt_succ hlt) with hlt | rfl
    · rw [hlength] at hlt
      obtain ⟨instr, hget, -⟩ := hstmt i _ (getElem?_eq_getElem hlt)
      exact Option.some.inj (hi.symm.trans ((hbody i hlt _).trans hget)) ▸ rfl
    · rw [hlength] at hi ⊢
      exact Option.some.inj (hi.symm.trans (hlast _)) ▸ rfl
  · obtain ⟨instr, hget, hperforms⟩ := hstmt i s hs
    exact ⟨_, (hbody i (List.getElem?_eq_some_iff.1 hs).1 _).trans hget, hperforms, rfl, rfl⟩

end Methods

/-! ### Initial heaps -/

section Inits

variable {h h' : Heap} {b : Source.Binding} {bs : List Source.Binding}

theorem exists_bindVar_iff :
    (∃ h', bind h b = .ok h') ↔ ∀ x, b.shape = .alias x → (h.var? x.name).isSome := by
  rw [bind]
  cases b.shape with
  | null | list n | cycle n => simp
  | «alias» x =>
    simp only [Source.Shape.alias.injEq, forall_eq']
    cases h.var? x.name with
    | none => simp
    | some v => simp

/-- A binding binds its variable. -/
theorem isSome_var?_bind (hb : bind h b = .ok h') {y : String} :
    (h'.var? y).isSome ↔ (h.var? y).isSome ∨ b.var.name = y := by
  have hset (g : Heap) (v : Node) (hg : ∀ y, g.var? y = h.var? y) :
      ((g.setVar b.var.name v).var? y).isSome ↔ (h.var? y).isSome ∨ b.var.name = y := by
    rw [Heap.var?_setVar, hg]
    split
    · next heq => simp [heq]
    · next hne => simp [Ne.symm hne]
  rw [bind] at hb
  split at hb
  · obtain rfl := Except.ok.inj hb
    exact hset h _ fun _ => rfl
  · obtain rfl := Except.ok.inj hb
    exact hset _ _ fun _ => rfl
  · obtain rfl := Except.ok.inj hb
    exact hset _ _ fun _ => rfl
  · split at hb
    · obtain rfl := Except.ok.inj hb
      exact hset h _ fun _ => rfl
    · cases hb

/-- Bindings make a heap if and only if every alias is bound before. -/
theorem exists_foldlM_bind_iff : (∃ h', bs.foldlM bind h = .ok h') ↔
    ∀ before b after x, bs = before ++ b :: after → b.shape = .alias x →
      (h.var? x.name).isSome ∨ ∃ c ∈ before, c.var.name = x.name := by
  induction bs generalizing h with
  | nil => exact ⟨fun _ before b after x heq => by simp at heq, fun _ => ⟨h, rfl⟩⟩
  | cons b bs ih =>
    rw [foldlM_cons, exists_bind_iff]
    constructor
    · rintro ⟨h', hb, hrest⟩ before b' after x heq hshape
      cases before with
      | nil =>
        obtain ⟨rfl, rfl⟩ := List.cons.inj heq
        exact .inl (exists_bindVar_iff.1 ⟨h', hb⟩ x hshape)
      | cons c before =>
        obtain ⟨rfl, rfl⟩ := List.cons.inj heq
        rw [exists_mem_cons_iff, ← or_assoc, ← isSome_var?_bind hb]
        exact ih.1 hrest before b' after x rfl hshape
    · intro hall
      obtain ⟨h', hb⟩ := exists_bindVar_iff.2 fun x hshape =>
        (hall [] b bs x rfl hshape).resolve_right (by simp)
      refine ⟨h', hb, ih.2 fun before b' after x heq hshape => ?_⟩
      have hbound := hall (b :: before) b' after x (congrArg (b :: ·) heq) hshape
      rwa [exists_mem_cons_iff, ← or_assoc, ← isSome_var?_bind hb] at hbound

theorem exists_initialHeap_iff {d : Source.InitDecl} : (∃ h, initialHeap d = .ok h) ↔
    ∀ before b after x, d.bindings = before ++ b :: after → b.shape = .alias x →
      ∃ c ∈ before, c.var.name = x.name := by
  have hempty (x : String) : (Heap.empty.var? x).isSome = false := rfl
  rw [initialHeap, exists_foldlM_bind_iff]
  simp only [hempty, Bool.false_eq_true, false_or]

end Inits

/-! ### Declarations -/

/-- The method without its initial heaps. -/
def Method.bare (m : Method) : Method :=
  { m with inits := [] }

/-- Methods stand under their names. -/
def Program.IsNamed (P : Program) : Prop :=
  ∀ x m, P.method? x = some m → m.name = x

/-- The property that is declared. -/
def property (d : Source.PropertyDecl) : Property :=
  ⟨d.name.name, (temporal d.formula).normalize⟩

section Declarations

variable {P P' : Program} {decl : Source.Decl} {decls : List Source.Decl}

theorem declare_property_eq_ok_iff {d : Source.PropertyDecl} :
    declare P (.property d) = .ok P' ↔ (∀ q ∈ P.properties, q.name ≠ d.name.name) ∧
      { P with properties := P.properties ++ [property d] } = P' := by
  rw [declare]
  split
  · next hany =>
    obtain ⟨q, hq, heq⟩ := any_eq_true.1 hany
    exact iff_of_false (fun hP => by cases hP) fun hP => hP.1 q hq (of_decide_eq_true heq)
  · next hany =>
    have hall : ∀ q ∈ P.properties, q.name ≠ d.name.name := by simpa using hany
    rw [Except.ok.injEq, and_iff_right hall]
    rfl

theorem declare_init_eq_ok_iff {d : Source.InitDecl} :
    declare P (.init d) = .ok P' ↔ ∃ h m, initialHeap d = .ok h ∧
      P.method? d.method.name = some m ∧
      { P with methods := P.methods.insert m.name { m with inits := m.inits ++ [h] } } = P' := by
  rw [declare, Program.method?]
  cases initialHeap d with
  | error e =>
    refine iff_of_false (fun hP => by cases hP) ?_
    rintro ⟨_, _, hh, -⟩
    cases hh
  | ok h =>
    cases P.methods.find? d.method.name with
    | none =>
      refine iff_of_false (fun hP => by cases hP) ?_
      rintro ⟨_, _, -, hm, -⟩
      cases hm
    | some m =>
      constructor
      · intro hP
        exact ⟨h, m, rfl, rfl, Except.ok.inj hP⟩
      · rintro ⟨_, _, ⟨⟩, ⟨⟩, rfl⟩
        rfl

/-- Other declarations change the initial heaps of methods only. -/
theorem method?_declare (hP : P.IsNamed) (hdecl : declare P decl = .ok P') (x : String) :
    (P'.method? x).map Method.bare = (P.method? x).map Method.bare := by
  cases decl with
  | method d => exact Except.ok.inj hdecl ▸ rfl
  | property d =>
    obtain ⟨-, rfl⟩ := declare_property_eq_ok_iff.1 hdecl
    rfl
  | init d =>
    obtain ⟨h, m, -, hm, rfl⟩ := declare_init_eq_ok_iff.1 hdecl
    show ((P.methods.insert m.name _).find? x).map _ = _
    rw [SortedMap.find?_insert]
    split
    · next heq =>
      have hx : P.method? x = some m := by
        rw [heq, hP _ m hm]
        exact hm
      rw [hx]
      rfl
    · rfl

theorem Program.IsNamed.of_bare (hP : P.IsNamed)
    (hbare : ∀ x, (P'.method? x).map Method.bare = (P.method? x).map Method.bare) : P'.IsNamed := by
  intro x m' hm'
  have hx := hbare x
  rw [hm', Option.map_some, eq_comm, Option.map_eq_some_iff] at hx
  obtain ⟨m, hm, heq⟩ := hx
  exact (congrArg Method.name heq).symm.trans (hP x m hm)

theorem method?_foldlM_declare (hP : P.IsNamed) (hdecls : decls.foldlM declare P = .ok P')
    (x : String) : (P'.method? x).map Method.bare = (P.method? x).map Method.bare := by
  induction decls generalizing P with
  | nil => exact Except.ok.inj hdecls ▸ rfl
  | cons decl decls ih =>
    obtain ⟨Q, hQ, hdecls⟩ := exists_of_bind_eq_ok hdecls
    have hbare := method?_declare hP hQ
    exact (ih (hP.of_bare hbare) hdecls).trans (hbare x)

/-- The properties are those that are declared. -/
theorem properties_foldlM_declare (span : Source.Span) (hdecls : decls.foldlM declare P = .ok P') :
    P'.properties = P.properties ++ (Source.Program.mk decls span).properties.map property := by
  induction decls generalizing P with
  | nil => exact Except.ok.inj hdecls ▸ (append_nil _).symm
  | cons decl decls ih =>
    obtain ⟨Q, hQ, hdecls⟩ := exists_of_bind_eq_ok hdecls
    rw [ih hdecls]
    cases decl with
    | method d => exact Except.ok.inj hQ ▸ rfl
    | property d =>
      obtain ⟨-, rfl⟩ := declare_property_eq_ok_iff.1 hQ
      exact append_assoc _ _ _
    | init d =>
      obtain ⟨h, m, -, -, rfl⟩ := declare_init_eq_ok_iff.1 hQ
      rfl

/-- Other declarations can be added if and only if the properties are new and differ, and initial heaps
exist and belong to methods. -/
theorem exists_foldlM_declare_iff (span : Source.Span) (hP : P.IsNamed) :
    (∃ P', decls.foldlM declare P = .ok P') ↔
    ((Source.Program.mk decls span).properties.map (·.name.name)).Nodup ∧
    (∀ d ∈ (Source.Program.mk decls span).properties, ∀ q ∈ P.properties, q.name ≠ d.name.name) ∧
    ∀ i ∈ (Source.Program.mk decls span).inits,
      (∃ h, initialHeap i = .ok h) ∧ (P.method? i.method.name).isSome := by
  induction decls generalizing P with
  | nil =>
    exact ⟨fun _ => ⟨nodup_nil, forall_mem_nil _, forall_mem_nil _⟩,
      fun _ => ⟨P, rfl⟩⟩
  | cons decl decls ih =>
    rw [foldlM_cons, exists_bind_iff]
    have hsome {Q : Program} (hQ : declare P decl = .ok Q) (x : String) :
        (Q.method? x).isSome = (P.method? x).isSome := by
      rw [← Option.isSome_map, method?_declare hP hQ, Option.isSome_map]
    have hnamed {Q : Program} (hQ : declare P decl = .ok Q) : Q.IsNamed :=
      hP.of_bare (method?_declare hP hQ)
    cases decl with
    | method d =>
      constructor
      · rintro ⟨Q, hQ, hrest⟩
        obtain rfl := Except.ok.inj hQ
        exact (ih hP).1 hrest
      · intro hall
        exact ⟨P, rfl, (ih hP).2 hall⟩
    | property d =>
      constructor
      · rintro ⟨Q, hQ, hrest⟩
        obtain ⟨hnodup, hdiffer, hinits⟩ := (ih (hnamed hQ)).1 hrest
        obtain ⟨hnew, rfl⟩ := declare_property_eq_ok_iff.1 hQ
        refine ⟨nodup_cons.2 ⟨fun hmem => ?_, hnodup⟩, forall_mem_cons.2 ⟨hnew, ?_⟩, hinits⟩
        · obtain ⟨e, he, heq⟩ := mem_map.1 hmem
          exact hdiffer e he (property d) (by simp) heq.symm
        · exact fun e he q hq => hdiffer e he q (mem_append_left _ hq)
      · rintro ⟨hnodup, hdiffer, hinits⟩
        obtain ⟨hne, hnodup⟩ := nodup_cons.1 hnodup
        obtain ⟨hnew, hdiffer⟩ := forall_mem_cons.1 hdiffer
        have hQ := declare_property_eq_ok_iff.2 ⟨hnew, rfl⟩
        refine ⟨_, hQ, (ih (hnamed hQ)).2 ⟨hnodup, fun e he => ?_, hinits⟩⟩
        refine forall_mem_append.2 ⟨hdiffer e he, ?_⟩
        refine forall_mem_singleton.2 fun heq => hne ?_
        exact mem_map.2 ⟨e, he, heq.symm⟩
    | init d =>
      constructor
      · rintro ⟨Q, hQ, hrest⟩
        obtain ⟨hnodup, hdiffer, hinits⟩ := (ih (hnamed hQ)).1 hrest
        simp only [hsome hQ] at hinits
        obtain ⟨h, m, hh, hm, rfl⟩ := declare_init_eq_ok_iff.1 hQ
        exact ⟨hnodup, hdiffer, forall_mem_cons.2 ⟨⟨⟨h, hh⟩, by rw [hm]; rfl⟩, hinits⟩⟩
      · rintro ⟨hnodup, hdiffer, hinits⟩
        obtain ⟨⟨⟨h, hh⟩, hm⟩, hinits⟩ := forall_mem_cons.1 hinits
        obtain ⟨m, hm⟩ := Option.isSome_iff_exists.1 hm
        have hQ := declare_init_eq_ok_iff.2 ⟨h, m, hh, hm, rfl⟩
        refine ⟨_, hQ, (ih (hnamed hQ)).2 ⟨hnodup, hdiffer, ?_⟩⟩
        simp only [hsome hQ]
        exact hinits

end Declarations

/-! ### Programs -/

section Programs

variable {p : Source.Program} {P : Program}

variable {x : String} {m : Method}

theorem isSome_find?_ofList {β : Type} {l : List (String × β)} :
    ((SortedMap.ofList l).find? x).isSome ↔ ∃ e ∈ l, e.1 = x := by
  simp [SortedMap.find?_ofList]

/-- The program before other declarations are added. -/
def start (methods : List Method) : Program :=
  { methods := .ofList (methods.map fun m => (m.name, m)) }

theorem mem_of_method?_start {methods : List Method} (hm : (start methods).method? x = some m) :
    m ∈ methods ∧ m.name = x := by
  obtain ⟨m', hm', heq⟩ := mem_map.1 (SortedMap.mem_of_find?_ofList hm)
  obtain ⟨rfl, rfl⟩ := Prod.mk.inj heq
  exact ⟨hm', rfl⟩

theorem isNamed_start (methods : List Method) : (start methods).IsNamed :=
  fun _ _ hm => (mem_of_method?_start hm).2

theorem isSome_method?_start {sigs : Signatures} {ds : List Source.MethodDecl}
    {methods : List Method} (hmapM : ds.mapM (resolveMethod sigs) = .ok methods) :
    ((start methods).method? x).isSome ↔ ∃ d ∈ ds, d.name.name = x := by
  rw [Program.method?, start, isSome_find?_ofList]
  constructor
  · rintro ⟨e, he, rfl⟩
    obtain ⟨m, hm, rfl⟩ := mem_map.1 he
    obtain ⟨d, hd, hm⟩ := exists_of_mem_mapM hmapM hm
    exact ⟨d, hd, (translates_of_resolveMethod hm).name.symm⟩
  · rintro ⟨d, hd, rfl⟩
    obtain ⟨m, hm, hd⟩ := exists_mem_of_mapM hmapM hd
    exact ⟨_, mem_map_of_mem hm, (translates_of_resolveMethod hd).name⟩

/-- A program resolves if and only if its names are right. -/
theorem exists_resolve_iff : (∃ P, resolve p = .ok P) ↔ p.IsResolvable := by
  constructor
  · rintro ⟨P, hP⟩
    obtain ⟨sigs, hsigs, hP⟩ := exists_of_bind_eq_ok hP
    obtain ⟨methods, hmapM, hP⟩ := exists_of_bind_eq_ok hP
    have hmethods (d : Source.MethodDecl) (hd : d ∈ p.methods) :=
      exists_resolveMethod_iff.1 (exists_mapM_iff.1 ⟨methods, hmapM⟩ d hd)
    obtain ⟨hproperties, -, hinits⟩ :=
      (exists_foldlM_declare_iff p.span (isNamed_start methods)).1 ⟨P, hP⟩
    exact
      { methods := exists_signatures_iff.1 ⟨sigs, hsigs⟩
        properties := hproperties
        labels := fun d hd => (hmethods d hd).1
        targets := fun d hd s hs => ((hmethods d hd).2 s hs).1
        calls := fun d hd s hs c hc => (find?_signatures hsigs).1 (((hmethods d hd).2 s hs).2 c hc)
        inits := fun i hi => (isSome_method?_start hmapM).1 (hinits i hi).2
        aliases := fun i hi => exists_initialHeap_iff.1 (hinits i hi).1 }
  · intro hp
    obtain ⟨sigs, hsigs⟩ := exists_signatures_iff.2 hp.methods
    have hfit (d : Source.MethodDecl) (hd : d ∈ p.methods) (s : Source.Stmt) (hs : s ∈ d.body) :
        sigs.Fit s.kind :=
      fun c hc => (find?_signatures hsigs).2 (hp.calls d hd s hs c hc)
    obtain ⟨methods, hmapM⟩ := exists_mapM_iff.2 fun d hd => exists_resolveMethod_iff.2
      ⟨hp.labels d hd, fun s hs => ⟨hp.targets d hd s hs, hfit d hd s hs⟩⟩
    have hdecls : ∃ P, p.decls.foldlM declare (start methods) = .ok P := by
      refine (exists_foldlM_declare_iff p.span (isNamed_start methods)).2
        ⟨hp.properties, fun _ _ => forall_mem_nil _, fun i hi => ⟨?_, ?_⟩⟩
      · exact exists_initialHeap_iff.2 (hp.aliases i hi)
      · exact (isSome_method?_start hmapM).2 (hp.inits i hi)
    exact exists_bind_iff.2 ⟨sigs, hsigs, exists_bind_iff.2 ⟨methods, hmapM, hdecls⟩⟩

theorem bare_of_resolveMethod {sigs : Signatures} {d : Source.MethodDecl}
    (hm : resolveMethod sigs d = .ok m) : m.bare = m := by
  obtain ⟨labels, -, hm⟩ := exists_of_bind_eq_ok hm
  obtain ⟨body, -, hm⟩ := exists_of_bind_eq_ok hm
  exact Except.ok.inj hm ▸ rfl

/-- The methods of a program that resolves are those that are declared, each without its initial
heaps as it resolves by itself. -/
theorem method?_of_resolve (hP : resolve p = .ok P) : ∃ sigs,
    (∀ d ∈ p.methods, (P.method? d.name.name).isSome) ∧ ∀ x m, P.method? x = some m →
      ∃ d ∈ p.methods, d.name.name = x ∧ resolveMethod sigs d = .ok m.bare := by
  obtain ⟨sigs, -, hP⟩ := exists_of_bind_eq_ok hP
  obtain ⟨methods, hmapM, hP⟩ := exists_of_bind_eq_ok hP
  have hbare := method?_foldlM_declare (isNamed_start methods) hP
  refine ⟨sigs, fun d hd => ?_, fun x m hm => ?_⟩
  · rw [← Option.isSome_map, hbare, Option.isSome_map]
    exact (isSome_method?_start hmapM).2 ⟨d, hd, rfl⟩
  · have hx := hbare x
    rw [hm, Option.map_some, eq_comm, Option.map_eq_some_iff] at hx
    obtain ⟨m₀, hm₀, heq⟩ := hx
    obtain ⟨hmem, rfl⟩ := mem_of_method?_start hm₀
    obtain ⟨d, hd, hresolve⟩ := exists_of_mem_mapM hmapM hmem
    refine ⟨d, hd, (translates_of_resolveMethod hresolve).name.symm, ?_⟩
    rw [← heq, bare_of_resolveMethod hresolve, hresolve]

theorem translates_of_resolve (hP : resolve p = .ok P) (hm : P.method? x = some m) :
    ∃ d ∈ p.methods, d.name.name = x ∧ Translates d m := by
  obtain ⟨sigs, -, hmethods⟩ := method?_of_resolve hP
  obtain ⟨d, hd, hx, hresolve⟩ := hmethods x m hm
  have htranslates := translates_of_resolveMethod hresolve
  exact ⟨d, hd, hx, { htranslates with }⟩

/-- The initial heaps of a method are those that are declared. -/
theorem exists_init_of_resolve (hP : resolve p = .ok P) (hm : P.method? x = some m) :
    ∀ h ∈ m.inits, ∃ d, Source.Decl.init d ∈ p.decls ∧ initialHeap d = .ok h := by
  obtain ⟨sigs, -, hP⟩ := exists_of_bind_eq_ok hP
  obtain ⟨methods, hmapM, hP⟩ := exists_of_bind_eq_ok hP
  refine of_foldlM_eq_ok (I := fun P => ∀ x m, P.method? x = some m → ∀ h ∈ m.inits,
    ∃ d, Source.Decl.init d ∈ p.decls ∧ initialHeap d = .ok h) (fun x m hm h hh => ?_)
    (fun decl hdecl Q Q' hQ hQ' x m hm => ?_) hP x m hm
  · obtain ⟨d, -, hd⟩ := exists_of_mem_mapM hmapM (mem_of_method?_start hm).1
    rw [← bare_of_resolveMethod hd] at hh
    cases hh
  · cases decl with
    | method d =>
      obtain rfl := Except.ok.inj hQ'
      exact hQ x m hm
    | property d =>
      obtain ⟨-, rfl⟩ := declare_property_eq_ok_iff.1 hQ'
      exact hQ x m hm
    | init d =>
      obtain ⟨h, m', hh, hm', rfl⟩ := declare_init_eq_ok_iff.1 hQ'
      rw [Program.method?, SortedMap.find?_insert] at hm
      split at hm
      · obtain rfl := Option.some.inj hm
        exact forall_mem_append.2 ⟨hQ _ m' hm', forall_mem_singleton.2 ⟨d, hdecl, hh⟩⟩
      · exact hQ x m hm

theorem exists_resolve_of_compile {src : String} (hP : compile src = .ok P) :
    ∃ p, Source.parse src = .ok p ∧ resolve p = .ok P := by
  have hmapError {ε ε' α : Type} {f : ε → ε'} {x : Except ε α} {a : α}
      (hx : x.mapError f = .ok a) : x = .ok a := by
    cases x with
    | error e => cases hx
    | ok b => exact congrArg Except.ok (Except.ok.inj hx)
  obtain ⟨p, hp, hP⟩ := exists_of_bind_eq_ok hP
  exact ⟨p, hmapError hp, hmapError hP⟩

theorem properties_of_resolve (hP : resolve p = .ok P) :
    P.properties = p.properties.map property := by
  obtain ⟨sigs, -, hP⟩ := exists_of_bind_eq_ok hP
  obtain ⟨methods, -, hP⟩ := exists_of_bind_eq_ok hP
  exact properties_foldlM_declare p.span hP

end Programs

end Code

end ShapeCheck
