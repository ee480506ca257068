import ShapeCheck.Collection.Lists
import ShapeCheck.Source.Text
import ShapeCheck.Source.Parse
import ShapeCheck.Proofs.Spelling

/-!
# Programs as tokens

Every syntax tree is a sequence of tokens, with round brackets around every binary connective of a
formula. A tree can be written if all its tokens can: its names are words that are not reserved, its
numbers fit in 32 bits, and a selector is any word. The places that a tree remembers do not count.
-/

namespace ShapeCheck.Source

open List

/-- The token of a value: a name, or null if there is none. -/
def valueToken : Option String → TokenKind
  | none => .keyword .null
  | some x => .ident x

/-- The token of a name. -/
def Ident.token (x : Ident) : TokenKind :=
  .ident x.name

/-- The token of a selector, which may be a reserved word. -/
def Ident.selectorToken (x : Ident) : TokenKind :=
  wordKind x.name.toList

/-- The token of an operand. -/
def Operand.token (a : Operand) : TokenKind :=
  valueToken a.name?

/-- The sign of an equality or an inequality. -/
def comparisonToken (equal : Bool) : TokenKind :=
  .symbol (if equal then .equal else .unequal)

/-- A list in round brackets. -/
def bracketTokens (items : List TokenKind) : List TokenKind :=
  .symbol .leftParen :: (items.intersperse (.symbol .comma) ++ [.symbol .rightParen])

/-- The tokens of a call. -/
def CallExpr.tokens (c : CallExpr) : List TokenKind :=
  c.method.token :: bracketTokens (c.args.map Operand.token)

/-- The tokens of the right side of an assignment. -/
def Rhs.tokens : Rhs → List TokenKind
  | .null => [.keyword .null]
  | .new => [.keyword .new]
  | .var x => [x.token]
  | .load base selector => [base.token, .symbol .dot, selector.selectorToken]
  | .call c => c.tokens

/-- The tokens of a condition. -/
def Condition.tokens : Condition → List TokenKind
  | .any => [.symbol .star]
  | .compare lhs rhs equal => [lhs.token, comparisonToken equal, rhs.token]

/-- The tokens of a statement without labels and semicolon. -/
def StmtKind.tokens : StmtKind → List TokenKind
  | .assign target value => target.token :: .symbol .assign :: value.tokens
  | .store base selector value =>
    [base.token, .symbol .dot, selector.selectorToken, .symbol .assign, value.token]
  | .call c => c.tokens
  | .branch cond target => .keyword .if :: (cond.tokens ++ [.keyword .goto, target.token])
  | .goto target => [.keyword .goto, target.token]
  | .return (some x) => [.keyword .return, x.token]
  | .return none => [.keyword .return]
  | .skip => [.keyword .skip]

/-- Labels, each with its colon. -/
def labelTokens (labels : List Ident) : List TokenKind :=
  labels.flatMap fun x => [x.token, .symbol .colon]

/-- The tokens of a statement. -/
def Stmt.tokens (s : Stmt) : List TokenKind :=
  labelTokens s.labels ++ s.kind.tokens ++ [.symbol .semicolon]

/-- The tokens of a method. -/
def MethodDecl.tokens (d : MethodDecl) : List TokenKind :=
  .keyword .method :: d.name.token :: (bracketTokens (d.params.map Ident.token) ++
    .symbol .leftBrace :: (d.body.flatMap Stmt.tokens ++ labelTokens d.endLabels ++
      [.symbol .rightBrace]))

/-- The tokens of a proposition. -/
def Proposition.tokens : Proposition → List TokenKind
  | .compare lhs rhs equal => [.ident lhs, comparisonToken equal, valueToken rhs]
  | .reach source target =>
    [.keyword .reach, .symbol .leftParen, .ident source, .symbol .comma, valueToken target,
      .symbol .rightParen]
  | .terminated => [.keyword .terminated]

/-- Two formulae with a connective between them, in round brackets. -/
def binaryTokens (connective : Keyword) (lhs rhs : List TokenKind) : List TokenKind :=
  .symbol .leftParen :: (lhs ++ .keyword connective :: (rhs ++ [.symbol .rightParen]))

/-- The tokens of a temporal formula. -/
def Temporal.tokens : Temporal → List TokenKind
  | .const value => [.keyword (if value then .true else .false)]
  | .atom p _ => .symbol .leftBracket :: (p.tokens ++ [.symbol .rightBracket])
  | .not a => .keyword .not :: a.tokens
  | .next a => .keyword .next :: a.tokens
  | .always a => .keyword .always :: a.tokens
  | .eventually a => .keyword .eventually :: a.tokens
  | .and a b => binaryTokens .and a.tokens b.tokens
  | .or a b => binaryTokens .or a.tokens b.tokens
  | .implies a b => binaryTokens .implies a.tokens b.tokens
  | .until a b => binaryTokens .until a.tokens b.tokens
  | .release a b => binaryTokens .release a.tokens b.tokens

/-- The tokens of a property. -/
def PropertyDecl.tokens (d : PropertyDecl) : List TokenKind :=
  .keyword .property :: d.name.token :: .symbol .leftBrace ::
    (d.formula.tokens ++ [.symbol .rightBrace])

/-- The tokens of an initial value. -/
def Shape.tokens : Shape → List TokenKind
  | .null => [.keyword .null]
  | .list n => [.keyword .list, .integer n]
  | .cycle n => [.keyword .cycle, .integer n]
  | .alias x => [x.token]

/-- The tokens of a variable with its initial value. -/
def Binding.tokens (b : Binding) : List TokenKind :=
  b.var.token :: .symbol .assign :: (b.shape.tokens ++ [.symbol .semicolon])

/-- The tokens of an initial heap. -/
def InitDecl.tokens (d : InitDecl) : List TokenKind :=
  .keyword .init :: d.method.token :: .symbol .leftBrace ::
    (d.bindings.flatMap Binding.tokens ++ [.symbol .rightBrace])

/-- The tokens of a declaration. -/
def Decl.tokens : Decl → List TokenKind
  | .method d => d.tokens
  | .property d => d.tokens
  | .init d => d.tokens

/-- The tokens of a program. -/
def Program.tokens (p : Program) : List TokenKind :=
  p.decls.flatMap Decl.tokens

/-- The tokens with single blanks between them. -/
def render (ks : List TokenKind) : String :=
  " ".intercalate (ks.map TokenKind.text)

/-- A program as a text: its tokens with single blanks between them. -/
def Program.rendering (p : Program) : String :=
  render p.tokens

/-- All names of the proposition are words that are not reserved. -/
def Proposition.IsWritable (p : Proposition) : Prop :=
  ∀ k ∈ p.tokens, k.IsWritable

/-- All names of the formula are words that are not reserved. -/
def Temporal.IsWritable (t : Temporal) : Prop :=
  ∀ k ∈ t.tokens, k.IsWritable

/-- All names of the declaration are words that are not reserved, apart from selectors, which are any
words, and all numbers fit in 32 bits. -/
def Decl.IsWritable (d : Decl) : Prop :=
  ∀ k ∈ d.tokens, k.IsWritable

/-- All declarations can be written. -/
def Program.IsWritable (p : Program) : Prop :=
  ∀ d ∈ p.decls, d.IsWritable

/-- The name alone. -/
def Ident.bare (x : Ident) : Ident :=
  ⟨x.name, {}⟩

/-- The operand without places. -/
def Operand.bare : Operand → Operand
  | .null => .null
  | .var x => .var x.bare

/-- The call without places. -/
def CallExpr.bare (c : CallExpr) : CallExpr :=
  ⟨c.method.bare, c.args.map Operand.bare, {}⟩

/-- The right side without places. -/
def Rhs.bare : Rhs → Rhs
  | .null => .null
  | .new => .new
  | .var x => .var x.bare
  | .load base selector => .load base.bare selector.bare
  | .call c => .call c.bare

/-- The condition without places. -/
def Condition.bare : Condition → Condition
  | .any => .any
  | .compare lhs rhs equal => .compare lhs.bare rhs.bare equal

/-- What a statement does, without places. -/
def StmtKind.bare : StmtKind → StmtKind
  | .assign target value => .assign target.bare value.bare
  | .store base selector value => .store base.bare selector.bare value.bare
  | .call c => .call c.bare
  | .branch cond target => .branch cond.bare target.bare
  | .goto target => .goto target.bare
  | .return value => .return (value.map Ident.bare)
  | .skip => .skip

/-- The statement without places. -/
def Stmt.bare (s : Stmt) : Stmt :=
  ⟨s.labels.map Ident.bare, s.kind.bare, {}⟩

/-- The method without places. -/
def MethodDecl.bare (d : MethodDecl) : MethodDecl :=
  ⟨d.name.bare, d.params.map Ident.bare, d.body.map Stmt.bare, d.endLabels.map Ident.bare, {}⟩

/-- The formula without places. -/
def Temporal.bare : Temporal → Temporal
  | .const value => .const value
  | .atom p _ => .atom p {}
  | .not a => .not a.bare
  | .next a => .next a.bare
  | .always a => .always a.bare
  | .eventually a => .eventually a.bare
  | .and a b => .and a.bare b.bare
  | .or a b => .or a.bare b.bare
  | .implies a b => .implies a.bare b.bare
  | .until a b => .until a.bare b.bare
  | .release a b => .release a.bare b.bare

/-- The property without places. -/
def PropertyDecl.bare (d : PropertyDecl) : PropertyDecl :=
  ⟨d.name.bare, d.formula.bare, {}⟩

/-- The initial value without places. -/
def Shape.bare : Shape → Shape
  | .null => .null
  | .list n => .list n
  | .cycle n => .cycle n
  | .alias x => .alias x.bare

/-- The variable and its initial value, without places. -/
def Binding.bare (b : Binding) : Binding :=
  ⟨b.var.bare, b.shape.bare, {}⟩

/-- The initial heap without places. -/
def InitDecl.bare (d : InitDecl) : InitDecl :=
  ⟨d.method.bare, d.bindings.map Binding.bare, {}⟩

/-- The declaration without places. -/
def Decl.bare : Decl → Decl
  | .method d => .method d.bare
  | .property d => .property d.bare
  | .init d => .init d.bare

/-- The program without places. -/
def Program.bare (p : Program) : Program :=
  ⟨p.decls.map Decl.bare, {}⟩

theorem spells_render {ks : List TokenKind} (hks : ∀ k ∈ ks, k.IsWritable) :
    Spells ks (render ks).toList := by
  induction ks with
  | nil => exact .empty
  | cons k ks ih =>
    obtain ⟨hk, hks⟩ := forall_mem_cons.1 hks
    cases ks with
    | nil =>
      have hspells := Spells.token hk (fun _ hc => by cases hc) .empty
      simpa [render] using hspells
    | cons k' ks =>
      have hspells := Spells.token hk
        (fun c hc => by
          obtain rfl := Option.some.inj hc
          exact k.endsBefore_of_isBlank (by decide)) (ih hks).blank
      simpa [render] using hspells

theorem Program.spells_rendering {p : Program} (hp : p.IsWritable) :
    Spells p.tokens p.rendering.toList :=
  spells_render fun k hk => by
    obtain ⟨d, hd, hk⟩ := mem_flatMap.1 hk
    exact hp d hd k hk

section Written

variable {ks : List TokenKind} {rest : List Char}

theorem spells_value {x? : Option String} (hx : (valueToken x?).IsWritable) (hrest : Spells ks rest)
    (hend : EndsWord rest) : Spells (valueToken x? :: ks) ((x?.getD "null").toList ++ rest) := by
  cases x? with
  | none => exact .keyword .null hrest hend
  | some x => exact .ident hx hrest hend

theorem Operand.spells_text {a : Operand} (ha : a.token.IsWritable) (hrest : Spells ks rest)
    (hend : EndsWord rest) : Spells (a.token :: ks) (a.text.toList ++ rest) := by
  cases a with
  | null => exact .keyword .null hrest hend
  | var x => exact .ident ha hrest hend

theorem spells_comparison (equal : Bool) (hrest : Spells ks rest) :
    Spells (comparisonToken equal :: ks) ((comparisonText equal).toList ++ rest) := by
  cases equal with
  | true => exact Spells.symbol (s := .equal) (by simp) hrest
  | false => exact Spells.symbol (s := .unequal) (by simp) hrest

theorem Ident.spells_selector {x : Ident} (hx : x.selectorToken.IsWritable) (hrest : Spells ks rest)
    (hend : EndsWord rest) : Spells (x.selectorToken :: ks) (x.name.toList ++ rest) := by
  rw [Ident.selectorToken, wordKind, String.ofList_toList] at hx ⊢
  split at hx
  · next k hk =>
    have htext : k.text = x.name := by
      rw [Keyword.ofText?] at hk
      exact of_decide_eq_true (find?_some hk :)
    rw [← htext]
    exact .keyword k hrest hend
  · exact .ident hx hrest hend

theorem spells_arguments {args : List Operand} (hargs : ∀ a ∈ args, a.token.IsWritable)
    (hrest : Spells ks rest) (hend : EndsWord rest) :
    Spells ((args.map Operand.token).intersperse (.symbol .comma) ++ ks)
      ((", ".intercalate (args.map Operand.text)).toList ++ rest) := by
  induction args with
  | nil => simpa using hrest
  | cons a args ih =>
    obtain ⟨ha, hargs⟩ := forall_mem_cons.1 hargs
    cases args with
    | nil => simpa using Operand.spells_text ha hrest hend
    | cons b args =>
      have hcomma := Spells.symbol (s := .comma) (by simp) (ih hargs).blank
      have hspells := Operand.spells_text ha hcomma (endsWord_symbol _)
      simpa [Symbol.text] using hspells

theorem CallExpr.spells_text {c : CallExpr} (hc : ∀ k ∈ c.tokens, k.IsWritable)
    (hrest : Spells ks rest) : Spells (c.tokens ++ ks) (c.text.toList ++ rest) := by
  simp only [CallExpr.tokens, bracketTokens, forall_mem_cons, forall_mem_append] at hc
  obtain ⟨hmethod, -, hargs, -⟩ := hc
  have hclose := Spells.symbol (s := .rightParen) (by simp) hrest
  have hwritable : ∀ a ∈ c.args, a.token.IsWritable := fun a ha =>
    hargs _ (mem_intersperse (mem_map_of_mem ha))
  have hopen := Spells.symbol (s := .leftParen) (by simp)
    (spells_arguments hwritable hclose (endsWord_symbol _))
  have hspells := Spells.ident (x := c.method.name) hmethod hopen (endsWord_symbol _)
  simpa [CallExpr.tokens, CallExpr.text, bracketTokens, Ident.token, Symbol.text] using hspells

theorem Rhs.spells_text {value : Rhs} (hvalue : ∀ k ∈ value.tokens, k.IsWritable)
    (hrest : Spells ks rest) (hend : EndsWord rest) :
    Spells (value.tokens ++ ks) (value.text.toList ++ rest) := by
  cases value with
  | null => exact .keyword .null hrest hend
  | new => exact .keyword .new hrest hend
  | var x => exact .ident (hvalue _ mem_cons_self) hrest hend
  | load base sel =>
    simp only [Rhs.tokens, forall_mem_cons] at hvalue
    obtain ⟨hbase, -, hsel, -⟩ := hvalue
    have hdot := Spells.symbol (s := .dot) (by simp) (Ident.spells_selector hsel hrest hend)
    have hspells := Spells.ident (x := base.name) hbase hdot (endsWord_symbol _)
    simpa [Rhs.tokens, Rhs.text, Ident.token, Symbol.text] using hspells
  | call c => exact CallExpr.spells_text hvalue hrest

theorem Condition.spells_text {cond : Condition} (hcond : ∀ k ∈ cond.tokens, k.IsWritable)
    (hrest : Spells ks rest) (hend : EndsWord rest) :
    Spells (cond.tokens ++ ks) (cond.text.toList ++ rest) := by
  cases cond with
  | any => exact Spells.symbol (s := .star) (by simp) hrest
  | compare lhs rhs equal =>
    simp only [Condition.tokens, forall_mem_cons] at hcond
    obtain ⟨hlhs, -, hrhs, -⟩ := hcond
    have hcompare := spells_comparison equal (Operand.spells_text hrhs hrest hend).blank
    have hspells := Spells.ident (x := lhs.name) hlhs hcompare.blank endsWord_blank
    simpa [Condition.tokens, Condition.text, Ident.token] using hspells

end Written

/-- The plain written form of a statement has the tokens of the statement. -/
theorem StmtKind.spells_text {kind : StmtKind} (hkind : ∀ k ∈ kind.tokens, k.IsWritable) :
    Spells kind.tokens kind.text.toList := by
  cases kind with
  | assign target value =>
    simp only [StmtKind.tokens, forall_mem_cons] at hkind
    obtain ⟨htarget, -, hvalue⟩ := hkind
    have hassign := Spells.assign (Rhs.spells_text hvalue .empty endsWord_nil)
    have hspells := Spells.ident (x := target.name) htarget hassign.blank endsWord_blank
    simpa [StmtKind.tokens, StmtKind.text, Ident.token] using hspells
  | store base sel value =>
    simp only [StmtKind.tokens, forall_mem_cons] at hkind
    obtain ⟨hbase, -, hsel, -, hvalue, -⟩ := hkind
    have hassign := Spells.assign (Operand.spells_text hvalue .empty endsWord_nil)
    have hdot := Spells.symbol (s := .dot) (by simp)
      (Ident.spells_selector hsel hassign.blank endsWord_blank)
    have hspells := Spells.ident (x := base.name) hbase hdot (endsWord_symbol _)
    simpa [StmtKind.tokens, StmtKind.text, Ident.token, Symbol.text] using hspells
  | call c =>
    have hspells := CallExpr.spells_text hkind .empty
    rwa [append_nil, append_nil] at hspells
  | branch cond target =>
    simp only [StmtKind.tokens, forall_mem_cons, forall_mem_append] at hkind
    obtain ⟨-, hcond, -, htarget, -⟩ := hkind
    have hgoto := Spells.keyword .goto (Spells.ident (x := target.name) htarget .empty endsWord_nil).blank
      endsWord_blank
    have hspells := Spells.keyword .if (Condition.spells_text hcond hgoto.blank endsWord_blank).blank
      endsWord_blank
    simpa [StmtKind.tokens, StmtKind.text, Ident.token, Keyword.text] using hspells
  | goto target =>
    have htarget : IsName target.name := (forall_mem_cons.1 (forall_mem_cons.1 hkind).2).1
    have hspells := Spells.keyword .goto (Spells.ident htarget .empty endsWord_nil).blank endsWord_blank
    simpa [StmtKind.tokens, StmtKind.text, Ident.token, Keyword.text] using hspells
  | «return» value =>
    cases value with
    | none => exact Spells.keyword .return .empty endsWord_nil
    | some x =>
      have hx : IsName x.name := (forall_mem_cons.1 (forall_mem_cons.1 hkind).2).1
      have hspells := Spells.keyword .return (Spells.ident hx .empty endsWord_nil).blank endsWord_blank
      simpa [StmtKind.tokens, StmtKind.text, Ident.token, Keyword.text] using hspells
  | skip => exact Spells.keyword .skip .empty endsWord_nil

end ShapeCheck.Source
