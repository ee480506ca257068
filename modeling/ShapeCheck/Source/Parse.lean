import ShapeCheck.Source.Reader

/-!
# Parsing

The grammar of the pointer language by recursive descent. A temporal formula is read by precedence,
loosest first: `implies`, `or`, `and`, `until` and `release`, then the unary operators; `implies`,
`until` and `release` group to the right. Recursion is bounded by the number of tokens, since every
loop and every nested formula consumes at least one.
-/

namespace ShapeCheck.Source

namespace Parser

/-- An equality or an inequality sign. -/
def comparison : Parser Bool := do
  match ← peekKind with
  | .symbol .equal =>
    advance
    return true
  | .symbol .unequal =>
    advance
    return false
  | _ => unexpected "'==' or '!='"

/-- A call of the given method. -/
def callOf (method : Ident) : Parser CallExpr := do
  let args ← bracketed operand
  return ⟨method, args, ← spanFrom method.span⟩

/-- The right side of an assignment. -/
def rhs : Parser Rhs := do
  match ← peekKind with
  | .keyword .null =>
    advance
    return .null
  | .keyword .new =>
    advance
    return .new
  | .ident _ =>
    let x ← ident
    match ← peekKind with
    | .symbol .dot =>
      advance
      return .load x (← selector)
    | .symbol .leftParen => return .call (← callOf x)
    | _ => return .var x
  | _ => unexpected "'null', 'new', variable or call"

/-- The condition of a branch. -/
def condition : Parser Condition := do
  if ← accept (.symbol .star) then return .any
  else
    let lhs ← ident
    let equal ← comparison
    return .compare lhs (← operand) equal

/-- A statement that begins with a name. -/
def identStmt : Parser StmtKind := do
  let x ← ident
  match ← peekKind with
  | .symbol .leftParen => return .call (← callOf x)
  | .symbol .dot =>
    advance
    let sel ← selector
    expectSymbol .assign
    return .store x sel (← operand)
  | .symbol .assign =>
    advance
    return .assign x (← rhs)
  | _ => unexpected "'=', '.' or '('"

/-- A statement without its semicolon. -/
def stmtKind : Parser StmtKind := do
  match ← peekKind with
  | .keyword .if =>
    advance
    let cond ← condition
    expectKeyword .goto
    return .branch cond (← ident)
  | .keyword .goto =>
    advance
    return .goto (← ident)
  | .keyword .return =>
    advance
    if (← peekKind) = .symbol .semicolon then return .return none
    else return .return (some (← ident))
  | .keyword .skip =>
    advance
    return .skip
  | .ident _ => identStmt
  | _ => unexpected "statement"

/-- A statement behind the given labels. -/
def stmt (labels : List Ident) : Parser Stmt := do
  let start ← here
  let kind ← stmtKind
  expectSymbol .semicolon
  return ⟨labels, kind, ← spanFrom start⟩

/-- Names that are followed by a colon. -/
def labelsIn : (steps : Nat) → Parser (List Ident)
  | 0 => return []
  | steps + 1 => do
    match (← get).ahead.map Token.kind with
    | .ident _ :: .symbol .colon :: _ =>
      let label ← ident
      expectSymbol .colon
      return label :: (← labelsIn steps)
    | _ => return []

/-- The labels in front of a statement or of the end of a body. -/
def labels : Parser (List Ident) := do
  labelsIn (← get).ahead.length

/-- The statements of a body up to the closing brace, and the labels in front of it. -/
def bodyIn : (steps : Nat) → Parser (List Stmt × List Ident)
  | 0 => unexpected "statement"
  | steps + 1 => do
    let names ← labels
    if ← accept (.symbol .rightBrace) then return ([], names)
    else
      let first ← stmt names
      let (rest, last) ← bodyIn steps
      return (first :: rest, last)

/-- A method. -/
def methodDecl : Parser MethodDecl := do
  let start ← here
  expectKeyword .method
  let name ← ident
  let params ← bracketed ident
  expectSymbol .leftBrace
  let (body, endLabels) ← bodyIn (← get).ahead.length
  return ⟨name, params, body, endLabels, ← spanFrom start⟩

/-- A proposition without brackets. -/
def proposition : Parser Proposition := do
  match ← peekKind with
  | .keyword .terminated =>
    advance
    return .terminated
  | .keyword .reach =>
    advance
    expectSymbol .leftParen
    let source ← ident
    expectSymbol .comma
    let target ← operand
    expectSymbol .rightParen
    return .reach source.name target.name?
  | .ident _ =>
    let lhs ← ident
    let equal ← comparison
    return .compare lhs.name (← operand).name? equal
  | _ => unexpected "proposition"

/-- A proposition in brackets. -/
def atom : Parser Temporal := do
  let start ← here
  expectSymbol .leftBracket
  let p ← proposition
  expectSymbol .rightBracket
  return .atom p (← spanFrom start)

/-- The unary operator that a reserved word stands for. -/
def unary? : TokenKind → Option (Temporal → Temporal)
  | .keyword .not => some .not
  | .keyword .next => some .next
  | .keyword .always => some .always
  | .keyword .eventually => some .eventually
  | _ => none

mutual

/-- A formula: a disjunction, or an implication that groups to the right. -/
def implication : (steps : Nat) → Parser Temporal
  | 0 => unexpected "formula"
  | steps + 1 => do
    let a ← disjunction steps
    if ← accept (.keyword .implies) then return .implies a (← implication steps)
    else return a

/-- Conjunctions with `or` between them. -/
def disjunction : (steps : Nat) → Parser Temporal
  | 0 => unexpected "formula"
  | steps + 1 => do
    disjunctionFrom steps (← conjunction steps)

/-- The rest of a disjunction, which groups to the left. -/
def disjunctionFrom : (steps : Nat) → Temporal → Parser Temporal
  | 0, _ => unexpected "formula"
  | steps + 1, a => do
    if ← accept (.keyword .or) then disjunctionFrom steps (.or a (← conjunction steps))
    else return a

/-- Until formulae with `and` between them. -/
def conjunction : (steps : Nat) → Parser Temporal
  | 0 => unexpected "formula"
  | steps + 1 => do
    conjunctionFrom steps (← binary steps)

/-- The rest of a conjunction, which groups to the left. -/
def conjunctionFrom : (steps : Nat) → Temporal → Parser Temporal
  | 0, _ => unexpected "formula"
  | steps + 1, a => do
    if ← accept (.keyword .and) then conjunctionFrom steps (.and a (← binary steps))
    else return a

/-- A unary formula, or an until or a release that groups to the right. -/
def binary : (steps : Nat) → Parser Temporal
  | 0 => unexpected "formula"
  | steps + 1 => do
    let a ← unary steps
    if ← accept (.keyword .until) then return .until a (← binary steps)
    else if ← accept (.keyword .release) then return .release a (← binary steps)
    else return a

/-- A unary operator in front of a unary formula, or a primary formula. -/
def unary : (steps : Nat) → Parser Temporal
  | 0 => unexpected "formula"
  | steps + 1 => do
    match unary? (← peekKind) with
    | some op =>
      advance
      return op (← unary steps)
    | none => primary steps

/-- A constant, a formula in round brackets, or an atom. -/
def primary : (steps : Nat) → Parser Temporal
  | 0 => unexpected "formula"
  | steps + 1 => do
    match ← peekKind with
    | .keyword .true =>
      advance
      return .const true
    | .keyword .false =>
      advance
      return .const false
    | .symbol .leftParen =>
      advance
      let a ← implication steps
      expectSymbol .rightParen
      return a
    | .symbol .leftBracket => atom
    | _ => unexpected "formula"

end

/-- A temporal formula. Between two tokens at most six operators are entered. -/
def temporal : Parser Temporal := do
  implication (8 * ((← get).ahead.length + 1))

/-- A property. -/
def propertyDecl : Parser PropertyDecl := do
  let start ← here
  expectKeyword .property
  let name ← ident
  expectSymbol .leftBrace
  let formula ← temporal
  expectSymbol .rightBrace
  return ⟨name, formula, ← spanFrom start⟩

/-- The initial value of a variable. -/
def shape : Parser Shape := do
  match ← peekKind with
  | .keyword .null =>
    advance
    return .null
  | .keyword .list =>
    advance
    return .list (← integer)
  | .keyword .cycle =>
    advance
    return .cycle (← integer)
  | .ident _ => return .alias (← ident)
  | _ => unexpected "'null', 'list N', 'cycle N' or variable"

/-- A variable with its initial value. -/
def binding : Parser Binding := do
  let start ← here
  let var ← ident
  expectSymbol .assign
  let value ← shape
  expectSymbol .semicolon
  return ⟨var, value, ← spanFrom start⟩

/-- The variables of an initial heap up to the closing brace. -/
def bindingsIn : (steps : Nat) → Parser (List Binding)
  | 0 => unexpected "identifier"
  | steps + 1 => do
    if ← accept (.symbol .rightBrace) then return []
    else
      let first ← binding
      return first :: (← bindingsIn steps)

/-- An initial heap. -/
def initDecl : Parser InitDecl := do
  let start ← here
  expectKeyword .init
  let method ← ident
  expectSymbol .leftBrace
  let bindings ← bindingsIn (← get).ahead.length
  return ⟨method, bindings, ← spanFrom start⟩

/-- A declaration. -/
def decl : Parser Decl := do
  match ← peekKind with
  | .keyword .method => return .method (← methodDecl)
  | .keyword .property => return .property (← propertyDecl)
  | .keyword .init => return .init (← initDecl)
  | _ => unexpected "declaration"

/-- Declarations up to the end of the text. -/
def declsIn : (steps : Nat) → Parser (List Decl)
  | 0 => return []
  | steps + 1 => do
    if (← peekKind) = .eof then return []
    else
      let first ← decl
      return first :: (← declsIn steps)

/-- A whole program. -/
def program : Parser Program := do
  let start ← here
  let decls ← declsIn (← get).ahead.length
  return ⟨decls, ← spanFrom start⟩

end Parser

/-- Read a construct from the beginning of a text; what follows it is ignored. -/
def parseWith {α : Type} (p : Parser α) (src : String) : Except ParseError α :=
  (p.run (.ofText src)).map Prod.fst

/-- Read a program. -/
def parse (src : String) : Except ParseError Program :=
  parseWith Parser.program src

end ShapeCheck.Source
