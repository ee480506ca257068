import ShapeCheck.Source.Tree
import ShapeCheck.Text.Quoted

/-!
# Outlines

An outline shows a program as a tree, one leaf a line. The parts of a node are indented by four
blanks and each ends in a comma; a place is shown by its line and column.
-/

namespace ShapeCheck.Source

/-- The lines of an outline. -/
abbrev Outline := List String

namespace Outline

/-- A leaf. -/
def leaf (text : String) : Outline := [text]

/-- Put a comma after the last line. -/
def comma : Outline → Outline
  | [] => []
  | [line] => [line ++ ","]
  | line :: rest => line :: comma rest

/-- Move all lines to the right. -/
def indent (o : Outline) : Outline :=
  o.map ("    " ++ ·)

/-- Name a part of a record. -/
def named (name : String) : Outline → Outline
  | [] => []
  | line :: rest => (name ++ ": " ++ line) :: rest

/-- Parts between an opening and a closing line. -/
def block (opening : String) (parts : List Outline) (closing : String) : Outline :=
  opening :: parts.flatMap (fun o => (comma o).indent) ++ [closing]

/-- A node with named parts. -/
def record (name : String) (parts : List (String × Outline)) : Outline :=
  block (name ++ " \x7b") (parts.map fun (field, o) => named field o) "\x7d"

/-- A node with parts in order. -/
def tuple (name : String) (parts : List Outline) : Outline :=
  block (name ++ "(") parts ")"

/-- A list, which may be empty. -/
def list (parts : List Outline) : Outline :=
  if parts.isEmpty then leaf "[]" else block "[" parts "]"

/-- A part that may be missing. -/
def option : Option Outline → Outline
  | none => leaf "None"
  | some o => tuple "Some" [o]

/-- A truth value. -/
def bool (b : Bool) : Outline :=
  leaf (if b then "true" else "false")

/-- A quoted text. -/
def quoted (s : String) : Outline :=
  leaf (Text.quoteText s)

end Outline

open Outline

/-- The line and the column of a place. -/
def Span.outline (s : Span) : Outline :=
  leaf (s.line.repr ++ ":" ++ s.column.repr)

/-- The outline of a name. -/
def Ident.outline (x : Ident) : Outline :=
  record "Ident" [("name", quoted x.name), ("span", x.span.outline)]

/-- The outline of an operand. -/
def Operand.outline : Operand → Outline
  | .null => leaf "Null"
  | .var x => tuple "Var" [x.outline]

/-- The outline of a call. -/
def CallExpr.outline (c : CallExpr) : Outline :=
  record "CallExpr" [("method", c.method.outline), ("args", list (c.args.map Operand.outline)),
    ("span", c.span.outline)]

/-- The outline of the right side of an assignment. -/
def Rhs.outline : Rhs → Outline
  | .null => leaf "Null"
  | .new => leaf "New"
  | .var x => tuple "Var" [x.outline]
  | .load base selector =>
    record "Load" [("base", base.outline), ("selector", selector.outline)]
  | .call c => tuple "Call" [c.outline]

/-- The outline of a condition. -/
def Condition.outline : Condition → Outline
  | .any => leaf "Nondet"
  | .compare lhs rhs equal =>
    record "Compare" [("lhs", lhs.outline), ("rhs", rhs.outline), ("equal", bool equal)]

/-- The outline of what a statement does. -/
def StmtKind.outline : StmtKind → Outline
  | .assign target value =>
    record "Assign" [("target", target.outline), ("value", value.outline)]
  | .store base selector value =>
    record "Store" [("base", base.outline), ("selector", selector.outline),
      ("value", value.outline)]
  | .call c => tuple "Call" [c.outline]
  | .branch cond target => record "If" [("cond", cond.outline), ("target", target.outline)]
  | .goto target => tuple "Goto" [target.outline]
  | .return value => tuple "Return" [option (value.map Ident.outline)]
  | .skip => leaf "Skip"

/-- The outline of a statement. -/
def Stmt.outline (s : Stmt) : Outline :=
  record "Stmt" [("labels", list (s.labels.map Ident.outline)), ("kind", s.kind.outline),
    ("span", s.span.outline)]

/-- The outline of a method. -/
def MethodDecl.outline (d : MethodDecl) : Outline :=
  record "MethodDecl" [("name", d.name.outline), ("params", list (d.params.map Ident.outline)),
    ("body", list (d.body.map Stmt.outline)),
    ("end_labels", list (d.endLabels.map Ident.outline)), ("span", d.span.outline)]

/-- The outline of a proposition. -/
def Proposition.outline : Proposition → Outline
  | .compare lhs rhs equal =>
    record "Compare" [("lhs", quoted lhs), ("rhs", option (rhs.map quoted)), ("equal", bool equal)]
  | .reach source target =>
    record "Reach" [("from", quoted source), ("to", option (target.map quoted))]
  | .terminated => leaf "Terminated"

/-- The outline of a temporal formula. -/
def Temporal.outline : Temporal → Outline
  | .const b => tuple "Bool" [bool b]
  | .atom p s => tuple "Atom" [p.outline, s.outline]
  | .not a => tuple "Not" [a.outline]
  | .next a => tuple "Next" [a.outline]
  | .always a => tuple "Always" [a.outline]
  | .eventually a => tuple "Eventually" [a.outline]
  | .and a b => tuple "And" [a.outline, b.outline]
  | .or a b => tuple "Or" [a.outline, b.outline]
  | .implies a b => tuple "Implies" [a.outline, b.outline]
  | .until a b => tuple "Until" [a.outline, b.outline]
  | .release a b => tuple "Release" [a.outline, b.outline]

/-- The outline of a property. -/
def PropertyDecl.outline (d : PropertyDecl) : Outline :=
  record "PropertyDecl" [("name", d.name.outline), ("formula", d.formula.outline),
    ("span", d.span.outline)]

/-- The outline of an initial value. -/
def Shape.outline : Shape → Outline
  | .null => leaf "Null"
  | .list n => tuple "List" [leaf n.repr]
  | .cycle n => tuple "Cycle" [leaf n.repr]
  | .alias x => tuple "Alias" [x.outline]

/-- The outline of a variable with its initial value. -/
def Binding.outline (b : Binding) : Outline :=
  record "Binding" [("var", b.var.outline), ("shape", b.shape.outline), ("span", b.span.outline)]

/-- The outline of an initial heap. -/
def InitDecl.outline (d : InitDecl) : Outline :=
  record "InitDecl" [("method", d.method.outline),
    ("bindings", list (d.bindings.map Binding.outline)), ("span", d.span.outline)]

/-- The outline of a declaration. -/
def Decl.outline : Decl → Outline
  | .method d => tuple "Method" [d.outline]
  | .property d => tuple "Property" [d.outline]
  | .init d => tuple "Init" [d.outline]

/-- The outline of a program. -/
def Program.outline (p : Program) : Outline :=
  record "Program" [("decls", list (p.decls.map Decl.outline)), ("span", p.span.outline)]

end ShapeCheck.Source
