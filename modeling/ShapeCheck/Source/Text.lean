import ShapeCheck.Source.Tree

/-!
# Statements and propositions as text

Each statement and each proposition has one plain written form, with single blanks between words.
-/

namespace ShapeCheck.Source

/-- A variable by its name, and null by its own. -/
def Operand.text : Operand → String
  | .null => "null"
  | .var x => x.name

/-- A call with its arguments in brackets. -/
def CallExpr.text (c : CallExpr) : String :=
  c.method.name ++ "(" ++ ", ".intercalate (c.args.map Operand.text) ++ ")"

/-- The sign of an equality or an inequality. -/
def comparisonText (equal : Bool) : String :=
  if equal then "==" else "!="

/-- The right side of an assignment. -/
def Rhs.text : Rhs → String
  | .null => "null"
  | .new => "new"
  | .var x => x.name
  | .load base selector => base.name ++ "." ++ selector.name
  | .call c => c.text

/-- A condition as it stands between `if` and `goto`. -/
def Condition.text : Condition → String
  | .any => "*"
  | .compare lhs rhs equal => lhs.name ++ " " ++ comparisonText equal ++ " " ++ rhs.text

/-- A statement without labels and semicolon. -/
def StmtKind.text : StmtKind → String
  | .assign target value => target.name ++ " = " ++ value.text
  | .store base selector value => base.name ++ "." ++ selector.name ++ " = " ++ value.text
  | .call c => c.text
  | .branch cond target => "if " ++ cond.text ++ " goto " ++ target.name
  | .goto target => "goto " ++ target.name
  | .return (some x) => "return " ++ x.name
  | .return none => "return"
  | .skip => "skip"

/-- A proposition as it stands between brackets. -/
def Proposition.text : Proposition → String
  | .compare lhs rhs equal => lhs ++ " " ++ comparisonText equal ++ " " ++ rhs.getD "null"
  | .reach source target => "reach(" ++ source ++ ", " ++ target.getD "null" ++ ")"
  | .terminated => "terminated"

end ShapeCheck.Source
