import ShapeCheck.Text.Decimal

/-!
# Reserved variable names

Names that begin with `@` are never written in programs. One of them holds the value that a method
returns; the others, numbered from zero, mark the nodes through which a caller can still reach the
part of the heap that a call works on.
-/

namespace ShapeCheck.Call

/-- Whether a variable is introduced by the analysis and not by a program. -/
def isReserved (name : String) : Bool :=
  name.toList.head? = some '@'

/-- The variable that holds a returned value. -/
def returnVar : String := "@return"

/-- The common part of the names of interface variables. -/
def interfaceStem : List Char := ['@', 'e', 'x', 't']

/-- The variable of the interface node with the given number. -/
def interfaceVar (index : Nat) : String :=
  String.ofList interfaceStem ++ index.repr

/-- The number of an interface variable, if the name is one. -/
def interfaceIndex? (name : String) : Option Nat :=
  if interfaceStem.isPrefixOf name.toList then
    Text.readNumeral? (name.toList.drop interfaceStem.length)
  else none

end ShapeCheck.Call
