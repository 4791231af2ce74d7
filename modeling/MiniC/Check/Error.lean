import MiniC.Operator
import MiniC.Symbol

/-!
# Reasons to reject a program

The causes for which checking refuses a tree, and their messages.
-/

namespace MiniC

/-- Constructs that can be read but not checked. -/
inductive UncheckedConstruct where
  | breakLoop
  | continueLoop
  | returnValue
  | call
  deriving DecidableEq

/-- A construct as messages name it. -/
def UncheckedConstruct.text : UncheckedConstruct → String
  | .breakLoop => "break"
  | .continueLoop => "continue"
  | .returnValue => "return"
  | .call => "function call"

/-- Why a value cannot be read into an expression. -/
inductive InputObstacle where
  | binaryExpression
  | aggregate
  deriving DecidableEq

/-- An obstacle as messages name it. -/
def InputObstacle.text : InputObstacle → String
  | .binaryExpression => "binary expression"
  | .aggregate => "cannot fill an aggregate type"

/-- Why a tree is not a program. -/
inductive CheckError where
  /-- No visible scope defines the name. -/
  | undefinedSymbol (name : String)
  /-- The name is visible already where it is defined. -/
  | duplicateSymbol (name : String)
  /-- Two types should be the same. -/
  | typeMismatch (expected found : Ty)
  | incompatibleUnary (op : UnaryOp) (operand : Ty)
  | incompatibleBinary (op : BinaryOp) (left right : Ty)
  /-- The target of an assignment or an input is neither a name nor an element. -/
  | notAnLvalue (ty : Ty)
  | nonBooleanCondition (found : Ty)
  /-- There are no variables of this type. -/
  | incompleteType (ty : Ty)
  /-- A name that stands for something else is used as a type. -/
  | notAType (name : String) (kind : SymbolKind)
  /-- There are no elements in a value of this type. -/
  | notIndexable (ty : Ty)
  | invalidInputTarget (ty : Ty) (obstacle : InputObstacle)
  | unimplemented (construct : UncheckedConstruct)
  deriving DecidableEq

/-- The message for a rejected tree. -/
def CheckError.message : CheckError → String
  | .undefinedSymbol name => s!"symbol not found: {name}"
  | .duplicateSymbol name => s!"symbol {name} is already defined"
  | .typeMismatch expected found => s!"type mismatch: expected {expected.text}, found {found.text}"
  | .incompatibleUnary op operand => s!"cannot apply operator {op.symbol} to {operand.text}"
  | .incompatibleBinary op left right =>
    s!"cannot apply operator {op.symbol} to {left.text} and {right.text}"
  | .notAnLvalue ty => s!"cannot assign to non l-value expression of type {ty.text}"
  | .nonBooleanCondition found => s!"condition must be bool, found {found.text}"
  | .incompleteType ty => s!"cannot instantiate variable of incomplete type {ty.text}"
  | .notAType name kind => s!"{name} is a {kind.text}, not a type"
  | .notIndexable ty => s!"cannot index into value of type {ty.text}"
  | .invalidInputTarget ty obstacle => s!"invalid input target of type {ty.text}: {obstacle.text}"
  | .unimplemented construct => s!"{construct.text} is not implemented"

end MiniC
