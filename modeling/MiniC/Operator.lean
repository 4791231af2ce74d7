import MiniC.Ty

/-!
# Operators

Every operator belongs to a class, and the class says which primitives it takes. The result of a
comparison is `bool`; every other operator gives the type that it takes.
-/

namespace MiniC

/-- Operators between two operands. -/
inductive BinaryOp where
  | add
  | sub
  | mul
  | div
  | mod
  | bitAnd
  | bitOr
  | bitXor
  | shiftLeft
  | shiftRight
  | and
  | or
  | eq
  | notEq
  | lt
  | gt
  | ltEq
  | gtEq
  deriving DecidableEq

/-- Operators before their operand. -/
inductive UnaryOp where
  | plus
  | neg
  | bitNot
  | not
  deriving DecidableEq

/-- The classes of operators. -/
inductive OperatorClass where
  | arithmetic
  | bitwise
  | equality
  | ordering
  | logical
  deriving DecidableEq

namespace OperatorClass

/-- The primitives that the operators of a class take. -/
def accepted : OperatorClass → List Primitive
  | .arithmetic => [.int, .float]
  | .bitwise => [.int]
  | .equality => [.int, .float, .char, .string, .bool]
  | .ordering => [.int, .float, .char]
  | .logical => [.bool]

/-- Whether the operators of a class take a primitive. -/
def accepts (k : OperatorClass) (p : Primitive) : Bool :=
  k.accepted.contains p

/-- Comparisons give a `bool`, whatever they compare. -/
def isComparison : OperatorClass → Bool
  | .equality | .ordering => true
  | .arithmetic | .bitwise | .logical => false

end OperatorClass

namespace BinaryOp

/-- The operator in the source. -/
def symbol : BinaryOp → String
  | .add => "+"
  | .sub => "-"
  | .mul => "*"
  | .div => "/"
  | .mod => "%"
  | .bitAnd => "&"
  | .bitOr => "|"
  | .bitXor => "~"
  | .shiftLeft => "<<"
  | .shiftRight => ">>"
  | .and => "&&"
  | .or => "||"
  | .eq => "=="
  | .notEq => "!="
  | .lt => "<"
  | .gt => ">"
  | .ltEq => "<="
  | .gtEq => ">="

/-- The class of an operator. The remainder belongs to the bitwise operators: it is for integers only. -/
def operatorClass : BinaryOp → OperatorClass
  | .add | .sub | .mul | .div => .arithmetic
  | .mod | .bitAnd | .bitOr | .bitXor | .shiftLeft | .shiftRight => .bitwise
  | .eq | .notEq => .equality
  | .lt | .gt | .ltEq | .gtEq => .ordering
  | .and | .or => .logical

/-- The type of the result on two operands, if the operator takes them: both are of one type, which is
unqualified and of an accepted primitive. -/
def result? (op : BinaryOp) (left right : Ty) : Option Ty :=
  if left.isUnqualified && left = right && op.operatorClass.accepts left.primitive then
    some (if op.operatorClass.isComparison then .bool else left)
  else none

end BinaryOp

namespace UnaryOp

/-- The operator in the source. -/
def symbol : UnaryOp → String
  | .plus => "+"
  | .neg => "-"
  | .bitNot => "~"
  | .not => "!"

/-- The class of an operator. -/
def operatorClass : UnaryOp → OperatorClass
  | .plus | .neg => .arithmetic
  | .bitNot => .bitwise
  | .not => .logical

/-- The type of the result on an operand, if the operator takes it: it is unqualified and of an accepted
primitive. -/
def result? (op : UnaryOp) (operand : Ty) : Option Ty :=
  if operand.isUnqualified && op.operatorClass.accepts operand.primitive then some operand else none

end UnaryOp

end MiniC
