import MiniC.Number.Single
import MiniC.Operator
import MiniC.Text.Quoted

/-!
# Expressions

An expression carries the annotations that checking fills in: the type of every node and the symbol of
every name. A tree as it is read from the source has none of them.
-/

namespace MiniC

/-- The identity of a symbol: its place in the symbol table. -/
abbrev SymbolId := Nat

/-- The identity of a scope: its place in the symbol table. -/
abbrev ScopeId := Nat

/-- A value written out in the source. -/
inductive Literal where
  | int (value : Int32)
  | float (value : Number.Single)
  | string (value : String)
  | char (value : Char)
  | bool (value : Bool)
  deriving DecidableEq

namespace Literal

/-- The type of a literal. -/
def ty : Literal → Ty
  | .int _ => ⟨.int, []⟩
  | .float _ => ⟨.float, []⟩
  | .string _ => ⟨.string, []⟩
  | .char _ => ⟨.char, []⟩
  | .bool _ => ⟨.bool, []⟩

/-- A literal as messages show it. -/
def text : Literal → String
  | .int value => Number.writeInt32 value
  | .float value => value.literal
  | .string value => Text.quoteString value
  | .char value => Text.quoteChar value
  | .bool value => if value then "true" else "false"

end Literal

/-- Expressions. The last field of every node is its type, once that is known. -/
inductive Expr where
  | literal (value : Literal) (ty : Option Ty := none)
  | name (name : String) (symbol : Option SymbolId := none) (ty : Option Ty := none)
  | unary (op : UnaryOp) (operand : Expr) (ty : Option Ty := none)
  | binary (op : BinaryOp) (left right : Expr) (ty : Option Ty := none)
  | index (base position : Expr) (ty : Option Ty := none)
  | call (callee : Expr) (arguments : List Expr) (ty : Option Ty := none)

namespace Expr

/-- The type that a node is annotated with. -/
def ty? : Expr → Option Ty
  | .literal _ ty | .name _ _ ty | .unary _ _ ty | .binary _ _ _ ty | .index _ _ ty | .call _ _ ty => ty

/-- The name that an expression is, if it is just a name. -/
def name? : Expr → Option String
  | .name spelling _ _ => some spelling
  | _ => none

/-- Names and elements can be stored into. -/
def isLvalue : Expr → Bool
  | .name .. | .index .. => true
  | .literal .. | .unary .. | .binary .. | .call .. => false

mutual

/-- An expression with every operator before its operands and every application in parentheses. -/
def text : Expr → String
  | .literal value _ => value.text
  | .name spelling _ _ => spelling
  | .unary op operand _ => s!"({op.symbol} {operand.text})"
  | .binary op left right _ => s!"({op.symbol} {left.text} {right.text})"
  | .index base position _ => s!"([] {base.text} {position.text})"
  | .call callee arguments _ => s!"(call {callee.text}{argumentsText arguments})"

/-- The arguments of a call, a blank before each. -/
def argumentsText : List Expr → String
  | [] => ""
  | argument :: arguments => s!" {argument.text}{argumentsText arguments}"

end

end Expr

end MiniC
