import MiniC.Expr

/-!
# Statements

Blocks own a scope. As in expressions, the annotations that checking fills in are part of the tree: the
scope of a block, and the symbols of declared names, parameters and functions.
-/

namespace MiniC

/-- A type as it is written: a name under qualifiers, outermost first. -/
structure TypeExpr where
  name : String
  qualifiers : List Qualifier := []
  deriving DecidableEq

/-- A declared name with its initial value. -/
structure Declarator where
  name : String
  init : Option Expr := none
  symbol : Option SymbolId := none

/-- A parameter of a function. -/
structure Parameter where
  name : String
  ty : TypeExpr
  symbol : Option SymbolId := none
  deriving DecidableEq

mutual

/-- Statements. -/
inductive Stmt where
  | block (body : Block)
  | ifThen (condition : Expr) (body : Block)
  | ifElse (condition : Expr) (body : Block) (otherwise : Stmt)
  | whileLoop (condition : Expr) (body : Block)
  | doWhile (body : Block) (condition : Expr)
  | forLoop (init : Stmt) (condition : Expr) (step : Stmt) (body : Block)
  | function (name : String) (parameters : List Parameter) (result : TypeExpr) (body : Block)
      (symbol : Option SymbolId := none)
  | declare (ty : TypeExpr) (declarators : List Declarator)
  | assign (target value : Expr)
  | eval (value : Expr)
  | print (value : Expr)
  | input (target : Expr)
  | breakLoop
  | continueLoop
  | returnValue (value : Option Expr)

/-- Statements with a scope of their own. -/
structure Block where
  statements : List Stmt
  scope : Option ScopeId := none

end

end MiniC
