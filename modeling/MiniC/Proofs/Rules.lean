import Mathlib.Data.List.Forall2
import MiniC.Proofs.Catalogue
import MiniC.Stmt
import MiniC.Symbol

/-!
# The rules of the language

Which programs are legal, by rules over environments. An environment says what the visible names stand for; a
statement takes one environment to the next, and what a block declares is forgotten at its end. No rule reads
an annotation of the tree, and there is none for calls and jumps. What the literals are, what the operators
take and give, and what can be stored into is written out here, next to the rules that use it.

Two rules differ from what one may expect. The names that a `for` loop declares stay visible after it. And a
function is visible in its own body only if no parameter has its name.
-/

namespace MiniC

/-- What a visible name stands for. -/
structure Binding where
  kind : SymbolKind
  ty : Ty
  deriving DecidableEq

/-- The visible names and what they stand for. -/
abbrev Env := Catalogue Binding

namespace Env

/-- The environment around every program: the names of the primitive types. -/
def initial : Env :=
  Catalogue.ofList
    [("int", ⟨.typeName, ⟨.int, []⟩⟩), ("float", ⟨.typeName, ⟨.float, []⟩⟩), ("string", ⟨.typeName, ⟨.string, []⟩⟩),
      ("char", ⟨.typeName, ⟨.char, []⟩⟩), ("bool", ⟨.typeName, ⟨.bool, []⟩⟩), ("void", ⟨.typeName, ⟨.void, []⟩⟩)]

/-- Different names that are not visible. -/
structure Fresh (env : Env) (names : List String) : Prop where
  distinct : names.Nodup
  unseen : ∀ name ∈ names, env.find? name = none

/-- The environment inside a function: a parameter hides what else has its name. -/
def withParameters (env : Env) (parameters : List Parameter) (tys : List Ty) : Env :=
  (parameters.zip tys).foldl (fun env (p, ty) => env.insert p.name ⟨.parameter, ty⟩) env

theorem fresh_nil (env : Env) : env.Fresh [] :=
  ⟨.nil, by simp⟩

/-- Names can be entered one after another. -/
theorem fresh_cons {env : Env} {name : String} {names : List String} (b : Binding) :
    env.Fresh (name :: names) ↔ env.find? name = none ∧ Fresh (env.insert name b) names := by
  constructor
  · rintro ⟨distinct, unseen⟩
    obtain ⟨apart, distinct⟩ := List.nodup_cons.1 distinct
    refine ⟨unseen name (.head _), distinct, fun other mem => ?_⟩
    have different : other ≠ name := fun same => apart (same ▸ mem)
    rw [Catalogue.find?_insert_of_ne _ _ different]
    exact unseen other (.tail _ mem)
  · rintro ⟨first, distinct, unseen⟩
    have unseen' : ∀ other ∈ names, other ≠ name ∧ env.find? other = none := by
      intro other mem
      have absent := unseen other mem
      rw [Catalogue.find?_insert] at absent
      split at absent
      · cases absent
      · rename_i different
        exact ⟨different, absent⟩
    refine ⟨List.nodup_cons.2 ⟨fun mem => (unseen' name mem).1 rfl, distinct⟩, ?_⟩
    exact List.forall_mem_cons.2 ⟨first, fun other mem => (unseen' other mem).2⟩

/-- Under the name of no parameter there is what was there before. -/
theorem find?_withParameters_of_not_mem {env : Env} {parameters : List Parameter} {tys : List Ty}
    {name : String} (absent : name ∉ parameters.map Parameter.name) :
    (env.withParameters parameters tys).find? name = env.find? name := by
  induction parameters generalizing env tys with
  | nil => rfl
  | cons p ps ih =>
    cases tys with
    | nil => rfl
    | cons ty tys =>
      rw [List.map_cons, List.mem_cons, not_or] at absent
      exact (ih absent.2).trans (Catalogue.find?_insert_of_ne _ _ absent.1)

/-- Under the name of a parameter there is the parameter, whatever was there before. -/
theorem find?_withParameters_of_mem {env env' : Env} {parameters : List Parameter} {tys : List Ty}
    {name : String} (length : parameters.length = tys.length)
    (mem : name ∈ parameters.map Parameter.name) :
    (env.withParameters parameters tys).find? name = (env'.withParameters parameters tys).find? name := by
  induction parameters generalizing env env' tys with
  | nil => cases mem
  | cons p ps ih =>
    cases tys with
    | nil => cases length
    | cons ty tys =>
      by_cases later : name ∈ ps.map Parameter.name
      · exact ih (Nat.succ.inj length) later
      · obtain rfl : name = p.name := (List.mem_cons.1 mem).resolve_right later
        have last (env : Env) :
            (env.withParameters (p :: ps) (ty :: tys)).find? p.name = some ⟨.parameter, ty⟩ :=
          (find?_withParameters_of_not_mem later).trans (Catalogue.find?_insert_self _ _ _)
        rw [last, last]

end Env

/-! ## Expressions -/

/-- The type of a literal. -/
inductive Literal.HasType : Literal → Ty → Prop
  | int (value : Int32) : HasType (.int value) ⟨.int, []⟩
  | float (value : Number.Single) : HasType (.float value) ⟨.float, []⟩
  | string (value : String) : HasType (.string value) ⟨.string, []⟩
  | char (value : Char) : HasType (.char value) ⟨.char, []⟩
  | bool (value : Bool) : HasType (.bool value) ⟨.bool, []⟩

/-- What an operator before its operand takes, and what it gives. -/
inductive UnaryOp.Gives : UnaryOp → Ty → Ty → Prop
  | sign {op : UnaryOp} {p : Primitive} :
      op ∈ [.plus, .neg] → p ∈ [.int, .float] → Gives op ⟨p, []⟩ ⟨p, []⟩
  | complement : Gives .bitNot ⟨.int, []⟩ ⟨.int, []⟩
  | negation : Gives .not ⟨.bool, []⟩ ⟨.bool, []⟩

/-- What an operator takes on both of its sides, and what it gives. -/
inductive BinaryOp.Gives : BinaryOp → Ty → Ty → Prop
  | arithmetic {op : BinaryOp} {p : Primitive} :
      op ∈ [.add, .sub, .mul, .div] → p ∈ [.int, .float] → Gives op ⟨p, []⟩ ⟨p, []⟩
  | integral {op : BinaryOp} :
      op ∈ [.mod, .bitAnd, .bitOr, .bitXor, .shiftLeft, .shiftRight] → Gives op ⟨.int, []⟩ ⟨.int, []⟩
  | equality {op : BinaryOp} {p : Primitive} :
      op ∈ [.eq, .notEq] → p ≠ .void → Gives op ⟨p, []⟩ ⟨.bool, []⟩
  | ordering {op : BinaryOp} {p : Primitive} :
      op ∈ [.lt, .gt, .ltEq, .gtEq] → p ∈ [.int, .float, .char] → Gives op ⟨p, []⟩ ⟨.bool, []⟩
  | logical {op : BinaryOp} : op ∈ [.and, .or] → Gives op ⟨.bool, []⟩ ⟨.bool, []⟩

/-- The type of an expression. -/
inductive Expr.HasType (env : Env) : Expr → Ty → Prop
  | literal {value : Literal} {t : Option Ty} {ty : Ty} :
      value.HasType ty → HasType env (.literal value t) ty
  | name {spelling : String} {symbol : Option SymbolId} {t : Option Ty} {b : Binding} :
      env.find? spelling = some b → HasType env (.name spelling symbol t) b.ty
  | unary {op : UnaryOp} {operand : Expr} {t : Option Ty} {operandTy ty : Ty} :
      HasType env operand operandTy → op.Gives operandTy ty → HasType env (.unary op operand t) ty
  | binary {op : BinaryOp} {left right : Expr} {t : Option Ty} {operandTy ty : Ty} :
      HasType env left operandTy → HasType env right operandTy → op.Gives operandTy ty →
        HasType env (.binary op left right t) ty
  | index {base position : Expr} {t : Option Ty} {p : Primitive} {q : Qualifier} {qs : List Qualifier} :
      HasType env base ⟨p, q :: qs⟩ → HasType env position ⟨.int, []⟩ → HasType env (.index base position t) ⟨p, qs⟩

/-- What can be stored into: a name or an element. -/
inductive Expr.IsPlace : Expr → Prop
  | name {spelling : String} {symbol : Option SymbolId} {t : Option Ty} : IsPlace (.name spelling symbol t)
  | index {base position : Expr} {t : Option Ty} : IsPlace (.index base position t)

/-- The type that a written type stands for: what its name stands for, under the written qualifiers. -/
inductive TypeExpr.Denotes (env : Env) (written : TypeExpr) : Ty → Prop
  | intro {named : Ty} : env.find? written.name = some ⟨.typeName, named⟩ →
      Denotes env written ⟨named.primitive, written.qualifiers ++ named.qualifiers⟩

/-! ## Statements -/

/-- Declared names of a type. The initial value of a name is typed before the name is entered. -/
inductive Declarator.AllLegal (ty : Ty) : Env → List Declarator → Env → Prop
  | nil {env : Env} : AllLegal ty env [] env
  | cons {env env' : Env} {d : Declarator} {ds : List Declarator} :
      (∀ x ∈ d.init, x.HasType env ty) → env.find? d.name = none →
        AllLegal ty (env.insert d.name ⟨.variable, ty⟩) ds env' → AllLegal ty env (d :: ds) env'

mutual

/-- A legal statement, with the environments before and after it. -/
inductive Stmt.Legal : Env → Stmt → Env → Prop
  | block {env : Env} {body : Block} : Block.Legal env body → Stmt.Legal env (.block body) env
  | ifThen {env : Env} {condition : Expr} {body : Block} :
      condition.HasType env .bool → Block.Legal env body → Stmt.Legal env (.ifThen condition body) env
  | ifElse {env env' : Env} {condition : Expr} {body : Block} {otherwise : Stmt} :
      condition.HasType env .bool → Block.Legal env body → Stmt.Legal env otherwise env' →
        Stmt.Legal env (.ifElse condition body otherwise) env'
  | whileLoop {env : Env} {condition : Expr} {body : Block} :
      condition.HasType env .bool → Block.Legal env body → Stmt.Legal env (.whileLoop condition body) env
  | doWhile {env : Env} {body : Block} {condition : Expr} :
      Block.Legal env body → condition.HasType env .bool → Stmt.Legal env (.doWhile body condition) env
  | forLoop {env env₁ env₂ : Env} {init : Stmt} {condition : Expr} {step : Stmt} {body : Block} :
      Stmt.Legal env init env₁ → condition.HasType env₁ .bool → Stmt.Legal env₁ step env₂ →
        Block.Legal env₂ body → Stmt.Legal env (.forLoop init condition step body) env₂
  | function {env : Env} {name : String} {parameters : List Parameter} {result : TypeExpr} {body : Block}
      {symbol : Option SymbolId} {resultTy : Ty} {tys : List Ty} :
      result.Denotes env resultTy → List.Forall₂ (fun p ty => p.ty.Denotes env ty) parameters tys →
        env.Fresh (parameters.map Parameter.name) → env.find? name = none →
        Block.Legal (Env.withParameters (env.insert name ⟨.function, resultTy⟩) parameters tys) body →
        Stmt.Legal env (.function name parameters result body symbol) (env.insert name ⟨.function, resultTy⟩)
  | declare {env env' : Env} {written : TypeExpr} {ds : List Declarator} {ty : Ty} :
      written.Denotes env ty → ty.primitive ≠ .void → Declarator.AllLegal ty env ds env' →
        Stmt.Legal env (.declare written ds) env'
  | assign {env : Env} {target value : Expr} {ty : Ty} :
      target.HasType env ty → value.HasType env ty → target.IsPlace →
        Stmt.Legal env (.assign target value) env
  | eval {env : Env} {value : Expr} {ty : Ty} : value.HasType env ty → Stmt.Legal env (.eval value) env
  | print {env : Env} {value : Expr} {ty : Ty} : value.HasType env ty → Stmt.Legal env (.print value) env
  | input {env : Env} {target : Expr} {p : Primitive} :
      target.HasType env ⟨p, []⟩ → target.IsPlace → Stmt.Legal env (.input target) env

/-- A legal block. Nothing of what it declares is visible after it. -/
inductive Block.Legal : Env → Block → Prop
  | intro {env env' : Env} {statements : List Stmt} {scope : Option ScopeId} :
      Stmt.AllLegal env statements env' → Block.Legal env ⟨statements, scope⟩

/-- Legal statements that follow one another. -/
inductive Stmt.AllLegal : Env → List Stmt → Env → Prop
  | nil {env : Env} : Stmt.AllLegal env [] env
  | cons {env env₁ env₂ : Env} {statement : Stmt} {rest : List Stmt} :
      Stmt.Legal env statement env₁ → Stmt.AllLegal env₁ rest env₂ →
        Stmt.AllLegal env (statement :: rest) env₂

end

end MiniC
