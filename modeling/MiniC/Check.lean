import MiniC.Stmt
import MiniC.SymbolTable

/-!
# Checking

Checking walks a tree once from left to right. It opens a scope for every block, defines what is declared,
gives every expression its type, and stops at the first fault. The answer holds the tree with all
annotations made up to then, the checker's state, and the outcome: annotations that the tree had before
are never read, and stay where the walk did not come.

`Checked.andThen` puts the parts of a node together: if a part fails, the node is rebuilt around it with
the remaining parts as they were.
-/

namespace MiniC

/-- Something worth saying about an accepted program. -/
inductive Warning where
  /-- A variable is declared without a value. -/
  | uninitialized (name : String)
  deriving DecidableEq

/-- A warning in words. -/
def Warning.message : Warning → String
  | .uninitialized name => s!"variable {name} is not initialized"

/-- What checking keeps track of. -/
structure Checker where
  table : SymbolTable := .initial
  warnings : List Warning := []

/-- The answer of checking a part of a tree. -/
structure Checked (α β : Type) where
  /-- The part with its annotations. -/
  tree : α
  /-- The state after the part. -/
  checker : Checker
  /-- What is known of the part, or why it is rejected. -/
  outcome : Except CheckError β

namespace Checked

variable {α β γ δ : Type}

/-- An accepted part. -/
def accept (tree : α) (checker : Checker) (value : β) : Checked α β :=
  ⟨tree, checker, .ok value⟩

/-- A rejected part. -/
def reject (tree : α) (checker : Checker) (error : CheckError) : Checked α β :=
  ⟨tree, checker, .error error⟩

/-- Goes on after an accepted part; rebuilds the whole around a rejected one. -/
def andThen (part : Checked α β) (rebuild : α → γ) (next : α → β → Checker → Checked γ δ) :
    Checked γ δ :=
  match part.outcome with
  | .error e => reject (rebuild part.tree) part.checker e
  | .ok value => next part.tree value part.checker

/-- The block of checked statements, with the scope in which they were checked. -/
def inScope (statements : Checked (List Stmt) Unit) (scope : ScopeId) : Checked Block Unit :=
  { statements with tree := ⟨statements.tree, some scope⟩ }

end Checked

/-- The symbol of the name that an element is reached from, or of the name itself. -/
def Expr.rootSymbol? : Expr → Option SymbolId
  | .name _ symbol _ => symbol
  | .index base _ _ => base.rootSymbol?
  | .literal .. | .unary .. | .binary .. | .call .. => none

namespace Checker

/-- Takes note that a symbol is referred to. -/
def markUsed (c : Checker) (id : SymbolId) : Checker :=
  { c with table := c.table.modifySymbol id fun s => { s with used := true } }

/-- Takes note that a value is stored into an expression. -/
def markInitialized (c : Checker) (target : Expr) : Checker :=
  match target.rootSymbol? with
  | some id => { c with table := c.table.modifySymbol id fun s => { s with initialized := true } }
  | none => c

/-- Adds a warning after the others. -/
def warn (c : Checker) (w : Warning) : Checker :=
  { c with warnings := c.warnings ++ [w] }

/-- The type that a written type stands for in a scope. -/
def resolve (c : Checker) (scope : ScopeId) (ty : TypeExpr) : Except CheckError Ty :=
  match (c.table.search scope ty.name).bind c.table.symbol? with
  | none => .error (.undefinedSymbol ty.name)
  | some s =>
    if s.kind = .typeName then .ok ⟨s.ty.primitive, ty.qualifiers ++ s.ty.qualifiers⟩
    else .error (.notAType ty.name s.kind)

/-- Defines a symbol in a scope. -/
def define (c : Checker) (scope : ScopeId) (symbol : Symbol) :
    Except CheckError (SymbolId × Checker) := do
  let (id, table) ← c.table.define scope symbol
  pure (id, { c with table })

/-- Opens a scope inside another. -/
def newScope (c : Checker) (parent : ScopeId) : ScopeId × Checker :=
  let (id, table) := c.table.newScope parent
  (id, { c with table })

/-- Finds the type of an expression. -/
def checkExpr (scope : ScopeId) : Expr → Checker → Checked Expr Ty
  | .literal value _, c => .accept (.literal value (some value.ty)) c value.ty
  | .name name symbol ty, c =>
    match c.table.search scope name with
    | none => .reject (.name name symbol ty) c (.undefinedSymbol name)
    | some id =>
      match c.table.symbol? id with
      | none => .reject (.name name (some id) ty) c (.undefinedSymbol name)
      | some s => .accept (.name name (some id) (some s.ty)) (c.markUsed id) s.ty
  | .unary op operand ty, c =>
    (checkExpr scope operand c).andThen (.unary op · ty) fun operand operandTy c =>
      match op.result? operandTy with
      | none => .reject (.unary op operand ty) c (.incompatibleUnary op operandTy)
      | some result => .accept (.unary op operand (some result)) c result
  | .binary op left right ty, c =>
    (checkExpr scope left c).andThen (.binary op · right ty) fun left leftTy c =>
    (checkExpr scope right c).andThen (.binary op left · ty) fun right rightTy c =>
      match op.result? leftTy rightTy with
      | none => .reject (.binary op left right ty) c (.incompatibleBinary op leftTy rightTy)
      | some result => .accept (.binary op left right (some result)) c result
  | .index base position ty, c =>
    (checkExpr scope base c).andThen (.index · position ty) fun base baseTy c =>
    (checkExpr scope position c).andThen (.index base · ty) fun position positionTy c =>
      if positionTy ≠ .int then
        .reject (.index base position ty) c (.typeMismatch .int positionTy)
      else
        match baseTy.element? with
        | none => .reject (.index base position ty) c (.notIndexable baseTy)
        | some element => .accept (.index base position (some element)) c element
  | .call callee arguments ty, c => .reject (.call callee arguments ty) c (.unimplemented .call)

/-- Checks a condition. -/
def checkCondition (scope : ScopeId) (condition : Expr) (c : Checker) : Checked Expr Unit :=
  (checkExpr scope condition c).andThen id fun condition ty c =>
    if ty = .bool then .accept condition c () else .reject condition c (.nonBooleanCondition ty)

/-- Checks the initial value of a declared name. -/
def checkInit (scope : ScopeId) (ty : Ty) (name : String) :
    Option Expr → Checker → Checked (Option Expr) Bool
  | none, c => .accept none (c.warn (.uninitialized name)) false
  | some init, c =>
    (checkExpr scope init c).andThen some fun init found c =>
      if found = ty then .accept (some init) c true
      else .reject (some init) c (.typeMismatch ty found)

/-- Checks declared names, one after another. A name is not yet visible in its own initial value. -/
def checkDeclarators (scope : ScopeId) (ty : Ty) :
    List Declarator → Checker → Checked (List Declarator) Unit
  | [], c => .accept [] c ()
  | d :: ds, c =>
    (checkInit scope ty d.name d.init c).andThen (fun init => { d with init } :: ds)
      fun init initialized c =>
      match c.define scope { Symbol.forVariable d.name ty with initialized } with
      | .error e => .reject ({ d with init } :: ds) c e
      | .ok (id, c) =>
        let d := { d with init, symbol := some id }
        (checkDeclarators scope ty ds c).andThen (d :: ·) fun ds _ c => .accept (d :: ds) c ()

/-- Checks parameters, one after another. Their types are those of the scope around the function. -/
def checkParameters (outer inner : ScopeId) :
    List Parameter → Checker → Checked (List Parameter) (List Ty)
  | [], c => .accept [] c []
  | p :: ps, c =>
    match c.resolve outer p.ty with
    | .error e => .reject (p :: ps) c e
    | .ok ty =>
      match c.define inner (.forParameter p.name ty) with
      | .error e => .reject (p :: ps) c e
      | .ok (id, c) =>
        let p := { p with symbol := some id }
        (checkParameters outer inner ps c).andThen (p :: ·) fun ps tys c =>
          .accept (p :: ps) c (ty :: tys)

/-- Checks an assignment: the types agree, and the target can be stored into. -/
def checkAssign (scope : ScopeId) (target value : Expr) (c : Checker) : Checked Stmt Unit :=
  (checkExpr scope target c).andThen (.assign · value) fun target targetTy c =>
  (checkExpr scope value c).andThen (.assign target ·) fun value valueTy c =>
    if targetTy ≠ valueTy then
      .reject (.assign target value) c (.typeMismatch targetTy valueTy)
    else if !target.isLvalue then .reject (.assign target value) c (.notAnLvalue targetTy)
    else .accept (.assign target value) (c.markInitialized target) ()

/-- Whether an expression is an operator between two operands. -/
def isBinary : Expr → Bool
  | .binary .. => true
  | .literal .. | .name .. | .unary .. | .index .. | .call .. => false

/-- Checks the target of an input: a single value that can be stored into. -/
def checkInput (scope : ScopeId) (target : Expr) (c : Checker) : Checked Stmt Unit :=
  (checkExpr scope target c).andThen .input fun target ty c =>
    if isBinary target then .reject (.input target) c (.invalidInputTarget ty .binaryExpression)
    else if !ty.isUnqualified then .reject (.input target) c (.invalidInputTarget ty .aggregate)
    else if !target.isLvalue then .reject (.input target) c (.notAnLvalue ty)
    else .accept (.input target) (c.markInitialized target) ()

/-- Checks a declaration. Nothing has the type `void`, not even under a qualifier. -/
def checkDeclare (scope : ScopeId) (ty : TypeExpr) (declarators : List Declarator) (c : Checker) :
    Checked Stmt Unit :=
  match c.resolve scope ty with
  | .error e => .reject (.declare ty declarators) c e
  | .ok declared =>
    if declared.primitive = .void then
      .reject (.declare ty declarators) c (.incompleteType declared)
    else
      (checkDeclarators scope declared declarators c).andThen (.declare ty ·) fun declarators _ c =>
        .accept (.declare ty declarators) c ()

mutual

/-- Checks a statement in a scope. What a `for` loop declares belongs to the scope around the loop. -/
def checkStmt (scope : ScopeId) : Stmt → Checker → Checked Stmt Unit
  | .block body, c =>
    (checkBlock scope body c).andThen .block fun body _ c => .accept (.block body) c ()
  | .ifThen condition body, c =>
    (checkCondition scope condition c).andThen (.ifThen · body) fun condition _ c =>
    (checkBlock scope body c).andThen (.ifThen condition ·) fun body _ c =>
      .accept (.ifThen condition body) c ()
  | .ifElse condition body otherwise, c =>
    (checkCondition scope condition c).andThen (.ifElse · body otherwise) fun condition _ c =>
    (checkBlock scope body c).andThen (.ifElse condition · otherwise) fun body _ c =>
    (checkStmt scope otherwise c).andThen (.ifElse condition body ·) fun otherwise _ c =>
      .accept (.ifElse condition body otherwise) c ()
  | .whileLoop condition body, c =>
    (checkCondition scope condition c).andThen (.whileLoop · body) fun condition _ c =>
    (checkBlock scope body c).andThen (.whileLoop condition ·) fun body _ c =>
      .accept (.whileLoop condition body) c ()
  | .doWhile body condition, c =>
    (checkBlock scope body c).andThen (.doWhile · condition) fun body _ c =>
    (checkCondition scope condition c).andThen (.doWhile body ·) fun condition _ c =>
      .accept (.doWhile body condition) c ()
  | .forLoop init condition step body, c =>
    (checkStmt scope init c).andThen (.forLoop · condition step body) fun init _ c =>
    (checkCondition scope condition c).andThen (.forLoop init · step body) fun condition _ c =>
    (checkStmt scope step c).andThen (.forLoop init condition · body) fun step _ c =>
    (checkBlock scope body c).andThen (.forLoop init condition step ·) fun body _ c =>
      .accept (.forLoop init condition step body) c ()
  | .function name parameters result body symbol, c =>
    match c.resolve scope result with
    | .error e => .reject (.function name parameters result body symbol) c e
    | .ok resultTy =>
      let (inner, c) := c.newScope scope
      (checkParameters scope inner parameters c).andThen (.function name · result body symbol)
        fun parameters tys c =>
        match c.define scope (.forFunction name resultTy tys) with
        | .error e => .reject (.function name parameters result body symbol) c e
        | .ok (id, c) =>
          (checkBlockIn inner body c).andThen (.function name parameters result · (some id))
            fun body _ c => .accept (.function name parameters result body (some id)) c ()
  | .declare ty declarators, c => checkDeclare scope ty declarators c
  | .assign target value, c => checkAssign scope target value c
  | .eval value, c =>
    (checkExpr scope value c).andThen .eval fun value _ c => .accept (.eval value) c ()
  | .print value, c =>
    (checkExpr scope value c).andThen .print fun value _ c => .accept (.print value) c ()
  | .input target, c => checkInput scope target c
  | .breakLoop, c => .reject .breakLoop c (.unimplemented .breakLoop)
  | .continueLoop, c => .reject .continueLoop c (.unimplemented .continueLoop)
  | .returnValue value, c => .reject (.returnValue value) c (.unimplemented .returnValue)

/-- Checks a block in a new scope inside `parent`. -/
def checkBlock (parent : ScopeId) : Block → Checker → Checked Block Unit
  | ⟨statements, _⟩, c =>
    let (scope, c) := c.newScope parent
    (checkStmts scope statements c).inScope scope

/-- Checks a block whose scope is open already. -/
def checkBlockIn (scope : ScopeId) : Block → Checker → Checked Block Unit
  | ⟨statements, _⟩, c => (checkStmts scope statements c).inScope scope

/-- Checks statements, one after another. -/
def checkStmts (scope : ScopeId) : List Stmt → Checker → Checked (List Stmt) Unit
  | [], c => .accept [] c ()
  | statement :: rest, c =>
    (checkStmt scope statement c).andThen (· :: rest) fun statement _ c =>
    (checkStmts scope rest c).andThen (statement :: ·) fun rest _ c =>
      .accept (statement :: rest) c ()

end

end Checker

/-- Checks a whole program, whose scope lies in the outermost one. -/
def Block.check (program : Block) : Checked Block Unit :=
  Checker.checkBlock SymbolTable.global program {}

end MiniC
