import MiniC.Check

/-!
# Accepted walks

A tree that checking accepts was walked through from its first part to its last. `Stmt.Passes` and its companions
say what such a walk does, one rule for each kind of node: which parts it comes to, what it enters into the table
between them, and how it writes what it found into the tree. `Checker.checkStmt_eq_accept` says that these are
exactly the answers in which nothing was rejected.

What holds of accepted trees is proved by induction on the walk, without taking the checking functions apart again.
-/

namespace MiniC

/-! ## Walks -/

/-- An expression passes in a scope with the given type. -/
inductive Expr.Passes (scope : ScopeId) : Checker → Expr → Expr → Ty → Checker → Prop
  | literal {c : Checker} {value : Literal} {ty : Option Ty} :
      Passes scope c (.literal value ty) (.literal value (some value.ty)) value.ty c
  | name {c : Checker} {spelling : String} {symbol : Option SymbolId} {ty : Option Ty} {id : SymbolId}
      {s : Symbol} :
      c.table.search scope spelling = some id → c.table.symbol? id = some s →
        Passes scope c (.name spelling symbol ty) (.name spelling (some id) (some s.ty)) s.ty (c.markUsed id)
  | unary {c c₁ : Checker} {op : UnaryOp} {operand operand' : Expr} {ty : Option Ty} {operandTy result : Ty} :
      Passes scope c operand operand' operandTy c₁ → op.result? operandTy = some result →
        Passes scope c (.unary op operand ty) (.unary op operand' (some result)) result c₁
  | binary {c c₁ c₂ : Checker} {op : BinaryOp} {left left' right right' : Expr} {ty : Option Ty}
      {leftTy rightTy result : Ty} :
      Passes scope c left left' leftTy c₁ → Passes scope c₁ right right' rightTy c₂ →
        op.result? leftTy rightTy = some result →
        Passes scope c (.binary op left right ty) (.binary op left' right' (some result)) result c₂
  | index {c c₁ c₂ : Checker} {base base' position position' : Expr} {ty : Option Ty} {baseTy element : Ty} :
      Passes scope c base base' baseTy c₁ → Passes scope c₁ position position' .int c₂ →
        baseTy.element? = some element →
        Passes scope c (.index base position ty) (.index base' position' (some element)) element c₂

/-- The initial value of a declared name passes, if there is one; otherwise there is a warning. -/
inductive Declarator.InitPasses (scope : ScopeId) (ty : Ty) (name : String) :
    Checker → Option Expr → Option Expr → Bool → Checker → Prop
  | bare {c : Checker} : InitPasses scope ty name c none none false (c.warn (.uninitialized name))
  | valued {c c₁ : Checker} {init init' : Expr} :
      init.Passes scope c init' ty c₁ → InitPasses scope ty name c (some init) (some init') true c₁

/-- Declared names of a type pass. A name is entered after its initial value. -/
inductive Declarator.AllPass (scope : ScopeId) (ty : Ty) :
    Checker → List Declarator → List Declarator → Checker → Prop
  | nil {c : Checker} : AllPass scope ty c [] [] c
  | cons {c c₁ c₂ c₃ : Checker} {d : Declarator} {ds ds' : List Declarator} {init : Option Expr}
      {initialized : Bool} {id : SymbolId} :
      InitPasses scope ty d.name c d.init init initialized c₁ →
        c₁.define scope { Symbol.forVariable d.name ty with initialized } = .ok (id, c₂) →
        AllPass scope ty c₂ ds ds' c₃ → AllPass scope ty c (d :: ds) ({ d with init, symbol := some id } :: ds') c₃

/-- The parameters of a function pass, with the given types. -/
inductive Parameter.AllPass (outer inner : ScopeId) :
    Checker → List Parameter → List Parameter → List Ty → Checker → Prop
  | nil {c : Checker} : AllPass outer inner c [] [] [] c
  | cons {c c₁ c₂ : Checker} {p : Parameter} {ps ps' : List Parameter} {ty : Ty} {tys : List Ty} {id : SymbolId} :
      c.resolve outer p.ty = .ok ty → c.define inner (.forParameter p.name ty) = .ok (id, c₁) →
        AllPass outer inner c₁ ps ps' tys c₂ →
        AllPass outer inner c (p :: ps) ({ p with symbol := some id } :: ps') (ty :: tys) c₂

mutual

/-- A statement passes in a scope. -/
inductive Stmt.Passes : ScopeId → Checker → Stmt → Stmt → Checker → Prop
  | block {scope : ScopeId} {c c₁ : Checker} {body body' : Block} :
      Block.Passes scope c body body' c₁ → Stmt.Passes scope c (.block body) (.block body') c₁
  | ifThen {scope : ScopeId} {c c₁ c₂ : Checker} {condition condition' : Expr} {body body' : Block} :
      condition.Passes scope c condition' .bool c₁ → Block.Passes scope c₁ body body' c₂ →
        Stmt.Passes scope c (.ifThen condition body) (.ifThen condition' body') c₂
  | ifElse {scope : ScopeId} {c c₁ c₂ c₃ : Checker} {condition condition' : Expr} {body body' : Block}
      {otherwise otherwise' : Stmt} :
      condition.Passes scope c condition' .bool c₁ → Block.Passes scope c₁ body body' c₂ →
        Stmt.Passes scope c₂ otherwise otherwise' c₃ →
        Stmt.Passes scope c (.ifElse condition body otherwise) (.ifElse condition' body' otherwise') c₃
  | whileLoop {scope : ScopeId} {c c₁ c₂ : Checker} {condition condition' : Expr} {body body' : Block} :
      condition.Passes scope c condition' .bool c₁ → Block.Passes scope c₁ body body' c₂ →
        Stmt.Passes scope c (.whileLoop condition body) (.whileLoop condition' body') c₂
  | doWhile {scope : ScopeId} {c c₁ c₂ : Checker} {body body' : Block} {condition condition' : Expr} :
      Block.Passes scope c body body' c₁ → condition.Passes scope c₁ condition' .bool c₂ →
        Stmt.Passes scope c (.doWhile body condition) (.doWhile body' condition') c₂
  | forLoop {scope : ScopeId} {c c₁ c₂ c₃ c₄ : Checker} {init init' : Stmt} {condition condition' : Expr}
      {step step' : Stmt} {body body' : Block} :
      Stmt.Passes scope c init init' c₁ → condition.Passes scope c₁ condition' .bool c₂ →
        Stmt.Passes scope c₂ step step' c₃ → Block.Passes scope c₃ body body' c₄ →
        Stmt.Passes scope c (.forLoop init condition step body) (.forLoop init' condition' step' body') c₄
  | function {scope : ScopeId} {c c₁ c₂ c₃ : Checker} {name : String} {parameters parameters' : List Parameter}
      {result : TypeExpr} {body body' : Block} {symbol : Option SymbolId} {resultTy : Ty} {tys : List Ty}
      {id : SymbolId} :
      c.resolve scope result = .ok resultTy →
        Parameter.AllPass scope (c.newScope scope).1 (c.newScope scope).2 parameters parameters' tys c₁ →
        c₁.define scope (.forFunction name resultTy tys) = .ok (id, c₂) →
        Block.PassesIn (c.newScope scope).1 c₂ body body' c₃ →
        Stmt.Passes scope c (.function name parameters result body symbol)
          (.function name parameters' result body' (some id)) c₃
  | declare {scope : ScopeId} {c c₁ : Checker} {written : TypeExpr} {ds ds' : List Declarator} {ty : Ty} :
      c.resolve scope written = .ok ty → ty.primitive ≠ .void → Declarator.AllPass scope ty c ds ds' c₁ →
        Stmt.Passes scope c (.declare written ds) (.declare written ds') c₁
  | assign {scope : ScopeId} {c c₁ c₂ : Checker} {target target' value value' : Expr} {ty : Ty} :
      target.Passes scope c target' ty c₁ → value.Passes scope c₁ value' ty c₂ → target'.isLvalue = true →
        Stmt.Passes scope c (.assign target value) (.assign target' value') (c₂.markInitialized target')
  | eval {scope : ScopeId} {c c₁ : Checker} {value value' : Expr} {ty : Ty} :
      value.Passes scope c value' ty c₁ → Stmt.Passes scope c (.eval value) (.eval value') c₁
  | print {scope : ScopeId} {c c₁ : Checker} {value value' : Expr} {ty : Ty} :
      value.Passes scope c value' ty c₁ → Stmt.Passes scope c (.print value) (.print value') c₁
  | input {scope : ScopeId} {c c₁ : Checker} {target target' : Expr} {ty : Ty} :
      target.Passes scope c target' ty c₁ → Checker.isBinary target' = false → ty.isUnqualified = true →
        target'.isLvalue = true →
        Stmt.Passes scope c (.input target) (.input target') (c₁.markInitialized target')

/-- A block passes in a new scope inside the given one. -/
inductive Block.Passes : ScopeId → Checker → Block → Block → Checker → Prop
  | intro {parent : ScopeId} {c c₁ : Checker} {body body' : Block} :
      Block.PassesIn (c.newScope parent).1 (c.newScope parent).2 body body' c₁ →
        Block.Passes parent c body body' c₁

/-- A block passes whose scope is open already. -/
inductive Block.PassesIn : ScopeId → Checker → Block → Block → Checker → Prop
  | intro {scope : ScopeId} {c c₁ : Checker} {statements statements' : List Stmt} {own : Option ScopeId} :
      Stmt.AllPass scope c statements statements' c₁ →
        Block.PassesIn scope c ⟨statements, own⟩ ⟨statements', some scope⟩ c₁

/-- Statements pass, one after another. -/
inductive Stmt.AllPass : ScopeId → Checker → List Stmt → List Stmt → Checker → Prop
  | nil {scope : ScopeId} {c : Checker} : Stmt.AllPass scope c [] [] c
  | cons {scope : ScopeId} {c c₁ c₂ : Checker} {statement statement' : Stmt} {rest rest' : List Stmt} :
      Stmt.Passes scope c statement statement' c₁ → Stmt.AllPass scope c₁ rest rest' c₂ →
        Stmt.AllPass scope c (statement :: rest) (statement' :: rest') c₂

end

/-! ## Accepted answers -/

namespace Checked

variable {α β γ δ : Type}

@[simp]
theorem accept_andThen (tree : α) (c : Checker) (value : β) (rebuild : α → γ)
    (next : α → β → Checker → Checked γ δ) : (accept tree c value).andThen rebuild next = next tree value c := rfl

/-- A whole is accepted exactly if its first part is and what follows accepts from there on. -/
theorem andThen_eq_accept {part : Checked α β} {rebuild : α → γ}
    {next : α → β → Checker → Checked γ δ} {tree : γ} {c : Checker} {value : δ} :
    part.andThen rebuild next = .accept tree c value ↔
      ∃ tree' c' value', part = .accept tree' c' value' ∧ next tree' value' c' = .accept tree c value := by
  obtain ⟨tree', c', outcome⟩ := part
  cases outcome with
  | error e => simp [andThen, accept, reject]
  | ok value' => simp [andThen, accept, and_assoc]

theorem accept_inj {tree tree' : α} {c c' : Checker} {value value' : β} :
    accept tree c value = accept tree' c' value' ↔ tree = tree' ∧ c = c' ∧ value = value' := by
  simp [accept]

/-- A block is accepted exactly if its statements are, and then carries its scope. -/
theorem inScope_eq_accept {statements : Checked (List Stmt) Unit} {scope : ScopeId} {block : Block}
    {c : Checker} {u : Unit} :
    statements.inScope scope = .accept block c u ↔
      ∃ tree, statements = .accept tree c u ∧ block = ⟨tree, some scope⟩ := by
  obtain ⟨tree, c', outcome⟩ := statements
  constructor
  · intro h
    cases h
    exact ⟨tree, rfl, rfl⟩
  · rintro ⟨tree', h, rfl⟩
    cases h
    rfl

/-- To reject is not to accept, so no rule of the walk is needed for a rejection. -/
theorem reject_ne_accept {tree tree' : α} {c c' : Checker} {e : CheckError} {value : β} :
    reject tree c e ≠ accept tree' c' value := by
  simp [reject, accept]

end Checked

/-- An induction principle that leaves the arguments of calls alone: no call is ever accepted. -/
theorem Expr.shallowInduction {motive : Expr → Prop}
    (literal : ∀ value ty, motive (.literal value ty))
    (name : ∀ spelling symbol ty, motive (.name spelling symbol ty))
    (unary : ∀ op operand ty, motive operand → motive (.unary op operand ty))
    (binary : ∀ op left right ty, motive left → motive right → motive (.binary op left right ty))
    (index : ∀ base position ty, motive base → motive position → motive (.index base position ty))
    (call : ∀ callee arguments ty, motive (.call callee arguments ty)) :
    ∀ x, motive x
  | .literal value ty => literal value ty
  | .name spelling symbol ty => name spelling symbol ty
  | .unary op operand ty =>
    unary op operand ty (shallowInduction literal name unary binary index call operand)
  | .binary op left right ty =>
    binary op left right ty (shallowInduction literal name unary binary index call left)
      (shallowInduction literal name unary binary index call right)
  | .index base position ty =>
    index base position ty (shallowInduction literal name unary binary index call base)
      (shallowInduction literal name unary binary index call position)
  | .call callee arguments ty => call callee arguments ty

namespace Checker

variable {scope : ScopeId} {c c' : Checker}

/-- Where an expression is accepted its parts were, one after another. The induction leaves out arguments, since a
call is rejected whatever they are. -/
theorem passes_of_checkExpr {x x' : Expr} {ty : Ty} (h : checkExpr scope x c = .accept x' c' ty) :
    x.Passes scope c x' ty c' := by
  induction x using Expr.shallowInduction generalizing x' c c' ty with
  | literal value _ =>
    obtain ⟨rfl, rfl, rfl⟩ := Checked.accept_inj.1 h
    exact .literal
  | name spelling symbol _ =>
    simp only [checkExpr] at h
    split at h
    · exact absurd h Checked.reject_ne_accept
    · rename_i id seen
      split at h
      · exact absurd h Checked.reject_ne_accept
      · rename_i s found
        obtain ⟨rfl, rfl, rfl⟩ := Checked.accept_inj.1 h
        exact .name seen found
  | unary op operand _ ih =>
    obtain ⟨operand', c₁, operandTy, hoperand, h⟩ := Checked.andThen_eq_accept.1 h
    split at h
    · exact absurd h Checked.reject_ne_accept
    · rename_i result
      obtain ⟨rfl, rfl, rfl⟩ := Checked.accept_inj.1 h
      exact .unary (ih hoperand) result
  | binary op left right _ ihl ihr =>
    obtain ⟨left', c₁, leftTy, hleft, h⟩ := Checked.andThen_eq_accept.1 h
    obtain ⟨right', c₂, rightTy, hright, h⟩ := Checked.andThen_eq_accept.1 h
    split at h
    · exact absurd h Checked.reject_ne_accept
    · rename_i result
      obtain ⟨rfl, rfl, rfl⟩ := Checked.accept_inj.1 h
      exact .binary (ihl hleft) (ihr hright) result
  | index base position _ ihb ihp =>
    obtain ⟨base', c₁, baseTy, hbase, h⟩ := Checked.andThen_eq_accept.1 h
    obtain ⟨position', c₂, positionTy, hposition, h⟩ := Checked.andThen_eq_accept.1 h
    split at h
    · exact absurd h Checked.reject_ne_accept
    · rename_i integer
      obtain rfl : positionTy = .int := Decidable.of_not_not integer
      split at h
      · exact absurd h Checked.reject_ne_accept
      · rename_i element
        obtain ⟨rfl, rfl, rfl⟩ := Checked.accept_inj.1 h
        exact .index (ihb hbase) (ihp hposition) element
  | call callee arguments _ => exact absurd h Checked.reject_ne_accept

/-- What the walk through an expression says is what checking does, by induction on the walk. -/
theorem checkExpr_of_passes {x x' : Expr} {ty : Ty} (h : x.Passes scope c x' ty c') :
    checkExpr scope x c = .accept x' c' ty := by
  induction h with
  | literal => rfl
  | name seen found => simp only [checkExpr, seen, found]
  | unary _ result ih => simp only [checkExpr, ih, Checked.accept_andThen, result]
  | binary _ _ result ihl ihr => simp only [checkExpr, ihl, ihr, Checked.accept_andThen, result]
  | index _ _ element ihb ihp =>
    simp only [checkExpr, ihb, ihp, Checked.accept_andThen, ne_eq, not_true_eq_false, if_false, element]

/-- The accepted answers for an expression. -/
theorem checkExpr_eq_accept {x x' : Expr} {ty : Ty} :
    checkExpr scope x c = .accept x' c' ty ↔ x.Passes scope c x' ty c' :=
  ⟨passes_of_checkExpr, checkExpr_of_passes⟩

/-- A condition is accepted exactly if it passes as a truth value. -/
theorem checkCondition_eq_accept {x x' : Expr} :
    checkCondition scope x c = .accept x' c' () ↔ x.Passes scope c x' .bool c' := by
  simp only [checkCondition, Checked.andThen_eq_accept, checkExpr_eq_accept]
  constructor
  · rintro ⟨x₁, c₁, ty, hx, h⟩
    split at h
    · rename_i isBool
      obtain ⟨rfl, rfl, -⟩ := Checked.accept_inj.1 h
      exact isBool ▸ hx
    · exact absurd h Checked.reject_ne_accept
  · exact fun hx => ⟨x', c', .bool, hx, if_pos rfl⟩

/-- An initial value is accepted exactly if it has the type of what it is for. -/
theorem checkInit_eq_accept {ty : Ty} {name : String} {init init' : Option Expr} {initialized : Bool} :
    checkInit scope ty name init c = .accept init' c' initialized ↔
      Declarator.InitPasses scope ty name c init init' initialized c' := by
  cases init with
  | none =>
    constructor
    · intro h
      obtain ⟨rfl, rfl, rfl⟩ := Checked.accept_inj.1 h
      exact .bare
    · rintro ⟨⟩
      rfl
  | some x =>
    simp only [checkInit, Checked.andThen_eq_accept, checkExpr_eq_accept]
    constructor
    · rintro ⟨x₁, c₁, found, hx, h⟩
      split at h
      · rename_i same
        obtain ⟨rfl, rfl, rfl⟩ := Checked.accept_inj.1 h
        exact .valued (same ▸ hx)
      · exact absurd h Checked.reject_ne_accept
    · rintro ⟨⟩
      rename_i hx
      exact ⟨_, _, ty, hx, if_pos rfl⟩

/-- Declared names are accepted exactly if each of them is in the table that those before it leave. -/
theorem checkDeclarators_eq_accept {ty : Ty} {ds ds' : List Declarator} :
    checkDeclarators scope ty ds c = .accept ds' c' () ↔ Declarator.AllPass scope ty c ds ds' c' := by
  constructor
  · intro h
    induction ds generalizing ds' c c' with
    | nil =>
      obtain ⟨rfl, rfl, -⟩ := Checked.accept_inj.1 h
      exact .nil
    | cons d ds ih =>
      obtain ⟨init, c₁, initialized, hinit, h⟩ := Checked.andThen_eq_accept.1 h
      split at h
      · exact absurd h Checked.reject_ne_accept
      · rename_i id c₂ defined
        obtain ⟨rest, c₃, _, hrest, h⟩ := Checked.andThen_eq_accept.1 h
        obtain ⟨rfl, rfl, -⟩ := Checked.accept_inj.1 h
        exact .cons (checkInit_eq_accept.1 hinit) defined (ih hrest)
  · intro h
    induction h with
    | nil => rfl
    | cons hinit defined _ ih =>
      simp only [checkDeclarators, checkInit_eq_accept.2 hinit, Checked.accept_andThen, defined, ih]

/-- Parameters are accepted exactly if each of them is in the table that those before it leave. Their types are looked
up outside the function, their names entered inside. -/
theorem checkParameters_eq_accept {inner : ScopeId} {ps ps' : List Parameter} {tys : List Ty} :
    checkParameters scope inner ps c = .accept ps' c' tys ↔ Parameter.AllPass scope inner c ps ps' tys c' := by
  constructor
  · intro h
    induction ps generalizing ps' c c' tys with
    | nil =>
      obtain ⟨rfl, rfl, rfl⟩ := Checked.accept_inj.1 h
      exact .nil
    | cons p ps ih =>
      simp only [checkParameters] at h
      split at h
      · exact absurd h Checked.reject_ne_accept
      · rename_i ty resolved
        split at h
        · exact absurd h Checked.reject_ne_accept
        · rename_i id c₁ defined
          obtain ⟨rest, c₂, _, hrest, h⟩ := Checked.andThen_eq_accept.1 h
          obtain ⟨rfl, rfl, rfl⟩ := Checked.accept_inj.1 h
          exact .cons resolved defined (ih hrest)
  · intro h
    induction h with
    | nil => rfl
    | cons resolved defined _ ih => simp only [checkParameters, resolved, defined, ih, Checked.accept_andThen]

/-- An accepted assignment has two sides of the same type and a place on its left. -/
theorem passes_of_checkAssign {target value : Expr} {s : Stmt} {u : Unit}
    (h : checkAssign scope target value c = .accept s c' u) : Stmt.Passes scope c (.assign target value) s c' := by
  obtain ⟨target', c₁, targetTy, htarget, h⟩ := Checked.andThen_eq_accept.1 h
  obtain ⟨value', c₂, valueTy, hvalue, h⟩ := Checked.andThen_eq_accept.1 h
  split at h
  · exact absurd h Checked.reject_ne_accept
  · rename_i same
    obtain rfl : targetTy = valueTy := Decidable.of_not_not same
    split at h
    · exact absurd h Checked.reject_ne_accept
    · rename_i lvalue
      obtain ⟨rfl, rfl, -⟩ := Checked.accept_inj.1 h
      exact .assign (passes_of_checkExpr htarget) (passes_of_checkExpr hvalue) (by simpa using lvalue)

/-- What is read into is a place of an unqualified type. That it is no operator is asked first. -/
theorem passes_of_checkInput {target : Expr} {s : Stmt} {u : Unit}
    (h : checkInput scope target c = .accept s c' u) : Stmt.Passes scope c (.input target) s c' := by
  obtain ⟨target', c₁, ty, htarget, h⟩ := Checked.andThen_eq_accept.1 h
  split at h
  · exact absurd h Checked.reject_ne_accept
  · rename_i single
    split at h
    · exact absurd h Checked.reject_ne_accept
    · rename_i plain
      split at h
      · exact absurd h Checked.reject_ne_accept
      · rename_i lvalue
        obtain ⟨rfl, rfl, -⟩ := Checked.accept_inj.1 h
        exact .input (passes_of_checkExpr htarget) (by simpa using single) (by simpa using plain)
          (by simpa using lvalue)

/-- An accepted declaration is of a type that is known and not `void`. -/
theorem passes_of_checkDeclare {written : TypeExpr} {ds : List Declarator} {s : Stmt} {u : Unit}
    (h : checkDeclare scope written ds c = .accept s c' u) : Stmt.Passes scope c (.declare written ds) s c' := by
  unfold checkDeclare at h
  split at h
  · exact absurd h Checked.reject_ne_accept
  · rename_i ty resolved
    split at h
    · exact absurd h Checked.reject_ne_accept
    · rename_i complete
      obtain ⟨ds', c₁, _, hds, h⟩ := Checked.andThen_eq_accept.1 h
      obtain ⟨rfl, rfl, -⟩ := Checked.accept_inj.1 h
      exact .declare resolved complete (checkDeclarators_eq_accept.1 hds)

mutual

/-- An accepted statement was walked through. By induction on the statement, with one case for every rule; the
statements without a rule are rejected. -/
theorem passes_of_checkStmt {scope : ScopeId} {c c' : Checker} {u : Unit} :
    {s s' : Stmt} → checkStmt scope s c = .accept s' c' u → s.Passes scope c s' c'
  | .block _, _, h => by
    simp only [checkStmt] at h
    obtain ⟨body', c₁, _, hbody, h⟩ := Checked.andThen_eq_accept.1 h
    obtain ⟨rfl, rfl, -⟩ := Checked.accept_inj.1 h
    exact .block (passes_of_checkBlock hbody)
  | .ifThen _ _, _, h => by
    simp only [checkStmt] at h
    obtain ⟨condition', c₁, _, hcondition, h⟩ := Checked.andThen_eq_accept.1 h
    obtain ⟨body', c₂, _, hbody, h⟩ := Checked.andThen_eq_accept.1 h
    obtain ⟨rfl, rfl, -⟩ := Checked.accept_inj.1 h
    exact .ifThen (checkCondition_eq_accept.1 hcondition) (passes_of_checkBlock hbody)
  | .ifElse _ _ _, _, h => by
    simp only [checkStmt] at h
    obtain ⟨condition', c₁, _, hcondition, h⟩ := Checked.andThen_eq_accept.1 h
    obtain ⟨body', c₂, _, hbody, h⟩ := Checked.andThen_eq_accept.1 h
    obtain ⟨otherwise', c₃, _, hotherwise, h⟩ := Checked.andThen_eq_accept.1 h
    obtain ⟨rfl, rfl, -⟩ := Checked.accept_inj.1 h
    exact .ifElse (checkCondition_eq_accept.1 hcondition) (passes_of_checkBlock hbody)
      (passes_of_checkStmt hotherwise)
  | .whileLoop _ _, _, h => by
    simp only [checkStmt] at h
    obtain ⟨condition', c₁, _, hcondition, h⟩ := Checked.andThen_eq_accept.1 h
    obtain ⟨body', c₂, _, hbody, h⟩ := Checked.andThen_eq_accept.1 h
    obtain ⟨rfl, rfl, -⟩ := Checked.accept_inj.1 h
    exact .whileLoop (checkCondition_eq_accept.1 hcondition) (passes_of_checkBlock hbody)
  | .doWhile _ _, _, h => by
    simp only [checkStmt] at h
    obtain ⟨body', c₁, _, hbody, h⟩ := Checked.andThen_eq_accept.1 h
    obtain ⟨condition', c₂, _, hcondition, h⟩ := Checked.andThen_eq_accept.1 h
    obtain ⟨rfl, rfl, -⟩ := Checked.accept_inj.1 h
    exact .doWhile (passes_of_checkBlock hbody) (checkCondition_eq_accept.1 hcondition)
  | .forLoop _ _ _ _, _, h => by
    simp only [checkStmt] at h
    obtain ⟨init', c₁, _, hinit, h⟩ := Checked.andThen_eq_accept.1 h
    obtain ⟨condition', c₂, _, hcondition, h⟩ := Checked.andThen_eq_accept.1 h
    obtain ⟨step', c₃, _, hstep, h⟩ := Checked.andThen_eq_accept.1 h
    obtain ⟨body', c₄, _, hbody, h⟩ := Checked.andThen_eq_accept.1 h
    obtain ⟨rfl, rfl, -⟩ := Checked.accept_inj.1 h
    exact .forLoop (passes_of_checkStmt hinit) (checkCondition_eq_accept.1 hcondition)
      (passes_of_checkStmt hstep) (passes_of_checkBlock hbody)
  | .function _ _ _ _ _, _, h => by
    simp only [checkStmt] at h
    split at h
    · exact absurd h Checked.reject_ne_accept
    · rename_i resultTy resolved
      obtain ⟨parameters', c₁, tys, hparameters, h⟩ := Checked.andThen_eq_accept.1 h
      split at h
      · exact absurd h Checked.reject_ne_accept
      · rename_i id c₂ defined
        obtain ⟨body', c₃, _, hbody, h⟩ := Checked.andThen_eq_accept.1 h
        obtain ⟨rfl, rfl, -⟩ := Checked.accept_inj.1 h
        exact .function resolved (checkParameters_eq_accept.1 hparameters) defined (passes_of_checkBlockIn hbody)
  | .declare _ _, _, h => passes_of_checkDeclare h
  | .assign _ _, _, h => passes_of_checkAssign h
  | .eval _, _, h => by
    simp only [checkStmt] at h
    obtain ⟨value', c₁, ty, hvalue, h⟩ := Checked.andThen_eq_accept.1 h
    obtain ⟨rfl, rfl, -⟩ := Checked.accept_inj.1 h
    exact .eval (passes_of_checkExpr hvalue)
  | .print _, _, h => by
    simp only [checkStmt] at h
    obtain ⟨value', c₁, ty, hvalue, h⟩ := Checked.andThen_eq_accept.1 h
    obtain ⟨rfl, rfl, -⟩ := Checked.accept_inj.1 h
    exact .print (passes_of_checkExpr hvalue)
  | .input _, _, h => passes_of_checkInput h
  | .breakLoop, _, h => absurd h Checked.reject_ne_accept
  | .continueLoop, _, h => absurd h Checked.reject_ne_accept
  | .returnValue _, _, h => absurd h Checked.reject_ne_accept

theorem passes_of_checkBlock {parent : ScopeId} {c c' : Checker} {u : Unit} :
    {b b' : Block} → checkBlock parent b c = .accept b' c' u → b.Passes parent c b' c'
  | ⟨_, _⟩, _, h => by
    simp only [checkBlock] at h
    obtain ⟨tree, hstatements, rfl⟩ := Checked.inScope_eq_accept.1 h
    exact .intro (.intro (passes_of_checkStmts hstatements))

theorem passes_of_checkBlockIn {scope : ScopeId} {c c' : Checker} {u : Unit} :
    {b b' : Block} → checkBlockIn scope b c = .accept b' c' u → b.PassesIn scope c b' c'
  | ⟨_, _⟩, _, h => by
    simp only [checkBlockIn] at h
    obtain ⟨tree, hstatements, rfl⟩ := Checked.inScope_eq_accept.1 h
    exact .intro (passes_of_checkStmts hstatements)

theorem passes_of_checkStmts {scope : ScopeId} {c c' : Checker} {u : Unit} :
    {statements statements' : List Stmt} → checkStmts scope statements c = .accept statements' c' u →
      Stmt.AllPass scope c statements statements' c'
  | [], _, h => by
    obtain ⟨rfl, rfl, -⟩ := Checked.accept_inj.1 h
    exact .nil
  | _ :: _, _, h => by
    simp only [checkStmts] at h
    obtain ⟨statement', c₁, _, hstatement, h⟩ := Checked.andThen_eq_accept.1 h
    obtain ⟨rest', c₂, _, hrest, h⟩ := Checked.andThen_eq_accept.1 h
    obtain ⟨rfl, rfl, -⟩ := Checked.accept_inj.1 h
    exact .cons (passes_of_checkStmt hstatement) (passes_of_checkStmts hrest)

end

mutual

/-- What the walk through a statement says is what checking does, by induction on the walk. -/
theorem checkStmt_of_passes {scope : ScopeId} {c c' : Checker} {s s' : Stmt} :
    s.Passes scope c s' c' → checkStmt scope s c = .accept s' c' ()
  | .block hbody => by simp only [checkStmt, checkBlock_of_passes hbody, Checked.accept_andThen]
  | .ifThen hcondition hbody | .whileLoop hcondition hbody | .doWhile hbody hcondition => by
    simp only [checkStmt, checkCondition_eq_accept.2 hcondition, checkBlock_of_passes hbody,
      Checked.accept_andThen]
  | .ifElse hcondition hbody hotherwise => by
    simp only [checkStmt, checkCondition_eq_accept.2 hcondition, checkBlock_of_passes hbody,
      checkStmt_of_passes hotherwise, Checked.accept_andThen]
  | .forLoop hinit hcondition hstep hbody => by
    simp only [checkStmt, checkStmt_of_passes hinit, checkCondition_eq_accept.2 hcondition,
      checkStmt_of_passes hstep, checkBlock_of_passes hbody, Checked.accept_andThen]
  | .function resolved hparameters defined hbody => by
    simp only [checkStmt, resolved, checkParameters_eq_accept.2 hparameters, defined,
      checkBlockIn_of_passes hbody, Checked.accept_andThen]
  | .declare resolved complete hds => by
    simp only [checkStmt, checkDeclare, resolved, if_neg complete, checkDeclarators_eq_accept.2 hds,
      Checked.accept_andThen]
  | .assign htarget hvalue lvalue => by
    simp [checkStmt, checkAssign, checkExpr_of_passes htarget, checkExpr_of_passes hvalue, lvalue]
  | .eval hvalue | .print hvalue => by simp only [checkStmt, checkExpr_of_passes hvalue, Checked.accept_andThen]
  | .input htarget single plain lvalue => by
    simp [checkStmt, checkInput, checkExpr_of_passes htarget, single, plain, lvalue]

theorem checkBlock_of_passes {parent : ScopeId} {c c' : Checker} {b b' : Block} :
    b.Passes parent c b' c' → checkBlock parent b c = .accept b' c' ()
  | .intro (.intro hstatements) => by
    simp only [checkBlock]
    rw [checkStmts_of_passes hstatements]
    rfl

theorem checkBlockIn_of_passes {scope : ScopeId} {c c' : Checker} {b b' : Block} :
    b.PassesIn scope c b' c' → checkBlockIn scope b c = .accept b' c' ()
  | .intro hstatements => by
    simp only [checkBlockIn]
    rw [checkStmts_of_passes hstatements]
    rfl

theorem checkStmts_of_passes {scope : ScopeId} {c c' : Checker} {statements statements' : List Stmt} :
    Stmt.AllPass scope c statements statements' c' → checkStmts scope statements c = .accept statements' c' ()
  | .nil => rfl
  | .cons hstatement hrest => by
    simp only [checkStmts, checkStmt_of_passes hstatement, checkStmts_of_passes hrest, Checked.accept_andThen]

end

/-- The accepted answers for a statement. -/
theorem checkStmt_eq_accept {s s' : Stmt} :
    checkStmt scope s c = .accept s' c' () ↔ s.Passes scope c s' c' :=
  ⟨passes_of_checkStmt, checkStmt_of_passes⟩

/-- The accepted answers for a block. -/
theorem checkBlock_eq_accept {b b' : Block} :
    checkBlock scope b c = .accept b' c' () ↔ b.Passes scope c b' c' :=
  ⟨passes_of_checkBlock, checkBlock_of_passes⟩

/-- The accepted answers for statements in a row. -/
theorem checkStmts_eq_accept {statements statements' : List Stmt} :
    checkStmts scope statements c = .accept statements' c' () ↔ Stmt.AllPass scope c statements statements' c' :=
  ⟨passes_of_checkStmts, checkStmts_of_passes⟩

end Checker

end MiniC
