import MiniC.Compile
import MiniC.Proofs.Results

/-!
# Checking only annotates

`erase` takes all annotations away. Whatever checking makes of a tree, accepted or not, the tree without
its annotations stays what it was, so what a tree is made of can be told from its checked form. The
question asked here is whether it has an index expression.
-/

namespace MiniC

/-! ## Trees without annotations -/

mutual

/-- An expression without its annotations. -/
def Expr.erase : Expr → Expr
  | .literal value _ => .literal value
  | .name spelling _ _ => .name spelling
  | .unary op operand _ => .unary op operand.erase
  | .binary op left right _ => .binary op left.erase right.erase
  | .index base position _ => .index base.erase position.erase
  | .call callee arguments _ => .call callee.erase (Expr.eraseAll arguments)

/-- Expressions without their annotations. -/
def Expr.eraseAll : List Expr → List Expr
  | [] => []
  | x :: xs => x.erase :: Expr.eraseAll xs

end

/-- A declared name without its annotations. -/
def Declarator.erase (d : Declarator) : Declarator :=
  ⟨d.name, d.init.map Expr.erase, none⟩

/-- A parameter without its annotation. -/
def Parameter.erase (p : Parameter) : Parameter :=
  { p with symbol := none }

mutual

/-- A statement without its annotations. -/
def Stmt.erase : Stmt → Stmt
  | .block body => .block body.erase
  | .ifThen condition body => .ifThen condition.erase body.erase
  | .ifElse condition body otherwise => .ifElse condition.erase body.erase otherwise.erase
  | .whileLoop condition body => .whileLoop condition.erase body.erase
  | .doWhile body condition => .doWhile body.erase condition.erase
  | .forLoop init condition step body =>
    .forLoop init.erase condition.erase step.erase body.erase
  | .function name parameters result body _ =>
    .function name (parameters.map Parameter.erase) result body.erase
  | .declare ty declarators => .declare ty (declarators.map Declarator.erase)
  | .assign target value => .assign target.erase value.erase
  | .eval value => .eval value.erase
  | .print value => .print value.erase
  | .input target => .input target.erase
  | .breakLoop => .breakLoop
  | .continueLoop => .continueLoop
  | .returnValue value => .returnValue (value.map Expr.erase)

/-- A block without its annotations. -/
def Block.erase : Block → Block
  | ⟨statements, _⟩ => ⟨Stmt.eraseAll statements, none⟩

/-- Statements without their annotations. -/
def Stmt.eraseAll : List Stmt → List Stmt
  | [] => []
  | statement :: rest => statement.erase :: Stmt.eraseAll rest

end

/-! ## Checking -/

namespace Checked

variable {α β γ δ ε : Type}

/-- What is true of the rebuilt whole and of what goes on is true of the tree of a sequence. -/
theorem andThen_tree {part : Checked α β} {rebuild : α → γ} {next : α → β → Checker → Checked γ δ}
    {f : γ → ε} {value : ε} (rebuilt : f (rebuild part.tree) = value)
    (further : ∀ b c, f (next part.tree b c).tree = value) :
    f (part.andThen rebuild next).tree = value := by
  unfold andThen
  cases part.outcome with
  | error e => exact rebuilt
  | ok b => exact further b part.checker

@[simp]
theorem tree_accept (tree : α) (c : Checker) (value : β) : (accept tree c value).tree = tree := rfl

@[simp]
theorem tree_reject (tree : α) (c : Checker) (e : CheckError) :
    (reject tree c e : Checked α β).tree = tree := rfl

end Checked

namespace Checker

open Checked (andThen_tree)

/-- Checking an expression changes nothing but annotations. By recursion on it; a call is given back as it was. -/
theorem erase_checkExpr (scope : ScopeId) :
    (x : Expr) → (c : Checker) → (checkExpr scope x c).tree.erase = x.erase
  | .literal _ _, _ => rfl
  | .name _ _ _, _ => by
    simp only [checkExpr]
    split
    · rfl
    · split <;> rfl
  | .unary op operand ty, c => by
    have part := erase_checkExpr scope operand c
    refine andThen_tree (by simp [Expr.erase, part]) fun operandTy c => ?_
    split <;> simp [Expr.erase, part]
  | .binary op left right ty, c => by
    have first := erase_checkExpr scope left c
    refine andThen_tree (by simp [Expr.erase, first]) fun leftTy c => ?_
    have second := erase_checkExpr scope right c
    refine andThen_tree (by simp [Expr.erase, first, second]) fun rightTy c => ?_
    split <;> simp [Expr.erase, first, second]
  | .index base position ty, c => by
    have first := erase_checkExpr scope base c
    refine andThen_tree (by simp [Expr.erase, first]) fun baseTy c => ?_
    have second := erase_checkExpr scope position c
    refine andThen_tree (by simp [Expr.erase, first, second]) fun positionTy c => ?_
    split
    · simp [Expr.erase, first, second]
    · split <;> simp [Expr.erase, first, second]
  | .call _ _ _, _ => rfl

/-- To ask for a truth value changes nothing. -/
theorem erase_checkCondition (scope : ScopeId) (x : Expr) (c : Checker) :
    (checkCondition scope x c).tree.erase = x.erase := by
  have part := erase_checkExpr scope x c
  refine andThen_tree part fun ty c => ?_
  split <;> exact part

/-- Declared names come back in their order, those after a rejected one as they were. -/
theorem erase_checkDeclarators (scope : ScopeId) (ty : Ty) (ds : List Declarator) (c : Checker) :
    (checkDeclarators scope ty ds c).tree.map Declarator.erase = ds.map Declarator.erase := by
  induction ds generalizing c with
  | nil => rfl
  | cons d ds ih =>
    have init : (checkInit scope ty d.name d.init c).tree.map Expr.erase = d.init.map Expr.erase := by
      cases d.init with
      | none => rfl
      | some init =>
        have part := erase_checkExpr scope init c
        refine andThen_tree (congrArg some part) fun found c => ?_
        split <;> exact congrArg some part
    have first : Declarator.erase { d with init := (checkInit scope ty d.name d.init c).tree } =
        d.erase := by
      simp [Declarator.erase, init]
    simp only [checkDeclarators]
    refine andThen_tree (by simp [first]) fun initialized c => ?_
    split
    · simp [first]
    · refine andThen_tree ?_ fun _ c => ?_
      · simp [ih, Declarator.erase, init]
      · simp [ih, Declarator.erase, init]

/-- Parameters come back in their order, those after a rejected one as they were. -/
theorem erase_checkParameters (outer inner : ScopeId) (ps : List Parameter) (c : Checker) :
    (checkParameters outer inner ps c).tree.map Parameter.erase = ps.map Parameter.erase := by
  induction ps generalizing c with
  | nil => rfl
  | cons p ps ih =>
    simp only [checkParameters]
    split
    · rfl
    · split
      · rfl
      · refine andThen_tree ?_ fun _ c => ?_
        · simp [ih, Parameter.erase]
        · simp [ih, Parameter.erase]

mutual

/-- Checking a statement changes nothing but annotations. By induction on the statement: every part is
put back where it was, whether the whole is accepted or rejected. -/
theorem erase_checkStmt (scope : ScopeId) :
    (s : Stmt) → (c : Checker) → (checkStmt scope s c).tree.erase = s.erase
  | .block body, c => by
    have part := erase_checkBlock scope body c
    exact andThen_tree (by simp [Stmt.erase, part]) fun _ c => by simp [Stmt.erase, part]
  | .ifThen condition body, c => by
    have first := erase_checkCondition scope condition c
    refine andThen_tree (by simp [Stmt.erase, first]) fun _ c => ?_
    have second := erase_checkBlock scope body c
    exact andThen_tree (by simp [Stmt.erase, first, second]) fun _ c => by
      simp [Stmt.erase, first, second]
  | .ifElse condition body otherwise, c => by
    have first := erase_checkCondition scope condition c
    refine andThen_tree (by simp [Stmt.erase, first]) fun _ c => ?_
    have second := erase_checkBlock scope body c
    refine andThen_tree (by simp [Stmt.erase, first, second]) fun _ c => ?_
    have third := erase_checkStmt scope otherwise c
    exact andThen_tree (by simp [Stmt.erase, first, second, third]) fun _ c => by
      simp [Stmt.erase, first, second, third]
  | .whileLoop condition body, c => by
    have first := erase_checkCondition scope condition c
    refine andThen_tree (by simp [Stmt.erase, first]) fun _ c => ?_
    have second := erase_checkBlock scope body c
    exact andThen_tree (by simp [Stmt.erase, first, second]) fun _ c => by
      simp [Stmt.erase, first, second]
  | .doWhile body condition, c => by
    have first := erase_checkBlock scope body c
    refine andThen_tree (by simp [Stmt.erase, first]) fun _ c => ?_
    have second := erase_checkCondition scope condition c
    exact andThen_tree (by simp [Stmt.erase, first, second]) fun _ c => by
      simp [Stmt.erase, first, second]
  | .forLoop init condition step body, c => by
    have first := erase_checkStmt scope init c
    refine andThen_tree (by simp [Stmt.erase, first]) fun _ c => ?_
    have second := erase_checkCondition scope condition c
    refine andThen_tree (by simp [Stmt.erase, first, second]) fun _ c => ?_
    have third := erase_checkStmt scope step c
    refine andThen_tree (by simp [Stmt.erase, first, second, third]) fun _ c => ?_
    have fourth := erase_checkBlock scope body c
    exact andThen_tree (by simp [Stmt.erase, first, second, third, fourth]) fun _ c => by
      simp [Stmt.erase, first, second, third, fourth]
  | .function name parameters result body symbol, c₀ => by
    simp only [checkStmt]
    split
    · rfl
    · have first := erase_checkParameters scope (c₀.newScope scope).1 parameters (c₀.newScope scope).2
      refine andThen_tree (by simp [Stmt.erase, first]) fun tys c => ?_
      split
      · simp [Stmt.erase, first]
      · rename_i id c _
        have second := erase_checkBlockIn (c₀.newScope scope).1 body c
        exact andThen_tree (by simp [Stmt.erase, first, second]) fun _ c => by
          simp [Stmt.erase, first, second]
  | .declare ty declarators, c => by
    simp only [checkStmt, checkDeclare]
    split
    · rfl
    · split
      · rfl
      · rename_i declared _ _
        have part := erase_checkDeclarators scope declared declarators c
        exact andThen_tree (by simp [Stmt.erase, part]) fun _ c => by simp [Stmt.erase, part]
  | .assign target value, c => by
    have first := erase_checkExpr scope target c
    refine andThen_tree (by simp [Stmt.erase, first]) fun targetTy c => ?_
    have second := erase_checkExpr scope value c
    refine andThen_tree (by simp [Stmt.erase, first, second]) fun valueTy c => ?_
    split
    · simp [Stmt.erase, first, second]
    · split <;> simp [Stmt.erase, first, second]
  | .eval value, c => by
    have part := erase_checkExpr scope value c
    exact andThen_tree (by simp [Stmt.erase, part]) fun _ c => by simp [Stmt.erase, part]
  | .print value, c => by
    have part := erase_checkExpr scope value c
    exact andThen_tree (by simp [Stmt.erase, part]) fun _ c => by simp [Stmt.erase, part]
  | .input target, c => by
    have part := erase_checkExpr scope target c
    refine andThen_tree (by simp [Stmt.erase, part]) fun ty c => ?_
    split
    · simp [Stmt.erase, part]
    · split
      · simp [Stmt.erase, part]
      · split <;> simp [Stmt.erase, part]
  | .breakLoop, _ => rfl
  | .continueLoop, _ => rfl
  | .returnValue _, _ => rfl

theorem erase_checkBlock (parent : ScopeId) :
    (b : Block) → (c : Checker) → (checkBlock parent b c).tree.erase = b.erase
  | ⟨statements, _⟩, c => by
    have part := erase_checkStmts (c.newScope parent).1 statements (c.newScope parent).2
    simp only [checkBlock, Checked.inScope, Block.erase, part]

theorem erase_checkBlockIn (scope : ScopeId) :
    (b : Block) → (c : Checker) → (checkBlockIn scope b c).tree.erase = b.erase
  | ⟨statements, _⟩, c => by
    have part := erase_checkStmts scope statements c
    simp only [checkBlockIn, Checked.inScope, Block.erase, part]

theorem erase_checkStmts (scope : ScopeId) :
    (statements : List Stmt) → (c : Checker) →
      Stmt.eraseAll (checkStmts scope statements c).tree = Stmt.eraseAll statements
  | [], _ => rfl
  | statement :: rest, c => by
    have first := erase_checkStmt scope statement c
    refine andThen_tree (by simp [Stmt.eraseAll, first]) fun _ c => ?_
    have second := erase_checkStmts scope rest c
    exact andThen_tree (by simp [Stmt.eraseAll, first, second]) fun _ c => by
      simp [Stmt.eraseAll, first, second]

end

end Checker

/-- A checked source is the tree that was read, with annotations. -/
theorem Source.erase_check {source : String} {options : Options} {checked : CheckedSource}
    (h : Source.check source options = .ok checked) :
    ∃ tree, Source.parse source (!options.stripComments) = .ok tree ∧ checked.tree.erase = tree.erase := by
  obtain ⟨tree, hparse, h⟩ := except_bind_eq_ok.1 h
  refine ⟨tree, hparse, ?_⟩
  have same := Checker.erase_checkBlock SymbolTable.global tree {}
  simp only at h
  split at h
  · cases h
  · cases h
    exact same

/-! ## Index expressions -/

mutual

/-- An expression has an index expression in it. -/
def Expr.HasIndex : Expr → Prop
  | .literal .. | .name .. => False
  | .unary _ operand _ => operand.HasIndex
  | .binary _ left right _ => left.HasIndex ∨ right.HasIndex
  | .index .. => True
  | .call callee arguments _ => callee.HasIndex ∨ Expr.AnyHasIndex arguments

/-- One of several expressions has an index expression in it. -/
def Expr.AnyHasIndex : List Expr → Prop
  | [] => False
  | x :: xs => x.HasIndex ∨ Expr.AnyHasIndex xs

end

mutual

/-- A statement has an index expression in it. -/
def Stmt.HasIndex : Stmt → Prop
  | .block body | .function _ _ _ body _ => body.HasIndex
  | .ifThen condition body | .whileLoop condition body | .doWhile body condition =>
    condition.HasIndex ∨ body.HasIndex
  | .ifElse condition body otherwise => condition.HasIndex ∨ body.HasIndex ∨ otherwise.HasIndex
  | .forLoop init condition step body =>
    init.HasIndex ∨ condition.HasIndex ∨ step.HasIndex ∨ body.HasIndex
  | .declare _ declarators => ∃ d ∈ declarators, ∃ init ∈ d.init, init.HasIndex
  | .assign target value => target.HasIndex ∨ value.HasIndex
  | .eval value | .print value => value.HasIndex
  | .input target => target.HasIndex
  | .breakLoop | .continueLoop => False
  | .returnValue value => ∃ x ∈ value, x.HasIndex

/-- A block has an index expression in it. -/
def Block.HasIndex : Block → Prop
  | ⟨statements, _⟩ => Stmt.AnyHasIndex statements

/-- One of several statements has an index expression in it. -/
def Stmt.AnyHasIndex : List Stmt → Prop
  | [] => False
  | statement :: rest => statement.HasIndex ∨ Stmt.AnyHasIndex rest

end

mutual

/-- Whether an expression has an index expression in it can be decided. -/
def Expr.decidableHasIndex : (x : Expr) → Decidable x.HasIndex
  | .literal .. | .name .. => .isFalse id
  | .unary _ operand _ => operand.decidableHasIndex
  | .binary _ left right _ => @instDecidableOr _ _ left.decidableHasIndex right.decidableHasIndex
  | .index .. => .isTrue trivial
  | .call callee arguments _ =>
    @instDecidableOr _ _ callee.decidableHasIndex (Expr.decidableAnyHasIndex arguments)

def Expr.decidableAnyHasIndex : (xs : List Expr) → Decidable (Expr.AnyHasIndex xs)
  | [] => .isFalse id
  | x :: xs => @instDecidableOr _ _ x.decidableHasIndex (Expr.decidableAnyHasIndex xs)

end

instance : DecidablePred Expr.HasIndex := Expr.decidableHasIndex

mutual

/-- Whether a statement has an index expression in it can be decided. -/
def Stmt.decidableHasIndex : (s : Stmt) → Decidable s.HasIndex
  | .block body => body.decidableHasIndex
  | .function _ _ _ body _ => body.decidableHasIndex
  | .ifThen condition body => @instDecidableOr _ _ condition.decidableHasIndex body.decidableHasIndex
  | .whileLoop condition body => @instDecidableOr _ _ condition.decidableHasIndex body.decidableHasIndex
  | .doWhile body condition => @instDecidableOr _ _ condition.decidableHasIndex body.decidableHasIndex
  | .ifElse condition body otherwise =>
    @instDecidableOr _ _ condition.decidableHasIndex
      (@instDecidableOr _ _ body.decidableHasIndex otherwise.decidableHasIndex)
  | .forLoop init condition step body =>
    @instDecidableOr _ _ init.decidableHasIndex (@instDecidableOr _ _ condition.decidableHasIndex
      (@instDecidableOr _ _ step.decidableHasIndex body.decidableHasIndex))
  | .declare _ declarators =>
    inferInstanceAs (Decidable (∃ d ∈ declarators, ∃ init ∈ d.init, init.HasIndex))
  | .assign target value => @instDecidableOr _ _ target.decidableHasIndex value.decidableHasIndex
  | .eval value => value.decidableHasIndex
  | .print value => value.decidableHasIndex
  | .input target => target.decidableHasIndex
  | .breakLoop | .continueLoop => .isFalse id
  | .returnValue value => inferInstanceAs (Decidable (∃ x ∈ value, x.HasIndex))

def Block.decidableHasIndex : (b : Block) → Decidable b.HasIndex
  | ⟨statements, _⟩ => Stmt.decidableAnyHasIndex statements

def Stmt.decidableAnyHasIndex : (statements : List Stmt) → Decidable (Stmt.AnyHasIndex statements)
  | [] => .isFalse id
  | statement :: rest =>
    @instDecidableOr _ _ statement.decidableHasIndex (Stmt.decidableAnyHasIndex rest)

end

instance : DecidablePred Block.HasIndex := Block.decidableHasIndex

mutual

/-- Annotations have no part in whether an expression has an index expression. -/
theorem Expr.hasIndex_erase : (x : Expr) → (x.erase.HasIndex ↔ x.HasIndex)
  | .literal .. | .name .. | .index .. => Iff.rfl
  | .unary _ operand _ => operand.hasIndex_erase
  | .binary _ left right _ => or_congr left.hasIndex_erase right.hasIndex_erase
  | .call callee arguments _ => or_congr callee.hasIndex_erase (Expr.anyHasIndex_eraseAll arguments)

theorem Expr.anyHasIndex_eraseAll :
    (xs : List Expr) → (Expr.AnyHasIndex (Expr.eraseAll xs) ↔ Expr.AnyHasIndex xs)
  | [] => Iff.rfl
  | x :: xs => or_congr x.hasIndex_erase (Expr.anyHasIndex_eraseAll xs)

end

mutual

/-- Annotations have no part in whether a tree has an index expression. -/
theorem Stmt.hasIndex_erase : (s : Stmt) → (s.erase.HasIndex ↔ s.HasIndex)
  | .block body => body.hasIndex_erase
  | .function _ _ _ body _ => body.hasIndex_erase
  | .ifThen condition body => or_congr condition.hasIndex_erase body.hasIndex_erase
  | .whileLoop condition body => or_congr condition.hasIndex_erase body.hasIndex_erase
  | .doWhile body condition => or_congr condition.hasIndex_erase body.hasIndex_erase
  | .ifElse condition body otherwise =>
    or_congr condition.hasIndex_erase (or_congr body.hasIndex_erase otherwise.hasIndex_erase)
  | .forLoop init condition step body =>
    or_congr init.hasIndex_erase (or_congr condition.hasIndex_erase
      (or_congr step.hasIndex_erase body.hasIndex_erase))
  | .declare _ declarators => by
    constructor
    · rintro ⟨_, mem, _, found, indexed⟩
      obtain ⟨d, held, rfl⟩ := List.mem_map.1 mem
      obtain ⟨init, some, rfl⟩ := Option.map_eq_some_iff.1 found
      exact ⟨d, held, init, some, init.hasIndex_erase.1 indexed⟩
    · rintro ⟨d, mem, init, found, indexed⟩
      exact ⟨d.erase, List.mem_map_of_mem mem, init.erase, Option.map_eq_some_iff.2 ⟨init, found, rfl⟩,
        init.hasIndex_erase.2 indexed⟩
  | .assign target value => or_congr target.hasIndex_erase value.hasIndex_erase
  | .eval value => value.hasIndex_erase
  | .print value => value.hasIndex_erase
  | .input target => target.hasIndex_erase
  | .breakLoop | .continueLoop => Iff.rfl
  | .returnValue value => by
    constructor
    · rintro ⟨_, found, indexed⟩
      obtain ⟨x, some, rfl⟩ := Option.map_eq_some_iff.1 found
      exact ⟨x, some, x.hasIndex_erase.1 indexed⟩
    · rintro ⟨x, found, indexed⟩
      exact ⟨x.erase, Option.map_eq_some_iff.2 ⟨x, found, rfl⟩, x.hasIndex_erase.2 indexed⟩

theorem Block.hasIndex_erase : (b : Block) → (b.erase.HasIndex ↔ b.HasIndex)
  | ⟨statements, _⟩ => Stmt.anyHasIndex_eraseAll statements

theorem Stmt.anyHasIndex_eraseAll :
    (statements : List Stmt) →
      (Stmt.AnyHasIndex (Stmt.eraseAll statements) ↔ Stmt.AnyHasIndex statements)
  | [] => Iff.rfl
  | statement :: rest => or_congr statement.hasIndex_erase (Stmt.anyHasIndex_eraseAll rest)

end

end MiniC
