import MiniC.Proofs.Annotation
import MiniC.Proofs.Bindings

/-!
# Checked trees are annotated throughout

Checking does not read the annotations that it finds in a tree. Its answer for a tree and for the tree without
annotations is the same (`Checked.Equivalent`); only the tree of a rejected part may still show what was there before.

If it accepts a tree, it has been everywhere. `Block.sites` lists the places of a tree that take an annotation, in the
order in which the walk comes to them: the nodes of expressions, blocks, and what is declared. `Checker.Annotates` says
what a part of the walk does: all its places are annotated by what the table has from then on, the symbols of what is
declared are new and different, and there is one warning for every name that is declared without a value. What two
parts do is what they do one after another (`Annotates.trans`), and `Block.check_annotates` puts a whole program
together.
-/

namespace MiniC

/-! ## Annotations are not read -/

namespace Checked

variable {α β γ δ : Type}

/-- Two answers are the same, but for the tree of a part that is rejected. -/
structure Equivalent (a b : Checked α β) : Prop where
  checker : a.checker = b.checker
  outcome : a.outcome = b.outcome
  tree : ∀ value, a.outcome = .ok value → a.tree = b.tree

theorem Equivalent.refl (a : Checked α β) : a.Equivalent a :=
  ⟨rfl, rfl, fun _ _ => rfl⟩

/-- If one answer accepts, the other accepts the same. -/
theorem Equivalent.eq_accept {a b : Checked α β} (h : a.Equivalent b) {tree : α} {c : Checker} {value : β}
    (accepted : a = .accept tree c value) : b = .accept tree c value := by
  subst accepted
  obtain ⟨tree', c', outcome'⟩ := b
  obtain ⟨rfl, rfl, same⟩ := h
  exact congrArg (accept · c value) (same value rfl).symm

/-- Where both reject for the same cause, the trees may differ. -/
theorem equivalent_reject (tree tree' : α) (c : Checker) (e : CheckError) :
    (reject tree c e : Checked α β).Equivalent (reject tree' c e) :=
  ⟨rfl, rfl, fun _ accepted => by cases accepted⟩

/-- If the parts have equivalent answers, so have the wholes: what goes on is given the same tree. -/
theorem Equivalent.andThen {part part' : Checked α β} {rebuild rebuild' : α → γ}
    {next next' : α → β → Checker → Checked γ δ} (h : part.Equivalent part')
    (further : ∀ tree value c, (next tree value c).Equivalent (next' tree value c)) :
    (part.andThen rebuild next).Equivalent (part'.andThen rebuild' next') := by
  obtain ⟨tree, c, outcome⟩ := part
  obtain ⟨tree', c', outcome'⟩ := part'
  obtain ⟨rfl, rfl, same⟩ := h
  cases outcome with
  | error e => exact equivalent_reject ..
  | ok value =>
    obtain rfl := same value rfl
    exact further tree value c

/-- A block whose statements have equivalent answers has one itself. -/
theorem Equivalent.inScope {a b : Checked (List Stmt) Unit} (h : a.Equivalent b) (scope : ScopeId) :
    (a.inScope scope).Equivalent (b.inScope scope) :=
  ⟨h.checker, h.outcome, fun value accepted => congrArg (Block.mk · (some scope)) (h.tree value accepted)⟩

end Checked

namespace Checker

open Checked (equivalent_reject)

/-- The answer for an expression does not depend on its annotations: checking writes them and does not read them. -/
theorem checkExpr_erase (scope : ScopeId) (x : Expr) (c : Checker) :
    (checkExpr scope x c).Equivalent (checkExpr scope x.erase c) := by
  induction x using Expr.shallowInduction generalizing c with
  | literal value _ => exact .refl _
  | name spelling symbol ty =>
    simp only [checkExpr, Expr.erase]
    split
    · exact equivalent_reject ..
    · split
      · exact equivalent_reject ..
      · exact .refl _
  | unary op operand _ ih =>
    refine (ih c).andThen fun operand' ty c => ?_
    split
    · exact equivalent_reject ..
    · exact .refl _
  | binary op left right _ ihl ihr =>
    refine (ihl c).andThen fun left' leftTy c => (ihr c).andThen fun right' rightTy c => ?_
    split
    · exact equivalent_reject ..
    · exact .refl _
  | index base position _ ihb ihp =>
    refine (ihb c).andThen fun base' baseTy c => (ihp c).andThen fun position' positionTy c => ?_
    split
    · exact equivalent_reject ..
    · split
      · exact equivalent_reject ..
      · exact .refl _
  | call callee arguments _ => exact equivalent_reject ..

theorem checkCondition_erase (scope : ScopeId) (x : Expr) (c : Checker) :
    (checkCondition scope x c).Equivalent (checkCondition scope x.erase c) :=
  (checkExpr_erase scope x c).andThen fun _ _ _ => .refl _

/-- The answer for an initial value does not depend on its annotations, as that for an expression does not. -/
theorem checkInit_erase (scope : ScopeId) (ty : Ty) (name : String) (init : Option Expr) (c : Checker) :
    (checkInit scope ty name init c).Equivalent (checkInit scope ty name (init.map Expr.erase) c) := by
  cases init with
  | none => exact .refl _
  | some x =>
    simp only [Option.map_some, checkInit]
    exact (checkExpr_erase scope x c).andThen fun _ _ _ => .refl _

/-- A list of declared names is checked in order, so the answers stay equivalent from one to the next. -/
theorem checkDeclarators_erase (scope : ScopeId) (ty : Ty) (ds : List Declarator) (c : Checker) :
    (checkDeclarators scope ty ds c).Equivalent (checkDeclarators scope ty (ds.map Declarator.erase) c) := by
  induction ds generalizing c with
  | nil => exact .refl _
  | cons d ds ih =>
    refine (checkInit_erase scope ty d.name d.init c).andThen fun init initialized c => ?_
    simp only [Declarator.erase]
    split
    · exact equivalent_reject ..
    · rename_i id c _
      exact (ih c).andThen fun _ _ _ => .refl _

/-- The symbols of parameters are written only, as the types of nodes are. -/
theorem checkParameters_erase (outer inner : ScopeId) (ps : List Parameter) (c : Checker) :
    (checkParameters outer inner ps c).Equivalent
      (checkParameters outer inner (ps.map Parameter.erase) c) := by
  induction ps generalizing c with
  | nil => exact .refl _
  | cons p ps ih =>
    simp only [List.map_cons, checkParameters, Parameter.erase]
    split
    · exact equivalent_reject ..
    · split
      · exact equivalent_reject ..
      · rename_i id c _
        exact (ih c).andThen fun _ _ _ => .refl _

/-- Both sides of an assignment are checked before they are compared. -/
theorem checkAssign_erase (scope : ScopeId) (target value : Expr) (c : Checker) :
    (checkAssign scope target value c).Equivalent (checkAssign scope target.erase value.erase c) :=
  (checkExpr_erase scope target c).andThen fun _ _ c =>
  (checkExpr_erase scope value c).andThen fun _ _ _ => .refl _

theorem checkInput_erase (scope : ScopeId) (target : Expr) (c : Checker) :
    (checkInput scope target c).Equivalent (checkInput scope target.erase c) :=
  (checkExpr_erase scope target c).andThen fun _ _ _ => .refl _

/-- A declaration whose type is unknown is rejected before its names are looked at. -/
theorem checkDeclare_erase (scope : ScopeId) (ty : TypeExpr) (ds : List Declarator) (c : Checker) :
    (checkDeclare scope ty ds c).Equivalent (checkDeclare scope ty (ds.map Declarator.erase) c) := by
  unfold checkDeclare
  split
  · exact equivalent_reject ..
  · split
    · exact equivalent_reject ..
    · rename_i declared _ _
      exact (checkDeclarators_erase scope declared ds c).andThen fun _ _ _ => .refl _

mutual

/-- The answer for a statement does not depend on its annotations. By induction on the statement: every part is given
the state that the parts before it leave, which is the same for both. -/
theorem checkStmt_erase (scope : ScopeId) :
    (s : Stmt) → (c : Checker) → (checkStmt scope s c).Equivalent (checkStmt scope s.erase c)
  | .block body, c => (checkBlock_erase scope body c).andThen fun _ _ _ => .refl _
  | .ifThen condition body, c =>
    (checkCondition_erase scope condition c).andThen fun _ _ c =>
    (checkBlock_erase scope body c).andThen fun _ _ _ => .refl _
  | .ifElse condition body otherwise, c =>
    (checkCondition_erase scope condition c).andThen fun _ _ c =>
    (checkBlock_erase scope body c).andThen fun _ _ c =>
    (checkStmt_erase scope otherwise c).andThen fun _ _ _ => .refl _
  | .whileLoop condition body, c =>
    (checkCondition_erase scope condition c).andThen fun _ _ c =>
    (checkBlock_erase scope body c).andThen fun _ _ _ => .refl _
  | .doWhile body condition, c =>
    (checkBlock_erase scope body c).andThen fun _ _ c =>
    (checkCondition_erase scope condition c).andThen fun _ _ _ => .refl _
  | .forLoop init condition step body, c =>
    (checkStmt_erase scope init c).andThen fun _ _ c =>
    (checkCondition_erase scope condition c).andThen fun _ _ c =>
    (checkStmt_erase scope step c).andThen fun _ _ c =>
    (checkBlock_erase scope body c).andThen fun _ _ _ => .refl _
  | .function name parameters result body symbol, c₀ => by
    simp only [Stmt.erase, checkStmt]
    split
    · exact equivalent_reject ..
    · refine (checkParameters_erase scope _ parameters _).andThen fun parameters' tys c => ?_
      split
      · exact equivalent_reject ..
      · rename_i id c _
        exact (checkBlockIn_erase (c₀.newScope scope).1 body c).andThen fun _ _ _ => .refl _
  | .declare ty declarators, c => checkDeclare_erase scope ty declarators c
  | .assign target value, c => checkAssign_erase scope target value c
  | .eval value, c => (checkExpr_erase scope value c).andThen fun _ _ _ => .refl _
  | .print value, c => (checkExpr_erase scope value c).andThen fun _ _ _ => .refl _
  | .input target, c => checkInput_erase scope target c
  | .breakLoop, _ => .refl _
  | .continueLoop, _ => .refl _
  | .returnValue _, _ => equivalent_reject ..

theorem checkBlock_erase (parent : ScopeId) :
    (b : Block) → (c : Checker) → (checkBlock parent b c).Equivalent (checkBlock parent b.erase c)
  | ⟨statements, _⟩, c =>
    (checkStmts_erase (c.newScope parent).1 statements (c.newScope parent).2).inScope (c.newScope parent).1

theorem checkBlockIn_erase (scope : ScopeId) :
    (b : Block) → (c : Checker) → (checkBlockIn scope b c).Equivalent (checkBlockIn scope b.erase c)
  | ⟨statements, _⟩, c => (checkStmts_erase scope statements c).inScope scope

theorem checkStmts_erase (scope : ScopeId) :
    (statements : List Stmt) → (c : Checker) →
      (checkStmts scope statements c).Equivalent (checkStmts scope (Stmt.eraseAll statements) c)
  | [], _ => .refl _
  | statement :: rest, c =>
    (checkStmt_erase scope statement c).andThen fun _ _ c =>
    (checkStmts_erase scope rest c).andThen fun _ _ _ => .refl _

end

end Checker

/-! ## Places that take an annotation -/

/-- A place of a tree that takes an annotation. -/
inductive Site where
  /-- A node of an expression. -/
  | expr (x : Expr)
  | block (b : Block)
  /-- A declared name. -/
  | declarator (d : Declarator)
  | parameter (p : Parameter)
  | function (name : String) (symbol : Option SymbolId)

mutual

/-- The nodes of an expression. -/
def Expr.sites : Expr → List Site
  | .literal value ty => [.expr (.literal value ty)]
  | .name spelling symbol ty => [.expr (.name spelling symbol ty)]
  | .unary op operand ty => .expr (.unary op operand ty) :: operand.sites
  | .binary op left right ty => .expr (.binary op left right ty) :: (left.sites ++ right.sites)
  | .index base position ty => .expr (.index base position ty) :: (base.sites ++ position.sites)
  | .call callee arguments ty => .expr (.call callee arguments ty) :: (callee.sites ++ Expr.allSites arguments)

/-- The nodes of several expressions. -/
def Expr.allSites : List Expr → List Site
  | [] => []
  | x :: xs => x.sites ++ Expr.allSites xs

end

/-- The places of a declared name: those of its initial value come first. -/
def Declarator.sites (d : Declarator) : List Site :=
  match d.init with
  | none => [.declarator d]
  | some init => init.sites ++ [.declarator d]

mutual

/-- The places of a statement, in the order in which checking comes to them. This is their order in the source, but
that the name of a function comes after its parameters. -/
def Stmt.sites : Stmt → List Site
  | .block body => body.sites
  | .ifThen condition body | .whileLoop condition body => condition.sites ++ body.sites
  | .ifElse condition body otherwise => condition.sites ++ (body.sites ++ otherwise.sites)
  | .doWhile body condition => body.sites ++ condition.sites
  | .forLoop init condition step body => init.sites ++ (condition.sites ++ (step.sites ++ body.sites))
  | .function name parameters _ body symbol =>
    parameters.map .parameter ++ (.function name symbol :: body.sites)
  | .declare _ declarators => declarators.flatMap Declarator.sites
  | .assign target value => target.sites ++ value.sites
  | .eval value | .print value => value.sites
  | .input target => target.sites
  | .breakLoop | .continueLoop => []
  | .returnValue none => []
  | .returnValue (some value) => value.sites

/-- The places of a block, the block itself first. -/
def Block.sites : Block → List Site
  | ⟨statements, scope⟩ => .block ⟨statements, scope⟩ :: Stmt.allSites statements

/-- The places of statements. -/
def Stmt.allSites : List Stmt → List Site
  | [] => []
  | statement :: rest => statement.sites ++ Stmt.allSites rest

end

/-- An annotation with a symbol that the table has, under the given name and of the given kind. -/
def SymbolTable.Declares (t : SymbolTable) (symbol : Option SymbolId) (name : String) (kind : SymbolKind) : Prop :=
  ∃ id s, symbol = some id ∧ t.symbol? id = some s ∧ s.name = name ∧ s.kind = kind

/-- A node has a type. That of a name is the type of the name's symbol. -/
def Expr.Annotated (t : SymbolTable) : Expr → Prop
  | .name spelling symbol ty =>
    ∃ id s, symbol = some id ∧ t.symbol? id = some s ∧ s.name = spelling ∧ ty = some s.ty
  | x => x.ty?.isSome

namespace Site

/-- The symbol of what is declared at a place. -/
def symbol? : Site → Option SymbolId
  | .declarator d => d.symbol
  | .parameter p => p.symbol
  | .function _ symbol => symbol
  | .expr _ | .block _ => none

/-- The warning that belongs to a place: a name that is declared without a value. -/
def warning? : Site → Option Warning
  | .declarator ⟨name, none, _⟩ => some (.uninitialized name)
  | .declarator ⟨_, some _, _⟩ | .parameter _ | .function .. | .expr _ | .block _ => none

/-- A place is annotated by what the table has. -/
def Annotated (t : SymbolTable) : Site → Prop
  | .expr x => x.Annotated t
  | .block b => ∃ scope, b.scope = some scope ∧ scope < t.scopes.size
  | .declarator d => t.Declares d.symbol d.name .variable
  | .parameter p => t.Declares p.symbol p.name .parameter
  | .function name symbol => t.Declares symbol name .function

end Site

/-! ## Annotated places stay annotated -/

namespace SymbolTable

variable {t t' : SymbolTable}

/-- A symbol keeps its number, its name, its kind and its type. Its flags may change. -/
theorem Grows.symbol? (h : t.Grows t') {id : SymbolId} {s : Symbol} (found : t.symbol? id = some s) :
    ∃ s', t'.symbol? id = some s' ∧ s'.name = s.name ∧ s'.kind = s.kind ∧ s'.ty = s.ty := by
  obtain ⟨s', found', same⟩ := bare?_eq_some_iff.1 (h id s.bare (bare?_eq_some_iff.2 ⟨s, found, rfl⟩))
  simp only [Symbol.bare, Symbol.mk.injEq] at same
  obtain ⟨name, kind, ty, -⟩ := same
  exact ⟨s', found', name, kind, ty⟩

/-- An annotation that is right stays right while the table grows, since symbols keep their names and kinds. -/
theorem Declares.mono (grows : t.Grows t') {symbol : Option SymbolId} {name : String} {kind : SymbolKind}
    (h : t.Declares symbol name kind) : t'.Declares symbol name kind := by
  obtain ⟨id, s, annotated, found, rfl, rfl⟩ := h
  obtain ⟨s', found', name, kind, -⟩ := grows.symbol? found
  exact ⟨id, s', annotated, found', name, kind⟩

/-- A symbol that the table has is one of its symbols. -/
theorem Declares.lt_size {id : SymbolId} {name : String} {kind : SymbolKind}
    (h : t.Declares (some id) name kind) : id < t.symbols.size := by
  obtain ⟨id, s, annotated, found, -⟩ := h
  cases annotated
  exact (Array.getElem?_eq_some_iff.1 found).1

/-- Names stay bound as they are while the table grows. -/
theorem Named.of_grows (named : t.Named) (grows : t.Grows t')
    (same : ∀ x name, t'.bound? x name = t.bound? x name) : t'.Named := by
  intro x name id bound
  obtain ⟨s, found, rfl⟩ := named x name id ((same x name).symm.trans bound)
  obtain ⟨s', found', name, -⟩ := grows.symbol? found
  exact ⟨s', found', name⟩

/-- What a search finds is a symbol of that name. -/
theorem Named.of_search (named : t.Named) {scope : ScopeId} {name : String} {id : SymbolId}
    (h : t.search scope name = some id) : ∃ s, t.symbol? id = some s ∧ s.name = name := by
  have visible := visible_of_search h
  clear h
  induction visible with
  | here found bound => exact named _ _ _ (Option.bind_eq_some_iff.2 ⟨_, found, bound⟩)
  | outer _ _ _ ih => exact ih

end SymbolTable

/-- A node stays annotated while the table grows. -/
theorem Expr.Annotated.mono {t t' : SymbolTable} (grows : t.Grows t') {x : Expr} (h : x.Annotated t) :
    x.Annotated t' := by
  cases x with
  | name spelling symbol ty =>
    obtain ⟨id, s, annotated, found, rfl, rfl⟩ := h
    obtain ⟨s', found', name, -, ty⟩ := grows.symbol? found
    exact ⟨id, s', annotated, found', name, congrArg some ty.symm⟩
  | literal | unary | binary | index | call => exact h

namespace Site

/-- Every place stays annotated while the table grows. Blocks need the scopes to stay as well. -/
theorem Annotated.mono {t t' : SymbolTable} (grows : t.Grows t') (le : t.scopes.size ≤ t'.scopes.size)
    {site : Site} (h : site.Annotated t) : site.Annotated t' := by
  cases site with
  | expr x => exact Expr.Annotated.mono grows h
  | block b =>
    obtain ⟨scope, annotated, lt⟩ := h
    exact ⟨scope, annotated, Nat.lt_of_lt_of_le lt le⟩
  | declarator | parameter | function => exact SymbolTable.Declares.mono grows h

/-- The symbol of what is declared at an annotated place is one of the table's. -/
theorem Annotated.lt_size {t : SymbolTable} {site : Site} (h : site.Annotated t) {id : SymbolId}
    (declared : site.symbol? = some id) : id < t.symbols.size := by
  cases site with
  | expr | block => cases declared
  | declarator | parameter | function =>
    simp only [symbol?] at declared
    simp only [Annotated, declared] at h
    exact h.lt_size

end Site

/-! ## Checking annotates every place -/

/-- What is done by a part of the walk that leads through the given places. -/
structure Checker.Annotates (c c' : Checker) (sites : List Site) : Prop where
  scopes_le : c.table.scopes.size ≤ c'.table.scopes.size
  symbols_le : c.table.symbols.size ≤ c'.table.symbols.size
  grows : c.table.Grows c'.table
  named : c'.table.Named
  each : ∀ site ∈ sites, site.Annotated c'.table
  /-- What is declared gets new symbols. -/
  fresh : ∀ id ∈ sites.filterMap Site.symbol?, c.table.symbols.size ≤ id
  nodup : (sites.filterMap Site.symbol?).Nodup
  warnings : c'.warnings = c.warnings ++ sites.filterMap Site.warning?

namespace Checker

namespace Annotates

variable {c c' c'' : Checker} {sites sites' : List Site}

theorem refl (named : c.table.Named) : Annotates c c [] :=
  ⟨Nat.le_refl _, Nat.le_refl _, .refl _, named, by simp, by simp, .nil, by simp⟩

/-- What one part does and then another. Symbols stay different from part to part: those of the first part are among
what the table has when the second part starts, and those of the second part are new then. -/
theorem trans (h : Annotates c c' sites) (h' : Annotates c' c'' sites') : Annotates c c'' (sites ++ sites') where
  scopes_le := Nat.le_trans h.scopes_le h'.scopes_le
  symbols_le := Nat.le_trans h.symbols_le h'.symbols_le
  grows := h.grows.trans h'.grows
  named := h'.named
  each := List.forall_mem_append.2 ⟨fun site mem => (h.each site mem).mono h'.grows h'.scopes_le, h'.each⟩
  fresh := by
    rw [List.filterMap_append]
    exact List.forall_mem_append.2 ⟨h.fresh, fun id mem => Nat.le_trans h.symbols_le (h'.fresh id mem)⟩
  nodup := by
    rw [List.filterMap_append]
    refine List.nodup_append.2 ⟨h.nodup, h'.nodup, ?_⟩
    -- The first symbols are in the table when the others are new.
    rintro id mem _ mem' rfl
    obtain ⟨site, place, declared⟩ := List.mem_filterMap.1 mem
    exact Nat.not_lt.2 (h'.fresh id mem') ((h.each site place).lt_size declared)
  warnings := by rw [h'.warnings, h.warnings, List.filterMap_append, List.append_assoc]

/-- A place at which nothing is declared. -/
theorem cons (h : Annotates c c' sites) {site : Site} (annotated : site.Annotated c'.table)
    (declared : site.symbol? = none) (quiet : site.warning? = none) : Annotates c c' (site :: sites) where
  scopes_le := h.scopes_le
  symbols_le := h.symbols_le
  grows := h.grows
  named := h.named
  each := List.forall_mem_cons.2 ⟨annotated, h.each⟩
  fresh := by simpa [declared] using h.fresh
  nodup := by simpa [declared] using h.nodup
  warnings := by simpa [quiet] using h.warnings

end Annotates

/-- Changes of flags do nothing to the places. -/
theorem annotates_modifySymbol {c : Checker} (named : c.table.Named) (id : SymbolId) {f : Symbol → Symbol}
    (flags : ∀ s, (f s).bare = s.bare) : Annotates c { c with table := c.table.modifySymbol id f } [] := by
  have grows : c.table.Grows (c.table.modifySymbol id f) :=
    fun other s found => (SymbolTable.bare?_modifySymbol flags other).trans found
  exact ⟨Nat.le_refl _, by simp [SymbolTable.modifySymbol], grows, named.of_grows grows fun _ _ => rfl, by simp,
    by simp, .nil, by simp⟩

/-- Giving a variable a value leads through no places. -/
theorem annotates_markInitialized {c : Checker} (named : c.table.Named) (target : Expr) :
    Annotates c (c.markInitialized target) [] := by
  unfold markInitialized
  split
  · exact annotates_modifySymbol named _ fun _ => rfl
  · exact .refl named

/-- Opening a scope leads through no places: the place of a block is annotated when its statements have been checked.
-/
theorem annotates_newScope {c : Checker} (named : c.table.Named) (parent : ScopeId) :
    Annotates c (c.newScope parent).2 [] :=
  ⟨by simp [newScope, SymbolTable.newScope], Nat.le_refl _, fun _ _ found => found, named.newScope parent, by simp,
    by simp, .nil, by simp [newScope]⟩

/-- A definition annotates the place at which it stands. The warning of the place has been given before. -/
theorem annotates_define {c c₁ c' : Checker} {scope : ScopeId} {s : Symbol} {id : SymbolId} {site : Site}
    (h : c₁.define scope s = .ok (id, c')) (table : c₁.table = c.table)
    (warnings : c₁.warnings = c.warnings ++ [site].filterMap Site.warning?) (named : c.table.Named)
    (declared : site.symbol? = some id) (annotated : ∀ t : SymbolTable, t.symbol? id = some s → site.Annotated t) :
    Annotates c c' [site] := by
  obtain ⟨rfl, rfl⟩ := define_eq_ok h
  rw [table] at declared annotated ⊢
  exact
    { scopes_le := Nat.le_of_eq (SymbolTable.size_insert ..).symm
      symbols_le := by simp [SymbolTable.insert]
      grows := SymbolTable.grows_insert _ _ _
      named := named.insert scope s
      each := List.forall_mem_singleton.2 (annotated _ (by rw [SymbolTable.symbol?_insert, if_pos rfl]))
      fresh := by simp [declared]
      nodup := by simp [declared]
      warnings := warnings }

end Checker

open Checker (Annotates annotates_define annotates_markInitialized annotates_modifySymbol annotates_newScope
  lt_size_newScope)

/-- An accepted expression has a type at every node, and every name in it has the symbol that was found. -/
theorem Expr.Passes.annotates {scope : ScopeId} {c c' : Checker} {x x' : Expr} {ty : Ty}
    (h : x.Passes scope c x' ty c') (named : c.table.Named) : Annotates c c' x'.sites := by
  induction h with
  | literal => exact (Annotates.refl named).cons rfl rfl rfl
  | @name c _ _ _ id s seen found =>
    obtain ⟨s', found', rfl⟩ := named.of_search seen
    cases found.symm.trans found'
    have marked : Annotates c (c.markUsed id) [] := annotates_modifySymbol named id fun _ => rfl
    refine marked.cons ?_ rfl rfl
    have annotated : (Expr.name s.name (some id) (some s.ty)).Annotated c.table :=
      ⟨id, s, rfl, found, rfl, rfl⟩
    exact annotated.mono marked.grows
  | unary _ _ ih => exact (ih named).cons rfl rfl rfl
  | binary _ _ _ ih ih' | index _ _ _ ih ih' =>
    have first := ih named
    exact (first.trans (ih' first.named)).cons rfl rfl rfl

/-- A declared name. If it has no value, the warning comes before the definition. -/
theorem Declarator.InitPasses.annotates {scope : ScopeId} {ty : Ty} {name : String} {c c₁ c₂ : Checker}
    {init init' : Option Expr} {initialized : Bool} {id : SymbolId}
    (h : Declarator.InitPasses scope ty name c init init' initialized c₁)
    (defined : c₁.define scope { Symbol.forVariable name ty with initialized } = .ok (id, c₂))
    (named : c.table.Named) : Annotates c c₂ (Declarator.sites ⟨name, init', some id⟩) := by
  have annotated : ∀ t : SymbolTable, t.symbol? id = some { Symbol.forVariable name ty with initialized } →
      (Site.declarator ⟨name, init', some id⟩).Annotated t :=
    fun t found => ⟨id, _, rfl, found, rfl, rfl⟩
  cases h with
  | bare => exact annotates_define defined rfl rfl named rfl annotated
  | valued hx =>
    have value := hx.annotates named
    exact value.trans (annotates_define defined rfl (List.append_nil _).symm value.named rfl annotated)

/-- Declared names are annotated one after another. -/
theorem Declarator.AllPass.annotates {scope : ScopeId} {ty : Ty} {c c' : Checker} {ds ds' : List Declarator}
    (h : Declarator.AllPass scope ty c ds ds' c') (named : c.table.Named) :
    Annotates c c' (ds'.flatMap Declarator.sites) := by
  induction h with
  | nil => exact .refl named
  | cons hinit defined _ ih =>
    have first := hinit.annotates defined named
    exact first.trans (ih first.named)

/-- Parameters are annotated one after another. None of them is warned about, since they have values. -/
theorem Parameter.AllPass.annotates {outer inner : ScopeId} {c c' : Checker} {ps ps' : List Parameter}
    {tys : List Ty} (h : Parameter.AllPass outer inner c ps ps' tys c') (named : c.table.Named) :
    Annotates c c' (ps'.map .parameter) := by
  induction h with
  | nil => exact .refl named
  | @cons c c₁ _ p _ _ _ _ id _ defined _ ih =>
    have first : Annotates c c₁ [.parameter { p with symbol := some id }] :=
      annotates_define defined rfl (List.append_nil _).symm named rfl
        fun t found => ⟨id, _, rfl, found, rfl, rfl⟩
    exact first.trans (ih first.named)

mutual

/-- An accepted statement has all its places annotated. By induction on the walk: what the parts of a node do is
put together in their order. -/
theorem Stmt.Passes.annotates {scope : ScopeId} {c c' : Checker} {s s' : Stmt} :
    s.Passes scope c s' c' → c.table.Named → Annotates c c' s'.sites
  | .block hbody, named => hbody.annotates named
  | .ifThen hcondition hbody, named | .whileLoop hcondition hbody, named => by
    have first := hcondition.annotates named
    exact first.trans (hbody.annotates first.named)
  | .ifElse hcondition hbody hotherwise, named => by
    have first := hcondition.annotates named
    have second := hbody.annotates first.named
    exact first.trans (second.trans (hotherwise.annotates second.named))
  | .doWhile hbody hcondition, named => by
    have first := hbody.annotates named
    exact first.trans (hcondition.annotates first.named)
  | .forLoop hinit hcondition hstep hbody, named => by
    have first := hinit.annotates named
    have second := hcondition.annotates first.named
    have third := hstep.annotates second.named
    exact first.trans (second.trans (third.trans (hbody.annotates third.named)))
  | .function _ hparameters defined hbody, named => by
    have opened := annotates_newScope named scope
    have first := hparameters.annotates opened.named
    have second : Annotates _ _ [.function _ (some _)] :=
      annotates_define defined rfl (List.append_nil _).symm first.named rfl
        fun t found => ⟨_, _, rfl, found, rfl, rfl⟩
    -- The scope of the body is the one that was opened for the parameters.
    have lt := Nat.lt_of_lt_of_le (lt_size_newScope c scope) (Nat.le_trans first.scopes_le second.scopes_le)
    exact opened.trans (first.trans (second.trans (hbody.annotates lt second.named)))
  | .declare _ _ hds, named => hds.annotates named
  | .assign htarget hvalue _, named => by
    have first := htarget.annotates named
    have second := hvalue.annotates first.named
    simpa [Stmt.sites] using (first.trans second).trans (annotates_markInitialized second.named _)
  | .eval hvalue, named | .print hvalue, named => hvalue.annotates named
  | .input htarget _ _ _, named => by
    have first := htarget.annotates named
    simpa [Stmt.sites] using first.trans (annotates_markInitialized first.named _)

theorem Block.Passes.annotates {parent : ScopeId} {c c' : Checker} {b b' : Block} :
    b.Passes parent c b' c' → c.table.Named → Annotates c c' b'.sites
  | .intro hbody, named => by
    have opened := annotates_newScope named parent
    exact opened.trans (hbody.annotates (lt_size_newScope c parent) opened.named)

theorem Block.PassesIn.annotates {scope : ScopeId} {c c' : Checker} {b b' : Block} :
    b.PassesIn scope c b' c' → scope < c.table.scopes.size → c.table.Named → Annotates c c' b'.sites
  | .intro hstatements, lt, named => by
    have body := hstatements.annotates named
    exact body.cons ⟨scope, rfl, Nat.lt_of_lt_of_le lt body.scopes_le⟩ rfl rfl

theorem Stmt.AllPass.annotates {scope : ScopeId} {c c' : Checker} {statements statements' : List Stmt} :
    Stmt.AllPass scope c statements statements' c' → c.table.Named → Annotates c c' (Stmt.allSites statements')
  | .nil, named => .refl named
  | .cons hstatement hrest, named => by
    have first := hstatement.annotates named
    exact first.trans (hrest.annotates first.named)

end

/-- The checker annotates every place of a block that it accepts, since it accepts by walking through it. -/
theorem Checker.checkBlock_annotates {parent : ScopeId} {c c' : Checker} {u : Unit} {b b' : Block}
    (h : checkBlock parent b c = .accept b' c' u) (named : c.table.Named) : Annotates c c' b'.sites :=
  (checkBlock_eq_accept.1 h).annotates named

/-- Checking a program gives the same outcome, the same table and the same warnings whatever annotations it had. If the
program is accepted, its tree is the same as well, and every place of it is annotated by what the table has: the nodes
of expressions have types, names have symbols of that name and type, blocks have scopes, and what is declared has a
symbol of its name and kind, a different one each. There is one warning for every name that is declared without a
value, in their order. -/
theorem Block.check_annotates (program : Block) :
    program.check.outcome = program.erase.check.outcome ∧
    program.check.checker = program.erase.check.checker ∧
    ∀ tree c, program.check = .accept tree c () →
      program.erase.check = .accept tree c () ∧ tree.erase = program.erase ∧
      (∀ site ∈ tree.sites, site.Annotated c.table) ∧
      (tree.sites.filterMap Site.symbol?).Nodup ∧
      c.warnings = tree.sites.filterMap Site.warning? := by
  have same := Checker.checkBlock_erase SymbolTable.global program {}
  refine ⟨same.outcome, same.checker, fun tree c accepted => ?_⟩
  have kept : program.check.tree.erase = program.erase := Checker.erase_checkBlock _ program {}
  rw [accepted] at kept
  have annotates := Checker.checkBlock_annotates accepted SymbolTable.initial_coherent.named
  exact ⟨same.eq_accept accepted, kept, annotates.each, annotates.nodup, annotates.warnings⟩

/-- A program with annotations that are all wrong: a symbol that does not exist, symbols that are taken by other names,
and types and scopes of something else. -/
theorem Block.check_annotates_wrong :
    ∃ (program tree : Block) (c : Checker),
      program =
        ⟨[.declare ⟨"int", []⟩ [⟨"x", none, some 99⟩, ⟨"y", some (.name "x" (some 0) (some .bool)), some 6⟩],
          .function "f" [⟨"a", ⟨"int", []⟩, some 6⟩] ⟨"void", []⟩ ⟨[.declare ⟨"int", []⟩ [⟨"b", none, none⟩]], some 0⟩
            (some 6)], some 42⟩ ∧
      program.check = .accept tree c () ∧ program.erase.check = .accept tree c () ∧
      (∀ site ∈ tree.sites, site.Annotated c.table) ∧
      tree.sites.filterMap Site.symbol? = [6, 7, 8, 9, 10] ∧
      c.warnings = [.uninitialized "x", .uninitialized "b"] := by
  obtain ⟨-, -, accepted⟩ := Block.check_annotates
    ⟨[.declare ⟨"int", []⟩ [⟨"x", none, some 99⟩, ⟨"y", some (.name "x" (some 0) (some .bool)), some 6⟩],
      .function "f" [⟨"a", ⟨"int", []⟩, some 6⟩] ⟨"void", []⟩ ⟨[.declare ⟨"int", []⟩ [⟨"b", none, none⟩]], some 0⟩
        (some 6)], some 42⟩
  obtain ⟨erased, -, annotated, -, warnings⟩ := accepted _ _ rfl
  exact ⟨_, _, _, rfl, rfl, erased, annotated, rfl, warnings⟩

end MiniC
