import MiniC.Proofs.Lowered
import MiniC.Proofs.Scoping
import MiniC.Proofs.Sizes

/-!
# What keeps a checked source from being lowered

Some constructs of a checked tree have no code: functions, floating-point literals, values that cannot
be printed or read, types without a layout, and the names of types in the place of values. `obstacles`
lists them in the order in which lowering comes to them, with no regard to code or storage, and lowering
a checked source fails exactly if there is one, for the first of them.

Names of variables are no obstacles: every one of them has storage by the time its use is lowered,
because it was declared before, in the order in which the tree is checked and lowered alike.
-/

namespace MiniC

/-- Something in a checked tree that has no code. -/
inductive Obstacle where
  /-- The name of a type in the place of a value. -/
  | typeName (name : String)
  | unlowered (construct : UnloweredConstruct)
  /-- A type without layout. -/
  | layout (cause : LayoutError)
  deriving DecidableEq

/-- The failure of lowering for an obstacle. -/
def Obstacle.error : Obstacle → EmitError
  | .typeName name => .unresolvedSymbol name
  | .unlowered construct => .unimplemented construct
  | .layout cause => .layout cause

namespace Ty

/-- What keeps values of a type from being laid out. -/
def layoutObstacles (ty : Ty) : List Obstacle :=
  match ty.size with
  | .ok _ => []
  | .error cause => [.layout cause]

/-- What keeps values of a type from being printed. -/
def printObstacles (ty : Ty) : List Obstacle :=
  if ty = .int ∨ ty = .bool ∨ ty = ⟨.string, []⟩ then [] else [.unlowered (.print ty)]

/-- What keeps values of a type from being read. -/
def inputObstacles (ty : Ty) : List Obstacle :=
  if ty = .int ∨ ty = ⟨.string, []⟩ then [] else [.unlowered (.input ty)]

end Ty

/-! ## The obstacles of a tree -/

section Obstacles

variable (describe : SymbolId → Option Symbol)

/-- The obstacles in an expression. -/
def Expr.obstacles : Expr → List Obstacle
  | .literal (.float _) _ => [.unlowered .floatLiteral]
  | .literal .. => []
  | .name spelling symbol _ =>
    match symbol.bind describe with
    | some s => if s.kind = .typeName then [.typeName spelling] else []
    | none => []
  | .unary _ operand _ => operand.obstacles
  | .binary _ left right _ => left.obstacles ++ right.obstacles
  | .index base position ty =>
    (ty.map Ty.layoutObstacles).getD [] ++ (base.obstacles ++ position.obstacles)
  | .call .. => [.unlowered .call]

/-- The obstacles in a declared name: its type may have no layout, and its initial value has obstacles of
its own. -/
def Declarator.obstacles (d : Declarator) : List Obstacle :=
  ((d.symbol.bind describe).map (·.ty.layoutObstacles)).getD [] ++
    (d.init.map (Expr.obstacles describe)).getD []

mutual

/-- The obstacles in a statement. The condition of a `for` loop is lowered twice. -/
def Stmt.obstacles : Stmt → List Obstacle
  | .block body => body.obstacles
  | .ifThen condition body | .whileLoop condition body =>
    condition.obstacles describe ++ body.obstacles
  | .ifElse condition body otherwise =>
    condition.obstacles describe ++ (body.obstacles ++ otherwise.obstacles)
  | .doWhile body condition => body.obstacles ++ condition.obstacles describe
  | .forLoop init condition step body =>
    init.obstacles ++ (condition.obstacles describe ++ (condition.obstacles describe ++
      (body.obstacles ++ step.obstacles)))
  | .function .. => [.unlowered .function]
  | .declare _ declarators => declarators.flatMap (Declarator.obstacles describe)
  | .assign target value => target.obstacles describe ++ value.obstacles describe
  | .eval value => value.obstacles describe
  | .print value => value.obstacles describe ++ (value.ty?.map Ty.printObstacles).getD []
  | .input target => target.obstacles describe ++ (target.ty?.map Ty.inputObstacles).getD []
  | .breakLoop => [.unlowered .breakLoop]
  | .continueLoop => [.unlowered .continueLoop]
  | .returnValue _ => [.unlowered .returnValue]

/-- The obstacles in a block. -/
def Block.obstacles : Block → List Obstacle
  | ⟨statements, _⟩ => Stmt.allObstacles statements

/-- The obstacles in statements. -/
def Stmt.allObstacles : List Stmt → List Obstacle
  | [] => []
  | statement :: rest => statement.obstacles ++ Stmt.allObstacles rest

end

end Obstacles

/-! ## Steps that meet obstacles -/

/-- A step of lowering fails for the first of some obstacles, or succeeds if there is none. -/
def Meets {α : Type} (obstacles : List Obstacle) (result : EStateM.Result EmitError Emission α)
    (done : Emission → Prop) : Prop :=
  match obstacles, result with
  | [], .ok _ e => done e
  | o :: _, .error cause _ => cause = o.error
  | [], .error .. | _ :: _, .ok .. => False

namespace Meets

variable {α β : Type} {obstacles obstacles' : List Obstacle} {x : Lowering α} {f : α → Lowering β}
  {e e' : Emission} {done done' : Emission → Prop} {a : α}

/-- Two steps, one after the other. -/
theorem bind (h : Meets obstacles (x e) done)
    (h' : ∀ a e', done e' → Meets obstacles' (f a e') done') :
    Meets (obstacles ++ obstacles') ((x >>= f) e) done' := by
  cases obstacles with
  | nil =>
    cases ran : x e with
    | ok a e' =>
      rw [ran] at h
      rw [bind_of_ok ran]
      exact h' a e' h
    | error cause e' =>
      rw [ran] at h
      exact h.elim
  | cons o obstacles =>
    cases ran : x e with
    | ok a e' =>
      rw [ran] at h
      exact h.elim
    | error cause e' =>
      rw [ran] at h
      rw [bind_of_error ran]
      exact h

/-- A step that meets nothing, before one that may. -/
theorem after (ran : x e = .ok a e') (h : Meets obstacles (f a e') done) :
    Meets obstacles ((x >>= f) e) done := by
  rwa [bind_of_ok ran]

/-- A step that meets nothing, after one that may. -/
theorem before (h : Meets obstacles (x e) done)
    (h' : ∀ a e', done e' → Meets [] (f a e') done') : Meets obstacles ((x >>= f) e) done' := by
  have whole := h.bind h'
  rwa [List.append_nil] at whole

/-- What a step is known to leave may be weakened. -/
theorem mono (h : Meets obstacles (x e) done) (le : ∀ e', done e' → done' e') :
    Meets obstacles (x e) done' := by
  revert h
  cases obstacles <;> cases x e <;> first | exact le _ | exact id

end Meets

/-! ## Storage -/

/-- Of two tables the second one has labels for the given symbols as well. -/
structure SymbolTable.Placed (t t' : SymbolTable) (ids : List SymbolId) : Prop where
  described : t'.described? = t.described?
  label : ∀ id, (t'.label? id).isSome ↔ (t.label? id).isSome ∨ id ∈ ids

/-- A symbol can be declared: it is a variable. -/
def IsVariable (describe : SymbolId → Option Symbol) (id : SymbolId) : Prop :=
  ∃ s, describe id = some s ∧ s.kind = .variable

/-- All known symbols have storage, apart from the names of types, which never have. -/
structure Ready (describe : SymbolId → Option Symbol) (t : SymbolTable) (known : SymbolId → Prop) :
    Prop where
  described : t.described? = describe
  storage : ∀ id, known id → ∃ s, describe id = some s ∧
    (s.kind = .typeName ∧ t.label? id = none ∨ s.kind ≠ .typeName ∧ (t.label? id).isSome)

namespace SymbolTable.Placed

variable {t t' t'' : SymbolTable} {ids ids' : List SymbolId}

/-- A step that leaves the table gives no storage. -/
theorem of_eq (same : t' = t) : Placed t t' [] := by
  subst same
  exact ⟨rfl, fun id => by simp⟩

/-- Two steps give storage to what either of them does. -/
theorem trans (h : Placed t t' ids) (h' : Placed t' t'' ids') : Placed t t'' (ids ++ ids') where
  described := h'.described.trans h.described
  label id := by rw [h'.label, h.label, List.mem_append, or_assoc]

/-- Once variables have storage, those of them that become known do no harm. -/
theorem ready (h : Placed t t' ids) {describe : SymbolId → Option Symbol} {known : SymbolId → Prop}
    (ready : Ready describe t known) (vars : ∀ id ∈ ids, IsVariable describe id)
    {new : List SymbolId} (sub : new ⊆ ids) :
    Ready describe t' fun id => known id ∨ id ∈ new where
  described := h.described.trans ready.described
  storage id mem := by
    rcases mem with mem | mem
    · obtain ⟨s, found, ⟨kind, unlabelled⟩ | ⟨kind, labelled⟩⟩ := ready.storage id mem
      · refine ⟨s, found, .inl ⟨kind, ?_⟩⟩
        rw [← Option.not_isSome_iff_eq_none, h.label, unlabelled]
        rintro (labelled | mem)
        · cases labelled
        · obtain ⟨s', found', kind'⟩ := vars id mem
          cases found.symm.trans found'
          cases kind.symm.trans kind'
      · exact ⟨s, found, .inr ⟨kind, (h.label id).2 (.inl labelled)⟩⟩
    · obtain ⟨s, found, kind⟩ := vars id (sub mem)
      exact ⟨s, found, .inr ⟨by simp [kind], (h.label id).2 (.inr (sub mem))⟩⟩

/-- Storage for variables does not spoil what is ready already. -/
theorem ready_same (h : Placed t t' ids) {describe : SymbolId → Option Symbol}
    {known : SymbolId → Prop} (ready : Ready describe t known)
    (vars : ∀ id ∈ ids, IsVariable describe id) : Ready describe t' known where
  described := h.described.trans ready.described
  storage id mem := (h.ready ready vars (List.nil_subset _)).storage id (.inl mem)

end SymbolTable.Placed

/-- To give a symbol a label is to give it storage, and changes nothing else that is said of it. -/
theorem SymbolTable.placed_modifySymbol {t : SymbolTable} {id : SymbolId} {s : Symbol}
    (stored : t.symbol? id = some s) (label : String) :
    Placed t (t.modifySymbol id fun s => { s with label := some label }) [id] := by
  refine ⟨funext fun id' => ?_, fun id' => ?_⟩
  · simp only [described?, symbol?, modifySymbol, Array.getElem?_modify]
    split
    · cases t.symbols[id']? with
      | none => rfl
      | some _ => rfl
    · rfl
  · have stored : t.symbols[id]? = some s := stored
    simp only [label?, symbol?, modifySymbol, Array.getElem?_modify, List.mem_singleton]
    by_cases same : id = id'
    · subst same
      simp [stored]
    · simp [same, Ne.symm same]

/-! ## Expressions -/

namespace Lowering

variable {describe : SymbolId → Option Symbol} {known : SymbolId → Prop}
  {types : SymbolId → Option Ty}

/-- To ask for the size of a type meets what keeps the type from being laid out. -/
theorem liftLayout_meets (ty : Ty) (e : Emission) :
    Meets ty.layoutObstacles (liftLayout ty.size e) fun e' => e' = e := by
  unfold Ty.layoutObstacles
  cases ty.size with
  | ok size => rfl
  | error cause => rfl

/-- A known name has storage, unless it is that of a type. -/
theorem storageLabel_meets {e : Emission} (ready : Ready describe e.table known) {id : SymbolId}
    (mem : known id) (spelling : String) (ty : Option Ty) :
    Meets ((Expr.name spelling (some id) ty).obstacles describe) (storageLabel (some id) spelling e)
      fun e' => e' = e := by
  obtain ⟨s, found, storage⟩ := ready.storage id mem
  simp only [Expr.obstacles, Option.bind_some, found]
  unfold storageLabel
  refine Meets.after rfl ?_
  rcases storage with ⟨kind, unlabelled⟩ | ⟨kind, labelled⟩
  · have none : ((some id).bind e.table.symbol?).bind Symbol.label = none := unlabelled
    rw [if_pos kind, none]
    rfl
  · obtain ⟨label, labelled⟩ := Option.isSome_iff_exists.1 labelled
    have some : ((some id).bind e.table.symbol?).bind Symbol.label = some label := labelled
    rw [if_neg kind, some]
    rfl

/-- Of the literals only floating-point ones are obstacles. -/
theorem lowerLiteral_meets (value : Literal) (ty : Option Ty) (e : Emission) :
    Meets ((Expr.literal value ty).obstacles describe) (lowerLiteral value e)
      fun e' => e'.table = e.table := by
  cases value <;> rfl

/-- To drop a load never fails. -/
theorem dropTrailingLoad_eq (e : Emission) :
    ∃ e', dropTrailingLoad e = .ok () e' ∧ e'.table = e.table := by
  unfold dropTrailingLoad
  split
  · exact ⟨_, rfl, rfl⟩
  · exact ⟨_, rfl, rfl⟩

/-- Lowering an expression fails for its first obstacle, or succeeds; it gives no storage. By induction
on the types. -/
theorem lowerExpr_meets {x : Expr} {ty : Ty} (typed : x.Typed types ty) (names : x.Scoped known)
    {e : Emission} (ready : Ready describe e.table known) :
    Meets (x.obstacles describe) (lowerExpr x e) fun e' => e'.table = e.table := by
  induction typed generalizing e with
  | literal value => exact lowerLiteral_meets value _ e
  | name _ =>
    obtain ⟨_, ⟨⟩, mem⟩ := names
    refine (storageLabel_meets ready mem _ _).before fun label e' same => ?_
    subst same
    rfl
  | @unary op _ _ _ _ _ ih =>
    refine (ih names ready).before fun _ e' same => ?_
    cases unaryOpCode? op with
    | none => exact same
    | some code => exact same
  | binary _ _ _ ihl ihr =>
    refine (ihl names.1 ready).bind fun _ e₁ same => ?_
    exact (ihr names.2 (same ▸ ready)).before fun _ e₂ same' => same'.trans same
  | @index base position ty element _ _ _ ihb ihp =>
    refine Meets.after rfl ((liftLayout_meets element e).bind fun stride e₁ same => ?_)
    subst same
    refine (ihb names.1 ready).bind fun _ e₂ same₂ => ?_
    obtain ⟨e₃, dropped, same₃⟩ := dropTrailingLoad_eq e₂
    have table : e₃.table = e₁.table := same₃.trans same₂
    refine Meets.after dropped ((ihp names.2 (table ▸ ready)).before fun _ e₄ same₄ => ?_)
    have last : e₄.table = e₁.table := same₄.trans table
    refine Meets.after rfl (Meets.after rfl (Meets.after rfl ?_))
    split
    · exact last
    · exact last

/-- Lowering an address meets the obstacles of its expression. -/
theorem lowerAddress_meets {x : Expr} {ty : Ty} (typed : x.Typed types ty) (lvalue : x.isLvalue)
    (names : x.Scoped known) {e : Emission} (ready : Ready describe e.table known) :
    Meets (x.obstacles describe) (lowerAddress x e) fun e' => e'.table = e.table := by
  cases typed with
  | name _ =>
    obtain ⟨_, ⟨⟩, mem⟩ := names
    refine (storageLabel_meets ready mem _ _).before fun label e' same => ?_
    subst same
    rfl
  | index base position element =>
    refine (lowerExpr_meets (.index base position element) names ready).before fun _ e' same => ?_
    obtain ⟨e₁, dropped, same'⟩ := dropTrailingLoad_eq e'
    rw [dropped]
    exact same'.trans same
  | literal _ => cases lvalue
  | unary _ _ => cases lvalue
  | binary _ _ _ => cases lvalue

/-! ## Statements -/

/-- A declared variable gets storage, unless its type has no layout. -/
theorem allocate_meets {e : Emission} (ready : Ready describe e.table known) {id : SymbolId}
    {s : Symbol} (found : describe id = some s) (kind : s.kind = .variable) :
    Meets s.ty.layoutObstacles (allocate id e) fun e' => SymbolTable.Placed e.table e'.table [id] := by
  have described := congrFun ready.described id
  rw [found] at described
  obtain ⟨s₀, stored, rfl⟩ := Option.map_eq_some_iff.1 described
  have letter : storageLetter s₀ = pure "v" := by
    unfold storageLetter
    rw [show s₀.kind = .variable from kind]
  unfold allocate
  refine Meets.after rfl ?_
  simp only [stored, letter, pure_bind, Ty.layoutObstacles, Symbol.described]
  cases sized : s₀.ty.size with
  | error cause => rfl
  | ok size =>
    rw [(Ty.layout_of_size sized).1]
    exact SymbolTable.placed_modifySymbol stored _

/-- To choose how to print meets what keeps a type from being printed. -/
theorem printOpCode_meets (ty : Ty) (e : Emission) :
    Meets ty.printObstacles (printOpCode ty e) fun e' => e' = e := by
  unfold Ty.printObstacles printOpCode
  split
  · rename_i printed
    rcases printed with rfl | rfl | rfl <;> rfl
  · rename_i other
    split
    · exact absurd (.inl rfl) other
    · exact absurd (.inr (.inl rfl)) other
    · exact absurd (.inr (.inr rfl)) other
    · rfl

/-- To choose how to read meets what keeps a type from being read. -/
theorem inputOpCode_meets (ty : Ty) (e : Emission) :
    Meets ty.inputObstacles (inputOpCode ty e) fun e' => e' = e := by
  unfold Ty.inputObstacles inputOpCode
  split
  · rename_i read
    rcases read with rfl | rfl <;> rfl
  · rename_i other
    split
    · exact absurd (.inl rfl) other
    · exact absurd (.inr rfl) other
    · rfl

/-- Lowering declarations fails for their first obstacle, or gives storage to all names. By induction on the names:
what one of them is given is there for the initial values after it. -/
theorem lowerDeclarators_meets {ds : List Declarator} (typed : ∀ d ∈ ds, d.Typed types)
    (names : Declarator.AllScoped known ds)
    (vars : ∀ id ∈ ds.filterMap Declarator.symbol, IsVariable describe id) {e : Emission}
    (ready : Ready describe e.table known) :
    Meets (ds.flatMap (Declarator.obstacles describe)) (lowerDeclarators ds e) fun e' =>
      SymbolTable.Placed e.table e'.table (ds.filterMap Declarator.symbol) := by
  induction ds generalizing known e with
  | nil => exact .of_eq rfl
  | cons d ds ih =>
    obtain ⟨⟨id, ty, symbol, -, initTyped⟩, restTyped⟩ := List.forall_mem_cons.1 typed
    have declared : (d :: ds).filterMap Declarator.symbol = id :: ds.filterMap Declarator.symbol := by
      simp [symbol]
    rw [declared] at vars ⊢
    obtain ⟨⟨s, found, kind⟩, restVariables⟩ := List.forall_mem_cons.1 vars
    have one : ∀ id' ∈ [id], IsVariable describe id' := by
      simpa using ⟨s, found, kind⟩
    have obstacles : d.obstacles describe =
        s.ty.layoutObstacles ++ (d.init.map (Expr.obstacles describe)).getD [] := by
      simp [Declarator.obstacles, symbol, found]
    rw [List.flatMap_cons, obstacles, List.append_assoc]
    simp only [lowerDeclarators, symbol]
    refine (allocate_meets ready found kind).bind fun label e₁ placed => ?_
    have rest : ∀ {e₂ : Emission}, e₂.table = e₁.table →
        Meets (ds.flatMap (Declarator.obstacles describe)) (lowerDeclarators ds e₂) fun e' =>
          SymbolTable.Placed e.table e'.table (id :: ds.filterMap Declarator.symbol) := by
      intro e₂ same
      have names' := names.2
      rw [symbol] at names'
      have ready' := placed.ready ready one (List.Subset.refl [id])
      refine (ih restTyped names' restVariables (same ▸ ready')).mono fun e' placed' => ?_
      exact placed.trans (same ▸ placed')
    cases hinit : d.init with
    | none => exact rest rfl
    | some init =>
      have ready' := placed.ready_same ready one
      refine Meets.after rfl ?_
      refine Meets.bind (lowerExpr_meets (initTyped init hinit) (names.1 init hinit) ready')
        fun _ e₂ same => ?_
      refine Meets.after rfl ?_
      exact rest same

/-- What lowering a statement leaves: storage for what it declares, and so for what it makes known. -/
structure Settled (s : Stmt) (e e' : Emission) : Prop where
  placed : SymbolTable.Placed e.table e'.table s.declared
  exported : s.exported ⊆ s.declared

mutual

/-- Lowering a statement fails for its first obstacle, or succeeds. By induction on the statement: what is
known at each part has storage when lowering comes to the part. -/
theorem lowerStmt_meets {known : SymbolId → Prop} :
    {s : Stmt} → s.Typed types → s.Scoped known → (∀ id ∈ s.declared, IsVariable describe id) →
      {e : Emission} → Ready describe e.table known →
      Meets (s.obstacles describe) (lowerStmt s e) (Settled s e)
  | .block _, typed, names, vars, _, ready =>
    (lowerBlock_meets typed names vars ready).mono fun _ placed => ⟨placed, List.nil_subset _⟩
  | .ifThen _ _, typed, names, vars, _, ready | .whileLoop _ _, typed, names, vars, _, ready => by
    refine Meets.after rfl (Meets.after rfl ?_)
    refine Meets.bind (lowerExpr_meets typed.1 names.1 ready) fun _ e₁ same => ?_
    refine Meets.after rfl ?_
    refine Meets.before (lowerBlock_meets typed.2 names.2 vars (same ▸ ready)) fun _ e₂ placed => ?_
    exact ⟨same ▸ placed, List.nil_subset _⟩
  | .ifElse condition body otherwise, typed, names, vars, e, ready => by
    refine Meets.after rfl (Meets.after rfl ?_)
    refine Meets.bind (lowerExpr_meets typed.1 names.1 ready) fun _ e₁ same => ?_
    refine Meets.after rfl ?_
    have ready₁ : Ready describe e₁.table known := same ▸ ready
    have variables₁ := fun id mem => vars id (List.mem_append_left _ mem)
    have variables₂ := fun id mem => vars id (List.mem_append_right _ mem)
    refine Meets.bind (lowerBlock_meets typed.2.1 names.2.1 variables₁ ready₁) fun _ e₂ placed₂ => ?_
    refine Meets.after rfl (Meets.after rfl ?_)
    -- What the body declares has storage now, but is not known to the alternative.
    have ready₂ := placed₂.ready_same ready₁ variables₁
    refine Meets.before (lowerStmt_meets typed.2.2 names.2.2 variables₂ ready₂) fun _ e₃ settled => ?_
    have placed : SymbolTable.Placed e.table e₃.table _ := same ▸ placed₂.trans settled.placed
    exact ⟨placed, fun id mem => List.mem_append_right _ (settled.exported mem)⟩
  | .doWhile _ _, typed, names, vars, _, ready => by
    refine Meets.after rfl (Meets.after rfl ?_)
    refine Meets.bind (lowerBlock_meets typed.1 names.1 vars ready) fun _ e₁ placed => ?_
    have ready₁ := placed.ready_same ready vars
    refine Meets.before (lowerExpr_meets typed.2 names.2 ready₁) fun _ e₂ same => ?_
    exact ⟨same ▸ placed, List.nil_subset _⟩
  | .forLoop init condition step body, typed, names, vars, e, ready => by
    obtain ⟨typedI, typedC, typedS, typedB⟩ := typed
    obtain ⟨namesI, namesC, namesS, namesB⟩ := names
    have variablesI := fun id mem => vars id (List.mem_append_left _ mem)
    have variablesB := fun id mem => vars id (List.mem_append_right _ (List.mem_append_left _ mem))
    have variablesS := fun id mem => vars id (List.mem_append_right _ (List.mem_append_right _ mem))
    refine Meets.after rfl (Meets.after rfl ?_)
    refine Meets.bind (lowerStmt_meets typedI namesI variablesI ready) fun _ e₁ settled₁ => ?_
    have ready₁ := settled₁.placed.ready ready variablesI settled₁.exported
    refine Meets.bind (lowerExpr_meets typedC namesC ready₁) fun _ e₂ same₂ => ?_
    refine Meets.after rfl (Meets.after rfl ?_)
    have ready₂ := same₂ ▸ ready₁
    refine Meets.bind (lowerExpr_meets typedC namesC ready₂) fun _ e₃ same₃ => ?_
    refine Meets.after rfl (Meets.after rfl ?_)
    -- Neither copy of the condition gives storage, so the table is still that after the start.
    have table : e₃.table = e₁.table := same₃.trans same₂
    have ready₃ := table ▸ ready₁
    refine Meets.bind (lowerBlock_meets typedB namesB variablesB ready₃) fun _ e₄ placed₄ => ?_
    have ready₄ := placed₄.ready_same ready₃ variablesB
    refine Meets.before (lowerStmt_meets typedS namesS variablesS ready₄) fun _ e₅ settled₅ => ?_
    have placed : SymbolTable.Placed e₁.table e₅.table _ := table ▸ placed₄.trans settled₅.placed
    refine ⟨settled₁.placed.trans placed, fun id mem => ?_⟩
    rcases List.mem_append.1 mem with mem | mem
    · exact List.mem_append_left _ (settled₁.exported mem)
    · exact List.mem_append_right _ (List.mem_append_right _ (settled₅.exported mem))
  | .function .., _, _, _, _, _ => rfl
  | .declare _ _, typed, names, vars, _, ready =>
    (lowerDeclarators_meets typed names vars ready).mono fun _ placed =>
      ⟨placed, List.Subset.refl _⟩
  | .assign _ _, ⟨lvalue, _, typedT, typedV⟩, names, _, _, ready => by
    refine Meets.bind (lowerAddress_meets typedT lvalue names.1 ready) fun _ e₁ same₁ => ?_
    refine Meets.before (lowerExpr_meets typedV names.2 (same₁ ▸ ready)) fun _ e₂ same₂ => ?_
    exact ⟨.of_eq (same₂.trans same₁), List.nil_subset _⟩
  | .eval _, ⟨_, typed⟩, names, _, _, ready =>
    (lowerExpr_meets typed names ready).mono fun _ same => ⟨.of_eq same, List.nil_subset _⟩
  | .print value, ⟨ty, typed⟩, names, _, e, ready => by
    refine Meets.bind (lowerExpr_meets typed names ready) fun _ e₁ same => ?_
    have annotated : typeOf value e₁ = .ok ty e₁ := by
      simp [typeOf, typed.ty?_eq]
    refine Meets.after annotated ?_
    rw [typed.ty?_eq]
    refine Meets.before (printOpCode_meets ty e₁) fun _ e₂ same₂ => ?_
    exact ⟨.of_eq (same₂ ▸ same), List.nil_subset _⟩
  | .input target, ⟨lvalue, ty, typed, _⟩, names, _, e, ready => by
    refine Meets.bind (lowerAddress_meets typed lvalue names ready) fun _ e₁ same => ?_
    have annotated : typeOf target e₁ = .ok ty e₁ := by
      simp [typeOf, typed.ty?_eq]
    refine Meets.after annotated ?_
    rw [typed.ty?_eq]
    refine Meets.before (inputOpCode_meets ty e₁) fun _ e₂ same₂ => ?_
    exact ⟨.of_eq (same₂ ▸ same), List.nil_subset _⟩

theorem lowerBlock_meets {known : SymbolId → Prop} :
    {b : Block} → b.Typed types → b.Scoped known → (∀ id ∈ b.declared, IsVariable describe id) →
      {e : Emission} → Ready describe e.table known →
      Meets (b.obstacles describe) (lowerBlock b e) fun e' =>
        SymbolTable.Placed e.table e'.table b.declared
  | ⟨_, _⟩, typed, names, vars, _, ready => lowerStmts_meets typed names vars ready

theorem lowerStmts_meets {known : SymbolId → Prop} :
    {statements : List Stmt} → Stmt.AllTyped types statements → Stmt.AllScoped known statements →
      (∀ id ∈ Stmt.allDeclared statements, IsVariable describe id) → {e : Emission} →
      Ready describe e.table known →
      Meets (Stmt.allObstacles describe statements) (lowerStmts statements e) fun e' =>
        SymbolTable.Placed e.table e'.table (Stmt.allDeclared statements)
  | [], _, _, _, _, _ => .of_eq rfl
  | statement :: rest, typed, names, vars, e, ready => by
    have variables₁ := fun id mem => vars id (List.mem_append_left _ mem)
    have variables₂ := fun id mem => vars id (List.mem_append_right _ mem)
    refine Meets.bind (lowerStmt_meets typed.1 names.1 variables₁ ready) fun _ e₁ settled => ?_
    have ready₁ := settled.placed.ready ready variables₁ settled.exported
    refine (lowerStmts_meets typed.2 names.2 variables₂ ready₁).mono fun e₂ placed => ?_
    exact settled.placed.trans placed

end

end Lowering

/-! ## Sources -/

/-- The obstacles of a checked source, in the order in which lowering comes to them. -/
def CheckedSource.obstacles (checked : CheckedSource) : List Obstacle :=
  checked.tree.obstacles checked.table.described?

/-- Before anything is lowered, only the names of types are known, and no symbol has storage. -/
theorem SymbolTable.Sound.ready {t : SymbolTable} (sound : t.Sound) :
    Ready t.described? t fun id => ∃ s, t.bare? id = some s ∧ s.kind = .typeName := by
  refine ⟨rfl, fun id ⟨b, found, kind⟩ => ?_⟩
  obtain ⟨s, stored, rfl⟩ := SymbolTable.bare?_eq_some_iff.1 found
  exact ⟨s.described, Option.map_eq_some_iff.2 ⟨s, stored, rfl⟩, .inl ⟨kind, sound.label?_eq_none id⟩⟩

/-- What a checked source declares are variables. -/
theorem CheckedSource.Valid.isVariable {checked : CheckedSource} (valid : checked.Valid) {id : SymbolId}
    (mem : id ∈ checked.tree.declared) : IsVariable checked.table.described? id := by
  obtain ⟨b, found, kind⟩ := valid.vars id mem
  obtain ⟨s, stored, rfl⟩ := SymbolTable.bare?_eq_some_iff.1 found
  exact ⟨s.described, Option.map_eq_some_iff.2 ⟨s, stored, rfl⟩, kind⟩

/-- Lowering a checked source fails for its first obstacle, or succeeds if it has none. -/
theorem Source.lower_of_obstacles {source : String} {options : Options} {checked : CheckedSource}
    (h : Source.check source options = .ok checked) :
    match checked.obstacles with
    | [] => ∃ p, Source.lower source options = .ok p
    | o :: _ => Source.lower source options = .error (.emit o.error) := by
  have valid := Source.check_valid h
  have meets := Lowering.lowerBlock_meets (e := { table := checked.table }) valid.typed
    (Source.check_scoped h) (fun _ => valid.isVariable) valid.sound.ready
  have lowered : Source.lower source options =
      (checked.tree.lower checked.table).1.mapError Error.emit := by
    unfold Source.lower Source.lowerWithWarnings
    rw [h]
    show (((checked.tree.lower checked.table).1.mapError Error.emit >>= fun program =>
      pure (program, checked.warnings)) >>= fun both => pure both.1) = _
    cases (checked.tree.lower checked.table).1 with
    | ok p => rfl
    | error cause => rfl
  rw [lowered, Block.lower]
  unfold CheckedSource.obstacles
  revert meets
  cases checked.tree.obstacles checked.table.described? with
  | nil =>
    cases Lowering.lowerBlock checked.tree { table := checked.table } with
    | ok u e => exact fun _ => ⟨_, rfl⟩
    | error cause e => exact False.elim
  | cons o rest =>
    cases Lowering.lowerBlock checked.tree { table := checked.table } with
    | ok u e => exact False.elim
    | error cause e =>
      rintro rfl
      rfl

/-- A checked source is lowered, or is refused for something that is not implemented or has no layout,
exactly if no name of a type in the place of a value comes first among its obstacles. If one does,
lowering takes the name for one that was not checked. -/
theorem Source.lower_unresolved_iff {source : String} {options : Options} {checked : CheckedSource}
    (h : Source.check source options = .ok checked) :
    (∀ name, Source.lower source options = .error (.emit (.unresolvedSymbol name)) ↔
      checked.obstacles.head? = some (.typeName name)) ∧
    (((∃ p, Source.lower source options = .ok p) ∨
        (∃ construct, Source.lower source options = .error (.emit (.unimplemented construct))) ∨
        ∃ cause, Source.lower source options = .error (.emit (.layout cause))) ↔
      ∀ name, checked.obstacles.head? ≠ some (.typeName name)) := by
  have lowered := Source.lower_of_obstacles h
  cases obstacles : checked.obstacles with
  | nil =>
    rw [obstacles] at lowered
    obtain ⟨p, lowered⟩ := lowered
    simp [lowered]
  | cons o rest =>
    rw [obstacles] at lowered
    cases o <;> simp [lowered, Obstacle.error]

set_option maxRecDepth 100000 in
/-- A floating-point literal before the name of a type: lowering stops at the literal. -/
theorem Source.lower_unresolved_iff_float :
    ∃ (source : String) (checked : CheckedSource), source = "\x7b print 1.5; print int; \x7d" ∧
      Source.check source = .ok checked ∧
      checked.obstacles.head? = some (.unlowered .floatLiteral) ∧ .typeName "int" ∈ checked.obstacles ∧
      ((∃ p, Source.lower source = .ok p) ∨
        (∃ construct, Source.lower source = .error (.emit (.unimplemented construct))) ∨
        ∃ cause, Source.lower source = .error (.emit (.layout cause))) := by
  generalize hsource : "\x7b print 1.5; print int; \x7d" = source
  have meets : (Source.check source).toOption.any (fun checked =>
      checked.obstacles.head? = some (.unlowered .floatLiteral) ∧
        .typeName "int" ∈ checked.obstacles) = true := by
    subst hsource
    decide +kernel
  refine ⟨source, ?_⟩
  cases hcheck : Source.check source with
  | error e => simp [hcheck, Except.toOption] at meets
  | ok checked =>
    rw [hcheck] at meets
    obtain ⟨first, mem⟩ := of_decide_eq_true meets
    refine ⟨checked, rfl, rfl, first, mem, (Source.lower_unresolved_iff hcheck).2.2 fun name typeName => ?_⟩
    cases first.symm.trans typeName

set_option maxRecDepth 100000 in
/-- The name of a type in the place of a value is checked without complaint, and lowering takes it for a
name that was not. -/
theorem Source.lower_unresolved_int :
    (∃ checked, Source.check "\x7b print int; \x7d" = .ok checked) ∧
      Source.lower "\x7b print int; \x7d" = .error (.emit (.unresolvedSymbol "int")) := by
  generalize hsource : "\x7b print int; \x7d" = source
  have meets : (Source.check source).toOption.any (fun checked =>
      checked.obstacles = [.typeName "int"]) = true := by
    subst hsource
    decide +kernel
  cases hcheck : Source.check source with
  | error e => simp [hcheck, Except.toOption] at meets
  | ok checked =>
    rw [hcheck] at meets
    have lowered := Source.lower_of_obstacles hcheck
    rw [of_decide_eq_true meets] at lowered
    exact ⟨⟨checked, rfl⟩, lowered⟩

end MiniC
