import MiniC.Proofs.Layers

/-!
# Names that hide others

A name can be defined only where it is not visible, so one would expect that the scopes around a statement
never have a name in common. There is one way around it: the parameters of a function are entered into the
scope of the function before its own name is entered into the scope around it, and the second definition does
not look inwards. A function may therefore have a parameter of its own name, which hides the function inside
it.

`Block.check_distinct_iff` says that this is the only way. `Block.starts` lists the moments at which checking
comes to the statements of a block, with the table of the moment and the functions around the block; of every
such moment in an accepted tree, the visible scopes have distinct names exactly if none of these functions has
a parameter of its own name.
-/

namespace MiniC

/-! ## The starts of blocks -/

/-- A function around a statement. -/
structure Enclosing where
  name : String
  parameters : List String
  deriving DecidableEq

/-- A function that has no parameter of its own name. -/
def Enclosing.isPlain (f : Enclosing) : Bool :=
  f.name ∉ f.parameters

/-- The moment at which checking comes to the statements of a block. -/
structure Start where
  block : Block
  /-- The functions around the statements, innermost first. -/
  functions : List Enclosing
  scope : ScopeId
  table : SymbolTable

mutual

/-- The starts of the blocks in a statement that is checked in a scope. -/
def Stmt.starts (functions : List Enclosing) (scope : ScopeId) : Stmt → Checker → List Start
  | .block body, c => body.starts functions scope c
  | .ifThen condition body, c | .whileLoop condition body, c =>
    body.starts functions scope (Checker.checkCondition scope condition c).checker
  | .ifElse condition body otherwise, c =>
    let c₁ := (Checker.checkCondition scope condition c).checker
    let c₂ := (Checker.checkBlock scope body c₁).checker
    body.starts functions scope c₁ ++ otherwise.starts functions scope c₂
  | .doWhile body _, c => body.starts functions scope c
  | .forLoop init condition step body, c =>
    let c₁ := (Checker.checkStmt scope init c).checker
    let c₂ := (Checker.checkCondition scope condition c₁).checker
    let c₃ := (Checker.checkStmt scope step c₂).checker
    init.starts functions scope c ++ (step.starts functions scope c₂ ++ body.starts functions scope c₃)
  | .function name parameters result body _, c =>
    let inner := (c.newScope scope).1
    let entered := Checker.checkParameters scope inner parameters (c.newScope scope).2
    match c.resolve scope result, entered.outcome with
    | .ok resultTy, .ok tys =>
      match entered.checker.define scope (.forFunction name resultTy tys) with
      | .ok (_, c) => body.startsIn (⟨name, parameters.map Parameter.name⟩ :: functions) inner c
      | .error _ => []
    | _, _ => []
  | .declare .., _ | .assign .., _ | .eval _, _ | .print _, _ | .input _, _ | .breakLoop, _
  | .continueLoop, _ | .returnValue _, _ => []

/-- The starts of a block that is checked in a new scope, and of the blocks in it. -/
def Block.starts (functions : List Enclosing) (parent : ScopeId) : Block → Checker → List Start
  | ⟨statements, scope⟩, c =>
    let (inner, c) := c.newScope parent
    ⟨⟨statements, scope⟩, functions, inner, c.table⟩ :: Stmt.allStarts functions inner statements c

/-- The starts of a block whose scope is open already, and of the blocks in it. -/
def Block.startsIn (functions : List Enclosing) (scope : ScopeId) : Block → Checker → List Start
  | ⟨statements, annotation⟩, c =>
    ⟨⟨statements, annotation⟩, functions, scope, c.table⟩ :: Stmt.allStarts functions scope statements c

/-- The starts of the blocks in statements that are checked one after another. -/
def Stmt.allStarts (functions : List Enclosing) (scope : ScopeId) : List Stmt → Checker → List Start
  | [], _ => []
  | statement :: rest, c =>
    statement.starts functions scope c ++
      Stmt.allStarts functions scope rest (Checker.checkStmt scope statement c).checker

end

mutual

/-- The blocks in a statement, in the order in which they are checked. -/
def Stmt.blocks : Stmt → List Block
  | .block body | .ifThen _ body | .whileLoop _ body | .doWhile body _ | .function _ _ _ body _ =>
    body.blocks
  | .ifElse _ body otherwise => body.blocks ++ otherwise.blocks
  | .forLoop init _ step body => init.blocks ++ (step.blocks ++ body.blocks)
  | .declare .. | .assign .. | .eval _ | .print _ | .input _ | .breakLoop | .continueLoop
  | .returnValue _ => []

/-- A block and the blocks in it. -/
def Block.blocks : Block → List Block
  | ⟨statements, scope⟩ => ⟨statements, scope⟩ :: Stmt.allBlocks statements

/-- The blocks in statements. -/
def Stmt.allBlocks : List Stmt → List Block
  | [] => []
  | statement :: rest => statement.blocks ++ Stmt.allBlocks rest

end

/-! ## Distinct names at every start -/

/-- The visible scopes have distinct names exactly if every function around is plain. -/
def Settled (functions : List Enclosing) (t : SymbolTable) (scope : ScopeId) : Prop :=
  t.Distinct scope ↔ ∀ f ∈ functions, f.isPlain

/-- Starts of all the given blocks, at each of which names are distinct exactly if the functions around are
plain. -/
structure Surveyed (starts : List Start) (blocks : List Block) : Prop where
  blocks_eq : starts.map Start.block = blocks
  each : ∀ start ∈ starts, Settled start.functions start.table start.scope

theorem Surveyed.nil : Surveyed [] [] :=
  ⟨rfl, by simp⟩

theorem Surveyed.cons {start : Start} {starts : List Start} {blocks : List Block}
    (first : Settled start.functions start.table start.scope) (rest : Surveyed starts blocks) :
    Surveyed (start :: starts) (start.block :: blocks) :=
  ⟨congrArg (start.block :: ·) rest.blocks_eq, List.forall_mem_cons.2 ⟨first, rest.each⟩⟩

theorem Surveyed.append {starts starts' : List Start} {blocks blocks' : List Block}
    (h : Surveyed starts blocks) (h' : Surveyed starts' blocks') :
    Surveyed (starts ++ starts') (blocks ++ blocks') :=
  ⟨by rw [List.map_append, h.blocks_eq, h'.blocks_eq], List.forall_mem_append.2 ⟨h.each, h'.each⟩⟩

/-- What is settled about the functions around a place stays so while names are entered that were not visible. -/
theorem SymbolTable.Keeps.settled {functions : List Enclosing} {t t' : SymbolTable} {scope : Nat}
    (h : t.Keeps t' scope) (settled : Settled functions t scope) : Settled functions t' scope :=
  h.distinct.trans settled

namespace Checker

/-- A new scope is empty, so it settles what the scope around it does. -/
theorem settled_newScope {functions : List Enclosing} {c : Checker} {parent : Nat} (proper : c.table.Proper)
    (lt : parent < c.table.scopes.size) (settled : Settled functions c.table parent) :
    Settled functions (c.newScope parent).2.table (c.newScope parent).1 := by
  have layers : (c.newScope parent).2.table.layers (c.newScope parent).1 = .empty :: c.table.layers parent :=
    SymbolTable.layers_newScope proper lt
  rw [Settled, SymbolTable.Distinct, SymbolTable.visibleNames, layers]
  exact settled

/-- The scope of a function, once its parameters and its name are entered. The name is fresh around the
function, so it can only meet that of a parameter. -/
theorem settled_function {functions : List Enclosing} {c c₁ c₂ : Checker} {scope : Nat}
    {parameters parameters' : List Parameter} {name : String} {resultTy : Ty} {tys : List Ty}
    {id : SymbolId} (proper : c.table.Proper) (lt : scope < c.table.scopes.size)
    (settled : Settled functions c.table scope)
    (entered : Parameter.AllPass scope (c.newScope scope).1 (c.newScope scope).2 parameters parameters' tys c₁)
    (defined : c₁.define scope (.forFunction name resultTy tys) = .ok (id, c₂)) :
    Settled (⟨name, parameters.map Parameter.name⟩ :: functions) c₂.table (c.newScope scope).1 := by
  have opened : c.table.Keeps (c.newScope scope).2.table scope := SymbolTable.keeps_newScope proper lt
  have keeps := entered.keeps opened.proper (c.lt_size_newScope scope)
  have settled₁ := keeps.settled (settled_newScope proper lt settled)
  have lt₁ := Nat.lt_of_lt_of_le lt (Nat.le_trans opened.size_le keeps.size_le)
  have added : (c.newScope scope).2.table.scopes[(c.newScope scope).1]? = some { parent := some scope } :=
    (c.table.scopes_newScope scope _).trans (if_pos rfl)
  obtain ⟨s, found, around, names⟩ := entered.names added
  obtain ⟨fresh, -, rfl⟩ := define_eq_ok_iff.1 defined
  have hides : name ∉ s.names.keys ↔ Enclosing.isPlain ⟨name, parameters.map Parameter.name⟩ := by
    rw [names name, Enclosing.isPlain, decide_eq_true_eq]
    exact not_congr ⟨fun mem => mem.resolve_left List.not_mem_nil, .inr⟩
  rw [Settled, List.forall_mem_cons]
  exact (SymbolTable.distinct_insert_outer keeps.proper found around lt₁
    (SymbolTable.search_eq_none_iff.1 fresh)).trans (and_congr hides settled₁)

end Checker

open Checker (keeps_define lt_size_newScope settled_function settled_newScope)
open SymbolTable (Keeps keeps_newScope)

mutual

/-- At the start of every block in an accepted statement, names are distinct exactly if the functions around
are plain. By induction on the walk; what comes before a part of it keeps its scope settled. -/
theorem Stmt.Passes.surveyed {functions : List Enclosing} {scope : Nat} {c c' : Checker} {s s' : Stmt} :
    s.Passes scope c s' c' → c.table.Proper → scope < c.table.scopes.size →
      Settled functions c.table scope → Surveyed (s.starts functions scope c) s.blocks
  | .block hbody, proper, lt, settled => hbody.surveyed proper lt settled
  | .ifThen hcondition hbody, proper, lt, settled | .whileLoop hcondition hbody, proper, lt, settled => by
    have first := hcondition.keeps proper
    have lt₁ := Nat.lt_of_lt_of_le lt first.size_le
    simp only [Stmt.starts, Stmt.blocks, Checker.checkCondition_eq_accept.2 hcondition]
    exact hbody.surveyed first.proper lt₁ (first.settled settled)
  | .ifElse hcondition hbody hotherwise, proper, lt, settled => by
    have first := hcondition.keeps proper
    have lt₁ := Nat.lt_of_lt_of_le lt first.size_le
    have second := first.trans (hbody.keeps first.proper lt₁)
    have lt₂ := Nat.lt_of_lt_of_le lt second.size_le
    simp only [Stmt.starts, Stmt.blocks, Checker.checkCondition_eq_accept.2 hcondition,
      Checker.checkBlock_eq_accept.2 hbody, Checked.accept]
    exact (hbody.surveyed first.proper lt₁ (first.settled settled)).append
      (hotherwise.surveyed second.proper lt₂ (second.settled settled))
  | .doWhile hbody _, proper, lt, settled => hbody.surveyed proper lt settled
  | .forLoop hinit hcondition hstep hbody, proper, lt, settled => by
    have first := hinit.keeps proper lt
    have second := first.trans (hcondition.keeps first.proper)
    have lt₂ := Nat.lt_of_lt_of_le lt second.size_le
    have third := second.trans (hstep.keeps second.proper lt₂)
    have lt₃ := Nat.lt_of_lt_of_le lt third.size_le
    simp only [Stmt.starts, Stmt.blocks, Checker.checkStmt_eq_accept.2 hinit,
      Checker.checkCondition_eq_accept.2 hcondition, Checker.checkStmt_eq_accept.2 hstep, Checked.accept]
    exact (hinit.surveyed proper lt settled).append
      ((hstep.surveyed second.proper lt₂ (second.settled settled)).append
        (hbody.surveyed third.proper lt₃ (third.settled settled)))
  | .function resolved hparameters hdefine hbody, proper, lt, settled => by
    -- The name of the function is entered around it, where it may meet a parameter of the body.
    have inside := settled_function proper lt settled hparameters hdefine
    have opened : Keeps c.table (c.newScope scope).2.table scope := keeps_newScope proper lt
    have keeps := hparameters.keeps opened.proper (lt_size_newScope c scope)
    have lt₁ := Nat.lt_of_lt_of_le lt (Nat.le_trans opened.size_le keeps.size_le)
    have named := keeps_define hdefine keeps.proper lt₁
    have lt₂ := Nat.lt_of_lt_of_le (lt_size_newScope c scope) (Nat.le_trans keeps.size_le named.size_le)
    simp only [Stmt.starts, Stmt.blocks, resolved, Checker.checkParameters_eq_accept.2 hparameters,
      Checked.accept, hdefine]
    exact hbody.surveyed named.proper lt₂ inside
  | .declare _ _ _, _, _, _ | .assign _ _ _, _, _, _ | .eval _, _, _, _ | .print _, _, _, _
  | .input _ _ _ _, _, _, _ => .nil

theorem Block.Passes.surveyed {functions : List Enclosing} {parent : Nat} {c c' : Checker} {b b' : Block} :
    b.Passes parent c b' c' → c.table.Proper → parent < c.table.scopes.size →
      Settled functions c.table parent → Surveyed (b.starts functions parent c) b.blocks
  | .intro (.intro hstatements), proper, lt, settled => by
    have opened : Keeps c.table (c.newScope parent).2.table parent := keeps_newScope proper lt
    have inside := settled_newScope proper lt settled
    exact .cons inside (hstatements.surveyed opened.proper (lt_size_newScope c parent) inside)

theorem Block.PassesIn.surveyed {functions : List Enclosing} {scope : Nat} {c c' : Checker} {b b' : Block} :
    b.PassesIn scope c b' c' → c.table.Proper → scope < c.table.scopes.size →
      Settled functions c.table scope → Surveyed (b.startsIn functions scope c) b.blocks
  | .intro hstatements, proper, lt, settled => .cons settled (hstatements.surveyed proper lt settled)

theorem Stmt.AllPass.surveyed {functions : List Enclosing} {scope : Nat} {c c' : Checker}
    {statements statements' : List Stmt} :
    Stmt.AllPass scope c statements statements' c' → c.table.Proper → scope < c.table.scopes.size →
      Settled functions c.table scope →
        Surveyed (Stmt.allStarts functions scope statements c) (Stmt.allBlocks statements)
  | .nil, _, _, _ => .nil
  | .cons hstatement hrest, proper, lt, settled => by
    have first := hstatement.keeps proper lt
    have lt₁ := Nat.lt_of_lt_of_le lt first.size_le
    simp only [Stmt.allStarts, Stmt.allBlocks, Checker.checkStmt_eq_accept.2 hstatement, Checked.accept]
    exact (hstatement.surveyed proper lt settled).append
      (hrest.surveyed first.proper lt₁ (first.settled settled))

end

/-- The starts of the blocks of an accepted tree are surveyed, since the checker accepts by walking through it. -/
theorem Checker.surveyed_blockStarts {functions : List Enclosing} {parent : Nat} {c c' : Checker} {u : Unit}
    {b b' : Block} (h : checkBlock parent b c = .accept b' c' u) (proper : c.table.Proper)
    (lt : parent < c.table.scopes.size) (settled : Settled functions c.table parent) :
    Surveyed (b.starts functions parent c) b.blocks :=
  (checkBlock_eq_accept.1 h).surveyed proper lt settled

/-! ## Programs -/

/-- In layers without common names, a name that is found is found in one layer. -/
theorem countP_layers {layers : List (Catalogue SymbolId)} (distinct : (layers.flatMap Catalogue.keys).Nodup)
    {name : String} (mem : name ∈ layers.flatMap Catalogue.keys) :
    layers.countP (fun layer => name ∈ layer.keys) = 1 := by
  induction layers with
  | nil => cases mem
  | cons first rest ih =>
    rw [List.flatMap_cons] at distinct mem
    obtain ⟨-, distinct', apart⟩ := List.nodup_append.1 distinct
    by_cases here : name ∈ first.keys
    · have nowhere : rest.countP (fun layer => name ∈ layer.keys) = 0 := by
        refine List.countP_eq_zero.2 fun layer held => ?_
        rw [decide_eq_true_eq]
        intro again
        exact apart name here name (List.mem_flatMap.2 ⟨layer, held, again⟩) rfl
      rw [List.countP_cons, nowhere, if_pos (decide_eq_true here)]
    · have later := (List.mem_append.1 mem).resolve_left here
      rw [List.countP_cons, ih distinct' later, if_neg (by simpa using here)]

/-- The starts of all blocks of a program. -/
def Block.programStarts (program : Block) : List Start :=
  program.starts [] SymbolTable.global {}

/-- In an accepted program, at the moment when checking comes to the statements of a block, the scopes from
that of the block outwards have distinct names exactly if no function around has a parameter of its own name;
and then every name that can be resolved there has one definition. There is such a moment for every block. -/
theorem Block.check_distinct_iff {program : Block} (accepted : program.check.outcome = .ok ()) :
    program.programStarts.map Start.block = program.blocks ∧
      ∀ start ∈ program.programStarts,
        (start.table.Distinct start.scope ↔ ∀ f ∈ start.functions, f.name ∉ f.parameters) ∧
        (start.table.Distinct start.scope → ∀ name id, start.table.search start.scope name = some id →
          (start.table.layers start.scope).countP (fun layer => name ∈ layer.keys) = 1) := by
  have settled : Settled [] SymbolTable.initial SymbolTable.global :=
    ⟨fun _ => by simp, fun _ => by decide +kernel⟩
  have hcheck : Checker.checkBlock SymbolTable.global program {} =
      .accept program.check.tree program.check.checker () :=
    congrArg (Checked.mk _ _) accepted
  have surveyed := Checker.surveyed_blockStarts hcheck SymbolTable.initial_proper (by decide) settled
  refine ⟨surveyed.blocks_eq, fun start mem => ⟨?_, fun distinct name id found => ?_⟩⟩
  · refine (surveyed.each start mem).trans (forall_congr' fun f => imp_congr_right fun _ => ?_)
    rw [Enclosing.isPlain, decide_eq_true_eq]
  · refine countP_layers distinct ?_
    have seen : ¬ start.table.search start.scope name = none := by simp [found]
    rw [SymbolTable.search_eq_none_iff, Decidable.not_not] at seen
    exact seen

set_option maxRecDepth 100000 in
/-- A function with a parameter, a block in it, and a name that is declared in both of two blocks. -/
theorem Block.check_distinct_iff_nested :
    ∃ (source : String) (program : Block),
      source = "fn f(x: int) \x7b \x7b int y; \x7d \x7b int y; \x7d \x7d" ∧
      Source.parse source false = .ok program ∧ program.check.outcome = .ok () ∧
      program.blocks.length = 4 ∧ ∀ start ∈ program.programStarts, start.table.Distinct start.scope := by
  generalize hsource : "fn f(x: int) \x7b \x7b int y; \x7d \x7b int y; \x7d \x7d" = source
  have meets : (Source.parse source false).toOption.any (fun program =>
      program.check.outcome.toOption.isSome ∧ program.blocks.length = 4 ∧
        ∀ start ∈ program.programStarts, ∀ f ∈ start.functions, f.name ∉ f.parameters) = true := by
    subst hsource
    decide +kernel
  refine ⟨source, ?_⟩
  cases hparse : Source.parse source false with
  | error e => simp [hparse, Except.toOption] at meets
  | ok program =>
    rw [hparse] at meets
    obtain ⟨some, count, plain⟩ := of_decide_eq_true meets
    cases accepted : program.check.outcome with
    | error e => simp [accepted, Except.toOption] at some
    | ok _ =>
      refine ⟨program, rfl, rfl, accepted, count, fun start mem => ?_⟩
      exact (((Block.check_distinct_iff accepted).2 start mem).1).2 (plain start mem)

set_option maxRecDepth 100000 in
/-- A parameter with the name of its function is accepted, and the body of the function starts with two
visible definitions of it. -/
theorem Block.check_accepts_hidden :
    ∃ program : Block, Source.parse "fn f(f: int) \x7b \x7d" false = .ok program ∧
      program.check.outcome = .ok () ∧ ∃ start ∈ program.programStarts,
        ¬ start.table.Distinct start.scope ∧
        (start.table.layers start.scope).countP (fun layer => "f" ∈ layer.keys) = 2 := by
  generalize hsource : "fn f(f: int) \x7b \x7d" = source
  have meets : (Source.parse source false).toOption.any (fun program =>
      program.check.outcome.toOption.isSome ∧ ∃ start ∈ program.programStarts,
        ¬ start.table.Distinct start.scope ∧
        (start.table.layers start.scope).countP (fun layer => "f" ∈ layer.keys) = 2) = true := by
    subst hsource
    decide +kernel
  cases hparse : Source.parse source false with
  | error e => simp [hparse, Except.toOption] at meets
  | ok program =>
    rw [hparse] at meets
    obtain ⟨some, hidden⟩ := of_decide_eq_true meets
    cases accepted : program.check.outcome with
    | error e => simp [accepted, Except.toOption] at some
    | ok _ => exact ⟨program, rfl, accepted, hidden⟩

end MiniC
