import MiniC.Proofs.Course
import MiniC.Proofs.Labels
import MiniC.Proofs.Lowered
import MiniC.Proofs.Paths

/-!
# Frames

What a piece of code has on the stack, above the values of the expression statements before it, is its
frame. The frame at a place does not depend on how the run came there: `Moves` says what an instruction
does to a frame, `Flows` follows a row of instructions, and all jumps and all marks find the frame empty.

A frame says of each value what kind of word it is. Kinds matter only where there are no index
expressions: an element may lie anywhere, so with them nothing is known of a value that was loaded.

`Discipline.Situated` is the invariant that a program with such frames keeps along every path.
-/

namespace MiniC

/-! ## Cells -/

/-- An instruction in the code of a tree. `keeps` says that its result is the value of an expression
statement, which stays on the stack. -/
structure Cell where
  instruction : Instruction
  keeps : Bool

/-- Code that keeps nothing. -/
def plain (code : List Instruction) : List Cell :=
  code.map (⟨·, false⟩)

/-- Code that keeps its last result. -/
def keepLast : List Instruction → List Cell
  | [] => []
  | [i] => [⟨i, true⟩]
  | i :: j :: rest => ⟨i, false⟩ :: keepLast (j :: rest)

/-- The instructions of a piece of code. -/
def Action.cells (labels : SymbolId → Option String) (a : Action) : List Cell :=
  match a with
  | .eval number value => keepLast (value.code labels number)
  | a => plain (a.code labels)

/-- The instructions of a tree. -/
def Block.cells (labels : SymbolId → Option String) (b : Block) : List Cell :=
  (b.course 0).flatMap (Action.cells labels)

theorem map_instruction_plain (code : List Instruction) : (plain code).map Cell.instruction = code := by
  simp [plain, Function.comp_def]

/-- What is kept does not change the code. -/
theorem map_instruction_keepLast (code : List Instruction) :
    (keepLast code).map Cell.instruction = code := by
  fun_induction keepLast code with
  | case1 => rfl
  | case2 i => rfl
  | case3 i j rest ih => rw [List.map_cons, ih]

/-- The instructions of a piece of code are its code. -/
theorem Action.map_instruction_cells (labels : SymbolId → Option String) (a : Action) :
    (a.cells labels).map Cell.instruction = a.code labels := by
  cases a with
  | eval number value => exact map_instruction_keepLast _
  | border | mark | jump | test | assign | print | input => exact map_instruction_plain _

/-- The instructions of a tree are its code. -/
theorem Block.map_instruction_cells (labels : SymbolId → Option String) (b : Block) :
    (b.cells labels).map Cell.instruction = b.code labels 0 := by
  rw [b.code_course, Block.cells, List.map_flatMap]
  exact congrArg (List.flatMap · (b.course 0)) (funext (Action.map_instruction_cells labels))

/-! ## Words -/

/-- The label is that of the storage of a variable. -/
def Vocabulary.IsVariable (v : Vocabulary) (label : String) : Prop :=
  ∃ id, v.labels id = some label

/-- The label is that of the storage of a variable of type `bool`. -/
def Vocabulary.IsBool (v : Vocabulary) (label : String) : Prop :=
  ∃ id, v.labels id = some label ∧ v.types id = some .bool

/-- The label is that of a literal. -/
def Vocabulary.IsLiteral (v : Vocabulary) (label : String) : Prop :=
  ∃ entry ∈ v.literals, label = literalLabel entry.1

/-- What is known of a value on the stack. -/
inductive Word where
  | any
  /-- The value is 0 or 1. -/
  | truth
  /-- The value is the address of a block of data. -/
  | address (label : String)

/-- The words on the stack, the top first. -/
abbrev Frame := List Word

/-- What is known of the result of an operator between operands. -/
def BinaryOp.word (op : BinaryOp) : Word :=
  if op.operatorClass.isComparison || op.operatorClass = .logical then .truth else .any

/-- What is known of the result of an operator before its operand. -/
def UnaryOp.word (op : UnaryOp) : Word :=
  if op.operatorClass = .logical then .truth else .any

/-- An instruction leads from a frame to another. Marks, jumps and branches leave no frame, and without
index expressions a branch takes a truth value, a load a variable, a store a variable and what suits it, and
a string that is printed is a literal. -/
inductive Moves (v : Vocabulary) : Frame → Instruction → Frame → Prop
  | pushInt {σ : Frame} (value : Int32) : Moves v σ (.pushInt value) (.any :: σ)
  | pushTruth {σ : Frame} (value : Bool) : Moves v σ (.pushInt (if value then 1 else 0)) (.truth :: σ)
  | pushLabel {σ : Frame} {label : String} :
    v.IsVariable label ∨ v.IsLiteral label → Moves v σ (.pushLabel label) (.address label :: σ)
  | load {σ : Frame} {w : Word} :
    (¬v.indexed → ∃ label, w = .address label ∧ v.IsVariable label) → Moves v (w :: σ) ⟨.load, .none⟩ (.any :: σ)
  | loadBool {σ : Frame} {label : String} :
    v.IsBool label → Moves v (.address label :: σ) ⟨.load, .none⟩ (.truth :: σ)
  | unary {σ : Frame} {op : UnaryOp} {code : OpCode} (w : Word) :
    Lowering.unaryOpCode? op = some code → Moves v (w :: σ) ⟨code, .none⟩ (op.word :: σ)
  | binary {σ : Frame} (op : BinaryOp) (b a : Word) :
    Moves v (b :: a :: σ) ⟨Lowering.binaryOpCode op, .none⟩ (op.word :: σ)
  | store {σ : Frame} {value target : Word} :
    (¬v.indexed → ∃ label, target = .address label ∧ v.IsVariable label ∧
      (v.IsBool label → value = .truth)) → Moves v (value :: target :: σ) ⟨.store, .none⟩ σ
  | mark (name : String) : Moves v [] (.mark name) []
  | jump (name : String) : Moves v [] (.jump name) []
  | branchIfZero {w : Word} (name : String) :
    (¬v.indexed → w = .truth) → Moves v [w] (.branchIfZero name) []
  | branchIfNotZero {w : Word} (name : String) :
    (¬v.indexed → w = .truth) → Moves v [w] (.branchIfNotZero name) []
  | printInt {σ : Frame} (w : Word) : Moves v (w :: σ) ⟨.printInt, .none⟩ σ
  | printStr {σ : Frame} {w : Word} :
    (¬v.indexed → ∃ label, w = .address label ∧ v.IsLiteral label) →
      Moves v (w :: σ) ⟨.printStr, .none⟩ σ
  | inputInt {σ : Frame} : Moves v σ ⟨.inputInt, .none⟩ (.any :: σ)

/-- How many values an instruction takes from the stack, and how many it puts there. -/
def OpCode.effect : OpCode → Nat × Nat
  | .push | .inputInt => (0, 1)
  | .load | .neg | .bitNot | .logicNot | .notZero => (1, 1)
  | .store => (2, 0)
  | .branchEqualZero | .branchNotZero | .printInt | .printStr | .pop => (1, 0)
  | .dup => (1, 2)
  | .label | .jump | .call | .ret | .inputStr => (0, 0)
  | .add | .sub | .mul | .div | .mod | .bitOr | .bitAnd | .bitXor | .bitShLeft | .bitShRight | .equals
  | .notEquals | .gt | .lt | .gtEq | .ltEq | .logicAnd | .logicOr => (2, 1)

section Moves

variable {v : Vocabulary} {σ μ : Frame} {i : Instruction}

/-- The height of a frame changes by what the opcode takes and puts, whatever the words are. -/
theorem Moves.length (h : Moves v σ i μ) :
    μ.length + i.op.effect.1 = σ.length + i.op.effect.2 := by
  cases h with
  | @unary σ op code w found => cases op <;> cases found <;> rfl
  | binary op b a => cases op <;> rfl
  | pushInt | pushTruth | pushLabel | load | loadBool | store | mark | jump | branchIfZero
  | branchIfNotZero | printInt | printStr | inputInt => rfl

/-- A mark finds the frame empty. -/
theorem Moves.eq_nil_of_mark (h : Moves v σ i μ) (mark : i.op = .label) : σ = [] := by
  cases h with
  | mark name => rfl
  | @unary σ op code w found => cases op <;> cases found <;> cases mark
  | binary op b a => cases op <;> cases mark
  | pushInt | pushTruth | pushLabel | load | loadBool | store | jump | branchIfZero | branchIfNotZero
  | printInt | printStr | inputInt => cases mark

end Moves

/-! ## Rows of instructions -/

/-- A row of instructions leads from a frame to another, through frames of at most `limit` words. A result
that is kept is the only word of its frame, and leaves it. -/
inductive Flows (v : Vocabulary) (limit : Nat) : Frame → List Cell → Frame → Prop
  | nil (σ : Frame) : Flows v limit σ [] σ
  | next {σ μ τ : Frame} {i : Instruction} {rest : List Cell} :
    Moves v σ i μ → μ.length ≤ limit → Flows v limit μ rest τ → Flows v limit σ (⟨i, false⟩ :: rest) τ
  | keep {σ τ : Frame} {w : Word} {i : Instruction} {rest : List Cell} :
    Moves v σ i [w] → 1 ≤ limit → Flows v limit [] rest τ → Flows v limit σ (⟨i, true⟩ :: rest) τ

namespace Flows

variable {v : Vocabulary} {limit : Nat} {σ σ' μ τ τ' : Frame} {cells cells' : List Cell}

/-- Rows follow one another. -/
theorem append (h : Flows v limit σ cells μ) (h' : Flows v limit μ cells' τ) :
    Flows v limit σ (cells ++ cells') τ := by
  induction h with
  | nil σ => exact h'
  | next moves low _ ih => exact .next moves low (ih h')
  | keep moves low _ ih => exact .keep moves low (ih h')

/-- Between two rows there is a frame. -/
theorem exists_of_append (h : Flows v limit σ (cells ++ cells') τ) :
    ∃ μ, Flows v limit σ cells μ ∧ Flows v limit μ cells' τ := by
  induction cells generalizing σ with
  | nil => exact ⟨σ, .nil σ, h⟩
  | cons cell rest ih =>
    cases h with
    | next moves low later =>
      obtain ⟨μ, first, second⟩ := ih later
      exact ⟨μ, .next moves low first, second⟩
    | keep moves low later =>
      obtain ⟨μ, first, second⟩ := ih later
      exact ⟨μ, .keep moves low first, second⟩

/-- The height of the frame before a row of instructions is fixed by that after it. -/
theorem length_eq (h : Flows v limit σ cells τ) (h' : Flows v limit σ' cells τ')
    (same : τ.length = τ'.length) : σ.length = σ'.length := by
  induction h generalizing σ' with
  | nil σ =>
    cases h'
    exact same
  | next moves _ _ ih =>
    cases h' with
    | next moves' _ rest' =>
      have later := ih rest' same
      have first := moves.length
      have first' := moves'.length
      omega
  | keep moves _ _ _ =>
    cases h' with
    | keep moves' _ _ =>
      have first := moves.length
      have first' := moves'.length
      simp only [List.length_singleton] at first first'
      omega

/-- A single instruction that keeps nothing. -/
theorem one {i : Instruction} (moves : Moves v σ i μ) (low : μ.length ≤ limit) :
    Flows v limit σ (plain [i]) μ :=
  .next moves low (.nil μ)

theorem plain_append {code code' : List Instruction} (h : Flows v limit σ (plain code) μ)
    (h' : Flows v limit μ (plain code') τ) : Flows v limit σ (plain (code ++ code')) τ := by
  rw [plain, List.map_append]
  exact h.append h'

/-- Code that computes a single value can keep it. -/
theorem keepLast {code : List Instruction} {w : Word} (h : Flows v limit σ (plain code) [w])
    (some : code ≠ []) : Flows v limit σ (keepLast code) [] := by
  fun_induction MiniC.keepLast code generalizing σ with
  | case1 => exact absurd rfl some
  | case2 i =>
    cases h with
    | next moves low rest =>
      cases rest
      exact .keep moves low (.nil [])
  | case3 i j rest ih =>
    cases h with
    | next moves low later => exact .next moves low (ih later (by simp))

end Flows

/-! ## Expressions -/

/-- The highest frame that the code of an expression comes to. -/
def Expr.depth : Expr → Nat
  | .literal .. | .name .. | .call .. => 1
  | .unary _ operand _ => operand.depth
  | .binary _ left right _ => max left.depth (1 + right.depth)
  | .index base position _ => max base.depth (max (1 + position.depth) 3)

/-- The value of an expression is on the stack in the end, so its code needs one word at least. -/
theorem Expr.one_le_depth (x : Expr) : 1 ≤ x.depth := by
  induction x using Expr.shallowInduction with
  | literal | name | call => exact Nat.le_refl 1
  | unary op operand ty ih => exact ih
  | binary op left right ty ih _ => exact Nat.le_trans ih (Nat.le_max_left _ _)
  | index base position ty ih _ => exact Nat.le_trans ih (Nat.le_max_left _ _)

/-- The word is what a value of the given type is known to be. -/
def Word.Suits (v : Vocabulary) (w : Word) (ty : Ty) : Prop :=
  (ty = .bool → w = .truth) ∧ (ty = ⟨.string, []⟩ → ∃ label, w = .address label ∧ v.IsLiteral label)

/-- The word is the address of a variable of the given type. -/
def Word.Names (v : Vocabulary) (w : Word) (ty : Ty) : Prop :=
  ∃ id label, w = .address label ∧ v.labels id = some label ∧ v.types id = some ty

/-- What an operator of a class gives to operands that it takes suits the type of its result. -/
theorem OperatorClass.word_suits {v : Vocabulary} {k : OperatorClass} {ty : Ty}
    (accepted : k.accepts ty.primitive) :
    (if k.isComparison || k = .logical then Word.truth else .any).Suits v
      (if k.isComparison then .bool else ty) := by
  obtain ⟨primitive, qualifiers⟩ := ty
  cases k <;> cases primitive <;> simp_all [accepts, OperatorClass.accepted, isComparison, Word.Suits, Ty.bool]

/-- Operators before their operand keep its type. -/
theorem UnaryOp.eq_of_result? {op : UnaryOp} {ty result : Ty} (h : op.result? ty = some result) :
    ty = result := by
  unfold UnaryOp.result? at h
  split at h
  · exact Option.some.inj h
  · cases h

/-- What an operator before its operand gives suits the type of its result. -/
theorem UnaryOp.word_suits {v : Vocabulary} {op : UnaryOp} {ty result : Ty}
    (h : op.result? ty = some result) : op.word.Suits v result := by
  unfold UnaryOp.result? at h
  split at h
  · rename_i accepted
    cases h
    have suits := OperatorClass.word_suits (v := v) (Bool.and_eq_true_iff.1 accepted).2
    cases op <;> exact suits
  · cases h

/-- What an operator between operands gives suits the type of its result. -/
theorem BinaryOp.word_suits {v : Vocabulary} {op : BinaryOp} {ty ty' result : Ty}
    (h : op.result? ty ty' = some result) : op.word.Suits v result := by
  unfold BinaryOp.result? at h
  split at h
  · rename_i accepted
    cases h
    exact OperatorClass.word_suits (Bool.and_eq_true_iff.1 accepted).2
  · cases h

namespace Expr.Sound

variable {v : Vocabulary} {number : Nat} {ty : Ty}

/-- The parts of a sound expression are sound. -/
theorem operand {op : UnaryOp} {x : Expr} {given : Option Ty}
    (h : (Expr.unary op x given).Sound v number ty) :
    ∃ ty', x.Sound v number ty' ∧ op.result? ty' = some ty := by
  cases h.typed with
  | unary typed result => exact ⟨_, ⟨typed, h.hasCode, h.literals, h.index⟩, result⟩

/-- The operands of a sound operator are sound, the right one with the numbers that the left one leaves. -/
theorem operands {op : BinaryOp} {x y : Expr} {given : Option Ty}
    (h : (Expr.binary op x y given).Sound v number ty) :
    ∃ ty' ty'', x.Sound v number ty' ∧ y.Sound v (number + x.numbers) ty'' ∧
      op.result? ty' ty'' = some ty := by
  obtain ⟨sub, sub'⟩ := List.append_subset.1 h.literals
  cases h.typed with
  | binary typed typed' result =>
    exact ⟨_, _, ⟨typed, h.hasCode.1, sub, h.index ∘ .inl⟩, ⟨typed', h.hasCode.2, sub', h.index ∘ .inr⟩,
      result⟩

/-- The parts of a sound element are sound, and there are index expressions then. -/
theorem parts {base position : Expr} {given : Option Ty}
    (h : (Expr.index base position given).Sound v number ty) :
    ∃ ty', base.Sound v number ty' ∧ position.Sound v (number + base.numbers) .int ∧ base.isLvalue ∧
      ty'.element? = some ty ∧ v.indexed := by
  obtain ⟨sub, sub'⟩ := List.append_subset.1 h.literals
  have indexed := h.index trivial
  cases h.typed with
  | index typed typed' element =>
    exact ⟨_, ⟨typed, h.hasCode.2.1, sub, fun _ => indexed⟩, ⟨typed', h.hasCode.2.2, sub', fun _ => indexed⟩,
      typed.isLvalue_of_element element, element, indexed⟩

end Expr.Sound

section Expressions

variable {v : Vocabulary}

/-- The code of an element, from the frames of what it is an element of and of the index. -/
theorem Flows.element {limit : Nat} {σ : Frame} {b p : Word} {base position : List Instruction}
    {stride : Int32} (room : σ.length + 3 ≤ limit) (first : Flows v limit σ (plain base) (b :: σ))
    (second : Flows v limit (b :: σ) (plain position) (p :: b :: σ)) :
    Flows v limit σ (plain (base ++ (position ++ [.pushInt stride, ⟨.mul, .none⟩, ⟨.add, .none⟩])))
      (.any :: σ) := by
  have pushed : Moves v (p :: b :: σ) (.pushInt stride) (.any :: p :: b :: σ) := .pushInt stride
  have multiplied : Moves v (.any :: p :: b :: σ) ⟨.mul, .none⟩ (.any :: b :: σ) := .binary .mul _ _
  have added : Moves v (.any :: b :: σ) ⟨.add, .none⟩ (.any :: σ) := .binary .add _ _
  refine first.plain_append (second.plain_append (.next pushed ?_ (.next multiplied ?_ (.one added ?_))))
  all_goals
    simp only [List.length_cons]
    omega

/-- The code of an expression adds its value to the frame, and its code without the last load its
address. -/
theorem Expr.Sound.flows {x : Expr} {number : Nat} {ty : Ty} (h : x.Sound v number ty) :
    (∃ w, (¬v.indexed → w.Suits v ty) ∧ ∀ {limit : Nat} {σ : Frame}, σ.length + x.depth ≤ limit →
      Flows v limit σ (plain (x.code v.labels number)) (w :: σ)) ∧
    (x.isLvalue → ∃ w, (¬v.indexed → w.Names v ty) ∧ ∀ {limit : Nat} {σ : Frame},
      σ.length + x.depth ≤ limit → Flows v limit σ (plain (x.addressCode v.labels number)) (w :: σ)) := by
  induction x using Expr.shallowInduction generalizing number ty with
  | literal value annotation =>
    refine ⟨?_, fun lvalue => by cases lvalue⟩
    cases h.typed with
    | literal =>
      cases value with
      | int value =>
        refine ⟨.any, fun _ => by simp [Word.Suits, Literal.ty, Ty.bool], fun room => ?_⟩
        exact .one (.pushInt value) room
      | bool value =>
        refine ⟨.truth, fun _ => by simp [Word.Suits, Literal.ty], fun room => ?_⟩
        exact .one (.pushTruth value) room
      | char value =>
        refine ⟨.any, fun _ => by simp [Word.Suits, Literal.ty, Ty.bool], fun room => ?_⟩
        exact .one (.pushInt _) room
      | string value =>
        have literal : v.IsLiteral (literalLabel number) := ⟨(number, value), h.literals (.head _), rfl⟩
        refine ⟨.address (literalLabel number), fun _ => by simpa [Word.Suits, Literal.ty, Ty.bool],
          fun room => ?_⟩
        exact .one (.pushLabel (.inr literal)) room
      | float value => exact h.hasCode.elim
  | name spelling symbol annotation =>
    obtain ⟨id, label, rfl, labelled⟩ := h.hasCode
    cases h.typed with
    | name found =>
      have pushed : ∀ {limit : Nat} {σ : Frame}, σ.length + 1 ≤ limit →
          Flows v limit σ (plain [.pushLabel label]) (.address label :: σ) :=
        fun room => .one (.pushLabel (.inl ⟨id, labelled⟩)) room
      have address : labelOf v.labels (some id) = label := by simp [labelOf, labelled]
      simp only [Expr.code, Expr.addressCode, address]
      refine ⟨?_, fun _ => ⟨.address label, fun _ => ⟨id, label, rfl, labelled, found⟩, pushed⟩⟩
      by_cases bool : ty = .bool
      · refine ⟨.truth, fun _ => ⟨fun _ => rfl, fun same => absurd same (h.ne_string rfl)⟩, fun room => ?_⟩
        exact (pushed room).plain_append (.one (.loadBool ⟨id, labelled, bool ▸ found⟩) room)
      · refine ⟨.any, fun _ => ⟨fun same => absurd same bool, fun same => ?_⟩, fun room => ?_⟩
        · exact absurd same (h.ne_string rfl)
        · exact (pushed room).plain_append (.one (.load fun _ => ⟨label, rfl, id, labelled⟩) room)
  | unary op x annotation ih =>
    obtain ⟨ty', sound, result⟩ := h.operand
    obtain ⟨⟨w, suits, flows⟩, -⟩ := ih sound
    refine ⟨?_, fun lvalue => by cases lvalue⟩
    cases found : Lowering.unaryOpCode? op with
    | none =>
      -- A plus has no instruction, and its result is its operand.
      refine ⟨w, UnaryOp.eq_of_result? result ▸ suits, fun room => ?_⟩
      simp only [Expr.code, found, Option.toList_none, List.map_nil, List.append_nil]
      exact flows room
    | some code =>
      refine ⟨op.word, fun _ => UnaryOp.word_suits result, fun {limit σ} room => ?_⟩
      simp only [Expr.code, found, Option.toList_some, List.map_cons, List.map_nil]
      refine (flows room).plain_append (.one (.unary w found) ?_)
      exact Nat.le_trans (Nat.add_le_add_left x.one_le_depth _) room
  | binary op x y annotation ihx ihy =>
    obtain ⟨ty', ty'', sound, sound', result⟩ := h.operands
    obtain ⟨⟨w, -, first⟩, -⟩ := ihx sound
    obtain ⟨⟨w', -, second⟩, -⟩ := ihy sound'
    refine ⟨⟨op.word, fun _ => BinaryOp.word_suits result, fun {limit σ} room => ?_⟩,
      fun lvalue => by cases lvalue⟩
    simp only [Expr.depth] at room
    refine (first (by omega)).plain_append ((second ?_).plain_append (.one (.binary op w' w) ?_))
    · simp only [List.length_cons]
      omega
    · simp only [List.length_cons]
      omega
  | index base position annotation ihb ihp =>
    obtain ⟨ty', sound, sound', lvalue, -, indexed⟩ := h.parts
    obtain ⟨b, -, first⟩ := (ihb sound).2 lvalue
    obtain ⟨⟨p, -, second⟩, -⟩ := ihp sound'
    have address : ∀ {limit : Nat} {σ : Frame}, σ.length + (Expr.index base position annotation).depth ≤ limit →
        Flows v limit σ (plain ((Expr.index base position annotation).addressCode v.labels number))
          (.any :: σ) := by
      intro limit σ room
      simp only [Expr.depth] at room
      refine .element (by omega) (first (by omega)) (second ?_)
      simp only [List.length_cons]
      omega
    refine ⟨⟨.any, fun plain => absurd indexed plain, fun {limit σ} room => ?_⟩,
      fun _ => ⟨.any, fun plain => absurd indexed plain, address⟩⟩
    rw [Expr.code_index]
    refine (address room).plain_append ?_
    simp only [Expr.depth] at room
    split
    · refine .one (.load fun plain => absurd indexed plain) ?_
      simp only [List.length_cons]
      omega
    · exact .nil _
  | call callee arguments annotation => exact h.hasCode.elim

end Expressions

/-! ## Courses -/

/-- The highest frame that a piece of code comes to. -/
def Action.depth : Action → Nat
  | .border | .mark _ | .jump _ => 0
  | .test _ condition _ _ => condition.depth
  | .assign _ target value => max target.depth (1 + value.depth)
  | .eval _ value | .print _ value => value.depth
  | .input _ target => max target.depth 2

/-- The highest frame that the code of a tree comes to. -/
def Block.depth (b : Block) : Nat :=
  (b.course 0).foldr (fun a depth => max a.depth depth) 0

section Courses

variable {v : Vocabulary}

/-- What is stored into a variable suits it. -/
theorem Word.Names.suits {target value : Word} {ty : Ty} (names : target.Names v ty)
    (suits : value.Suits v ty) :
    ∃ label, target = .address label ∧ v.IsVariable label ∧ (v.IsBool label → value = .truth) := by
  obtain ⟨id, label, rfl, labelled, found⟩ := names
  refine ⟨label, rfl, ⟨id, labelled⟩, ?_⟩
  rintro ⟨id', labelled', bool⟩
  cases v.distinct id id' label labelled labelled'
  cases found.symm.trans bool
  exact suits.1 rfl

/-- A piece of code starts and ends with an empty frame. -/
theorem Action.Sound.flows {a : Action} (h : a.Sound v) {limit : Nat} (room : a.depth ≤ limit) :
    Flows v limit [] (a.cells v.labels) [] := by
  cases a with
  | border => exact .nil []
  | mark name => exact .one (.mark name) (Nat.zero_le _)
  | jump name => exact .one (.jump name) (Nat.zero_le _)
  | test number condition value name =>
    obtain ⟨⟨w, suits, flows⟩, -⟩ := Expr.Sound.flows h
    refine (flows (by simpa [Action.depth] using room)).plain_append ?_
    cases value with
    | true => exact .one (.branchIfNotZero name fun plain => (suits plain).1 rfl) (Nat.zero_le _)
    | false => exact .one (.branchIfZero name fun plain => (suits plain).1 rfl) (Nat.zero_le _)
  | assign number target value =>
    obtain ⟨lvalue, ty, targetSound, valueSound⟩ := h
    obtain ⟨t, names, first⟩ := targetSound.flows.2 lvalue
    obtain ⟨⟨w, suits, second⟩, -⟩ := valueSound.flows
    simp only [Action.depth] at room
    refine (first ?_).plain_append ((second ?_).plain_append (.one (.store fun plain => ?_) (Nat.zero_le _)))
    · simp only [List.length_nil]
      omega
    · simp only [List.length_singleton]
      omega
    · exact (names plain).suits (suits plain)
  | eval number value =>
    obtain ⟨ty, sound⟩ := h
    obtain ⟨⟨w, -, flows⟩, -⟩ := sound.flows
    have computed : Flows v limit [] (plain (value.code v.labels number)) [w] := flows (by simpa [Action.depth] using room)
    -- Code that pushes a value is not empty, so there is a last instruction to keep.
    refine computed.keepLast fun empty => ?_
    rw [empty] at computed
    cases computed
  | print number value =>
    obtain ⟨ty, sound, printable⟩ := h
    obtain ⟨⟨w, suits, flows⟩, -⟩ := sound.flows
    refine (flows (by simpa [Action.depth] using room)).plain_append ?_
    rw [sound.typed.ty?_eq]
    rcases printable with rfl | rfl | rfl
    · exact .one (.printInt w) (Nat.zero_le _)
    · exact .one (.printInt w) (Nat.zero_le _)
    · exact .one (.printStr fun plain => (suits plain).2 rfl) (Nat.zero_le _)
  | input number target =>
    obtain ⟨lvalue, sound⟩ := h
    obtain ⟨t, names, flows⟩ := sound.flows.2 lvalue
    -- What is read may be any word, and only integers are read.
    have suits : Word.any.Suits v .int := by simp [Word.Suits, Ty.int, Ty.bool]
    simp only [Action.depth] at room
    show Flows v limit [] (plain ((Action.input number target).code v.labels)) []
    rw [Action.code, sound.typed.ty?_eq]
    refine (flows ?_).plain_append
      (.next .inputInt ?_ (.one (.store fun plain => (names plain).suits suits) (Nat.zero_le _)))
    · simp only [List.length_nil]
      omega
    · simp only [List.length_cons, List.length_nil]
      omega

/-- A course starts and ends with an empty frame. -/
theorem flows_course {course : List Action} (h : ∀ a ∈ course, a.Sound v) {limit : Nat}
    (room : ∀ a ∈ course, a.depth ≤ limit) :
    Flows v limit [] (course.flatMap (Action.cells v.labels)) [] := by
  induction course with
  | nil => exact .nil []
  | cons a course ih =>
    obtain ⟨sound, later⟩ := List.forall_mem_cons.1 h
    obtain ⟨low, lows⟩ := List.forall_mem_cons.1 room
    exact (sound.flows low).append (ih later lows)

/-- No piece of a tree comes to a higher frame than the tree. -/
theorem Block.depth_le {b : Block} {a : Action} (mem : a ∈ b.course 0) : a.depth ≤ b.depth := by
  unfold Block.depth
  generalize b.course 0 = course at mem ⊢
  induction course with
  | nil => cases mem
  | cons first rest ih =>
    rcases List.mem_cons.1 mem with rfl | mem
    · exact Nat.le_max_left _ _
    · exact Nat.le_trans (ih mem) (Nat.le_max_right _ _)

end Courses

end MiniC
