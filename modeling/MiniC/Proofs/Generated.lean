import MiniC.Proofs.Labels
import MiniC.Proofs.Simulation

/-!
# Generated code

Lowering uses only some of the instructions, and each of them with one kind of operand: calls, returns and
the input of strings are never made, nor an operator with an operand of its own. `Block.generated` says so
of the code of every tree, and that there is logic on truth values in the code exactly if there is in the
tree.
-/

namespace MiniC

/-! ## Logic in trees -/

mutual

/-- An expression has an operator on truth values in it. -/
def Expr.HasLogic : Expr → Prop
  | .literal .. | .name .. => False
  | .unary op operand _ => op = .not ∨ operand.HasLogic
  | .binary op left right _ => (op = .and ∨ op = .or) ∨ left.HasLogic ∨ right.HasLogic
  | .index base position _ => base.HasLogic ∨ position.HasLogic
  | .call callee arguments _ => callee.HasLogic ∨ Expr.AnyHasLogic arguments

/-- One of several expressions has an operator on truth values in it. -/
def Expr.AnyHasLogic : List Expr → Prop
  | [] => False
  | x :: xs => x.HasLogic ∨ Expr.AnyHasLogic xs

end

mutual

/-- A statement has an operator on truth values in it. -/
def Stmt.HasLogic : Stmt → Prop
  | .block body | .function _ _ _ body _ => body.HasLogic
  | .ifThen condition body | .whileLoop condition body | .doWhile body condition =>
    condition.HasLogic ∨ body.HasLogic
  | .ifElse condition body otherwise => condition.HasLogic ∨ body.HasLogic ∨ otherwise.HasLogic
  | .forLoop init condition step body =>
    init.HasLogic ∨ condition.HasLogic ∨ step.HasLogic ∨ body.HasLogic
  | .declare _ declarators => ∃ d ∈ declarators, ∃ init ∈ d.init, init.HasLogic
  | .assign target value => target.HasLogic ∨ value.HasLogic
  | .eval value | .print value => value.HasLogic
  | .input target => target.HasLogic
  | .breakLoop | .continueLoop => False
  | .returnValue value => ∃ x ∈ value, x.HasLogic

/-- A block has an operator on truth values in it. -/
def Block.HasLogic : Block → Prop
  | ⟨statements, _⟩ => Stmt.AnyHasLogic statements

/-- One of several statements has an operator on truth values in it. -/
def Stmt.AnyHasLogic : List Stmt → Prop
  | [] => False
  | statement :: rest => statement.HasLogic ∨ Stmt.AnyHasLogic rest

end

/-! ## Instructions -/

/-- The opcodes of operators on truth values. -/
def OpCode.isLogic : OpCode → Bool
  | .logicNot | .logicAnd | .logicOr => true
  | _ => false

/-- The instructions that lowering makes. -/
inductive Instruction.IsGenerated : Instruction → Prop
  | operator (op : BinaryOp) : IsGenerated ⟨Lowering.binaryOpCode op, .none⟩
  | sign {op : UnaryOp} {code : OpCode} :
      Lowering.unaryOpCode? op = some code → IsGenerated ⟨code, .none⟩
  | service {op : OpCode} :
      op ∈ [.load, .store, .printInt, .printStr, .inputInt] → IsGenerated ⟨op, .none⟩
  | pushInt (value : Int32) : IsGenerated (.pushInt value)
  | pushLabel (name : String) : IsGenerated (.pushLabel name)
  | mark (name : String) : IsGenerated (.mark name)
  | jump (name : String) : IsGenerated (.jump name)
  | branchIfZero (name : String) : IsGenerated (.branchIfZero name)
  | branchIfNotZero (name : String) : IsGenerated (.branchIfNotZero name)

/-- Code as lowering makes it, in which there is logic on truth values under the given condition. -/
structure Generated (logic : Prop) (code : List Instruction) : Prop where
  each : ∀ i ∈ code, i.IsGenerated
  logic_iff : (∃ i ∈ code, i.op.isLogic = true) ↔ logic

namespace Generated

variable {logic logic' : Prop} {i : Instruction} {code code' : List Instruction}

theorem nil : Generated False [] :=
  ⟨by simp, by simp⟩

/-- There is logic in a row of code if there is in one of its parts. -/
theorem append (h : Generated logic code) (h' : Generated logic' code') :
    Generated (logic ∨ logic') (code ++ code') := by
  refine ⟨List.forall_mem_append.2 ⟨h.each, h'.each⟩, ?_⟩
  rw [← h.logic_iff, ← h'.logic_iff]
  simp only [List.mem_append, or_and_right, exists_or]

/-- The condition may be stated in other words. -/
theorem congr (h : Generated logic code) (same : logic ↔ logic') : Generated logic' code :=
  ⟨h.each, h.logic_iff.trans same⟩

/-- One instruction is logic if its opcode is. -/
theorem single (h : i.IsGenerated) : Generated (i.op.isLogic = true) [i] :=
  ⟨by simpa using h, by simp⟩

theorem cons (h : i.IsGenerated) (other : i.op.isLogic = false) (rest : Generated logic code) :
    Generated logic (i :: code) :=
  ((single h).append rest).congr (by simp [other])

/-- Code with instructions after it that have nothing to do with logic. -/
theorem followed (h : Generated logic code) (rest : Generated False code') : Generated logic (code ++ code') :=
  (h.append rest).congr (or_false _ ▸ Iff.rfl)

/-- Of the operators between operands two are logic. -/
theorem operator (op : BinaryOp) :
    Generated (op = .and ∨ op = .or) [⟨Lowering.binaryOpCode op, .none⟩] :=
  (single (.operator op)).congr (by cases op <;> decide)

/-- Of the operators before their operand one is; a plus sign has no code. -/
theorem sign (op : UnaryOp) :
    Generated (op = .not) ((Lowering.unaryOpCode? op).toList.map (⟨·, .none⟩)) := by
  cases h : Lowering.unaryOpCode? op with
  | none =>
    obtain rfl : op = .plus := by cases op <;> first | rfl | cases h
    exact nil.congr (by decide)
  | some code => exact (single (.sign h)).congr (by cases op <;> cases h <;> decide)

/-- Loads, stores, prints and reads are no logic. -/
theorem service {op : OpCode} (h : op ∈ [.load, .store, .printInt, .printStr, .inputInt]) :
    Generated False [⟨op, .none⟩] :=
  (single (.service h)).congr (by revert h; cases op <;> decide)

end Generated

/-! ## Expressions -/

section

variable {types : SymbolId → Option Ty} {labels : SymbolId → Option String}

/-- Every symbol that has a label is of a type with a size. -/
def Sized (types : SymbolId → Option Ty) (labels : SymbolId → Option String) : Prop :=
  ∀ id label, labels id = some label → ∃ ty size, types id = some ty ∧ ty.size = .ok size

/-- Nothing that has storage is of type string. -/
theorem Expr.Typed.ne_string {x : Expr} {ty : Ty} (typed : x.Typed types ty) (lvalue : x.isLvalue)
    (has : x.HasCode labels) (sized : Sized types labels) : ty ≠ .string := by
  intro isString
  cases typed with
  | name found =>
    obtain ⟨_, label, ⟨⟩, labelled⟩ := has
    obtain ⟨ty', size, found', size_eq⟩ := sized _ label labelled
    cases found.symm.trans found'
    exact Ty.size_string (isString ▸ size_eq)
  | index _ _ _ =>
    obtain ⟨⟨element, size, ⟨⟩, size_eq⟩, -⟩ := has
    exact Ty.size_string (isString ▸ size_eq)
  | literal _ | unary _ _ | binary _ _ _ => cases lvalue

/-- The code of an expression, and that of its address. -/
theorem Expr.generated {x : Expr} {ty : Ty} (typed : x.Typed types ty) (has : x.HasCode labels)
    (number : Nat) :
    Generated x.HasLogic (x.code labels number) ∧
      (x.isLvalue → Generated x.HasLogic (x.addressCode labels number)) := by
  induction typed generalizing number with
  | literal value =>
    refine ⟨?_, nofun⟩
    cases value with
    | string value => exact .cons (.pushLabel _) rfl .nil
    | int | float | char | bool => exact .cons (.pushInt _) rfl .nil
  | @name spelling id ty found =>
    have push : Generated False [.pushLabel (labelOf labels (some id))] := .cons (.pushLabel _) rfl .nil
    exact ⟨push.followed (.service (by decide)), fun _ => push⟩
  | @unary op operand _ _ _ _ ih =>
    exact ⟨((ih has number).1.append (.sign op)).congr or_comm, nofun⟩
  | @binary op left right _ _ _ _ _ _ ihl ihr =>
    have both := (ihl has.1 number).1.append ((ihr has.2 (number + left.numbers)).1.append (.operator op))
    exact ⟨both.congr (by rw [← or_assoc]; exact or_comm), nofun⟩
  | @index base position _ element baseTyped _ qualified ihb ihp =>
    have scale : Generated False
        [.pushInt (strideOf (some element)), ⟨.mul, .none⟩, ⟨.add, .none⟩] :=
      .cons (.pushInt _) rfl (.cons (.operator .mul) rfl (.cons (.operator .add) rfl .nil))
    have address : Generated (Expr.index base position (some element)).HasLogic
        ((Expr.index base position (some element)).addressCode labels number) :=
      ((ihb has.2.1 number).2 (baseTyped.isLvalue_of_element qualified)).append
        ((ihp has.2.2 (number + base.numbers)).1.followed scale)
    refine ⟨?_, fun _ => address⟩
    rw [code_index]
    refine address.followed ?_
    split
    · exact .service (by decide)
    · exact .nil

/-! ## Statements -/

/-- The code of a declared name has the logic of its initial value. -/
theorem Declarator.generated {d : Declarator} (typed : d.Typed types) (has : d.HasCode labels)
    (number : Nat) : Generated (∃ init ∈ d.init, init.HasLogic) (d.code labels number) := by
  obtain ⟨id, ty, -, -, initTyped⟩ := typed
  unfold Declarator.code
  cases hinit : d.init with
  | none => exact Generated.nil.congr (by simp)
  | some init =>
    have value := (Expr.generated (initTyped init hinit) (has.2 init hinit) (number + 1)).1
    exact (Generated.cons (.pushLabel _) rfl (value.followed (.service (by decide)))).congr (by simp)

/-- The code of a declaration has the logic of its initial values. -/
theorem Declarator.generated_all {ds : List Declarator} (typed : ∀ d ∈ ds, d.Typed types)
    (has : ∀ d ∈ ds, d.HasCode labels) (number : Nat) :
    Generated (∃ d ∈ ds, ∃ init ∈ d.init, init.HasLogic) (Declarator.allCode labels number ds) := by
  induction ds generalizing number with
  | nil => exact Generated.nil.congr (by simp)
  | cons d ds ih =>
    obtain ⟨typed, others⟩ := List.forall_mem_cons.1 typed
    obtain ⟨has, rest⟩ := List.forall_mem_cons.1 has
    exact ((Declarator.generated typed has number).append (ih others rest _)).congr (by simp)

/-- A print is one of two opcodes, neither of which is logic. -/
theorem Generated.print (ty : Option Ty) : Generated False [⟨printOp ty, .none⟩] := by
  refine .service ?_
  unfold printOp
  split <;> decide

mutual

/-- The code of a statement. The condition of a `for` loop has its code twice, which adds no other logic. -/
theorem Stmt.generated (sized : Sized types labels) (number : Nat) :
    {s : Stmt} → s.Typed types → s.HasCode labels → Generated s.HasLogic (s.code labels number)
  | .block _, typed, has => Block.generated sized number typed has
  | .ifThen condition body, ⟨typed₁, typed₂⟩, ⟨has₁, has₂⟩ =>
    have test := (Expr.generated typed₁ has₁ (number + 1)).1
    have inner := Block.generated sized (number + 1 + condition.numbers) typed₂ has₂
    .cons (.mark _) rfl (test.append (.cons (.branchIfZero _) rfl
      (inner.followed (.cons (.jump _) rfl (.cons (.mark _) rfl .nil)))))
  | .ifElse condition body otherwise, ⟨typed₁, typed₂, typed₃⟩, ⟨has₁, has₂, has₃⟩ =>
    have test := (Expr.generated typed₁ has₁ (number + 1)).1
    have first := Block.generated sized (number + 1 + condition.numbers) typed₂ has₂
    have second := Stmt.generated sized (number + 1 + condition.numbers + body.numbers) typed₃ has₃
    .cons (.mark _) rfl (test.append (.cons (.branchIfZero _) rfl (first.append
      (.cons (.jump _) rfl (.cons (.mark _) rfl
        (second.followed (.cons (.jump _) rfl (.cons (.mark _) rfl .nil))))))))
  | .whileLoop condition body, ⟨typed₁, typed₂⟩, ⟨has₁, has₂⟩ =>
    have test := (Expr.generated typed₁ has₁ (number + 1)).1
    have inner := Block.generated sized (number + 1 + condition.numbers) typed₂ has₂
    .cons (.mark _) rfl (test.append (.cons (.branchIfZero _) rfl
      (inner.followed (.cons (.jump _) rfl (.cons (.mark _) rfl .nil)))))
  | .doWhile body condition, ⟨typed₁, typed₂⟩, ⟨has₁, has₂⟩ =>
    have inner := Block.generated sized (number + 1) typed₁ has₂
    have test := (Expr.generated typed₂ has₁ (number + 1 + body.numbers)).1
    .cons (.mark _) rfl ((inner.append (test.followed (.cons (.branchIfZero _) rfl
      (.cons (.jump _) rfl (.cons (.mark _) rfl .nil))))).congr or_comm)
  | .forLoop init condition step body, ⟨typed₁, typed₂, typed₃, typed₄⟩, ⟨has₁, has₂, has₃, has₄⟩ => by
    have start := Stmt.generated sized (number + 1) typed₁ has₁
    have test := fun n => (Expr.generated typed₂ has₂ n).1
    have inner := fun n => Block.generated sized n typed₄ has₃
    have next := fun n => Stmt.generated sized n typed₃ has₄
    have whole : Generated _ (Stmt.code labels number (.forLoop init condition step body)) :=
      .cons (.mark _) rfl ((start).append ((test _).append (.cons (.branchIfNotZero _) rfl
        (.cons (.mark _) rfl ((test _).append (.cons (.branchIfZero _) rfl (.cons (.mark _) rfl
          ((inner _).append ((next _).followed (.cons (.jump _) rfl (.cons (.mark _) rfl .nil)))))))))))
    exact whole.congr (by rw [Stmt.HasLogic, or_self_left, or_comm (a := step.HasLogic)])
  | .declare _ _, typed, has => Declarator.generated_all typed has number
  | .assign target value, ⟨lvalue, _, typed₁, typed₂⟩, ⟨has₁, has₂⟩ =>
    ((Expr.generated typed₁ has₁ number).2 lvalue).append
      ((Expr.generated typed₂ has₂ (number + target.numbers)).1.followed (.service (by decide)))
  | .eval _, ⟨_, typed⟩, has => (Expr.generated typed has number).1
  | .print _, ⟨_, typed⟩, ⟨has, _⟩ => (Expr.generated typed has number).1.followed (.print _)
  | .input target, ⟨lvalue, ty, typed, _⟩, ⟨has, _⟩ => by
    have reads : inputOp target.ty? = .inputInt := by
      have other : ty ≠ ⟨.string, []⟩ := typed.ne_string lvalue has sized
      simp [inputOp, typed.ty?_eq, other]
    have address := (Expr.generated typed has number).2 lvalue
    rw [Stmt.code, reads]
    exact address.followed (.cons (.service (by decide)) rfl (.service (by decide)))

/-- The code of a block. -/
theorem Block.generated (sized : Sized types labels) (number : Nat) :
    {b : Block} → b.Typed types → b.HasCode labels → Generated b.HasLogic (b.code labels number)
  | ⟨_, _⟩, typed, has => Stmt.generated_all sized number typed has

theorem Stmt.generated_all (sized : Sized types labels) (number : Nat) :
    {statements : List Stmt} → Stmt.AllTyped types statements → Stmt.AllHaveCode labels statements →
      Generated (Stmt.AnyHasLogic statements) (Stmt.allCode labels number statements)
  | [], _, _ => .nil
  | statement :: _, ⟨typed₁, typed₂⟩, ⟨has₁, has₂⟩ =>
    (Stmt.generated sized number typed₁ has₁).append
      (Stmt.generated_all sized (number + statement.numbers) typed₂ has₂)

end

end

/-- The code of a checked source. -/
theorem CheckedSource.Lowers.generated {checked : CheckedSource} (h : checked.Lowers) :
    Generated checked.tree.HasLogic checked.program.code :=
  Block.generated (fun _ _ found => h.size_of_label found) 0 h.valid.typed h.hasCode

end MiniC
