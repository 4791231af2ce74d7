import MiniC.Machine.Step
import MiniC.Proofs.Instructions
import MiniC.Proofs.Rv32.Templates

/-!
# Opcodes as instructions

`Template` lists the shapes of the lines that an instruction of the stack machine becomes, and the
operations on registers in them are those of the stack machine: the operands come in the same order, and
comparisons that registers lack are made from the ones they have.
-/

namespace MiniC.Rv32

/-- The operation, and the instruction that adjusts its result, of a comparison that no single operation
on registers is. -/
def adjusted? : OpCode → Option (BinaryOp × Instr)
  | .gtEq => some (.slt, .xori .t0 .t0 1)
  | .ltEq => some (.sgt, .xori .t0 .t0 1)
  | .equals => some (.sub, .unary .seqz .t0 .t0)
  | .notEquals => some (.sub, .unary .snez .t0 .t0)
  | _ => none

/-- The lines that an instruction can become. -/
inductive Template : Instruction → List Line → Prop
  | binary {i : Instruction} {operation : BinaryOp} : binary? i.op = some operation →
      Template i (binaryLines i.op operation [])
  | adjusted {i : Instruction} {operation : BinaryOp} {adjust : Instr} :
      adjusted? i.op = some (operation, adjust) →
      Template i (binaryLines i.op operation [.instr adjust])
  | unary {i : Instruction} {operation : UnaryOp} : unary? i.op = some operation →
      Template i (unaryLines i.op operation)
  | pushLabel (name : String) :
      Template (.pushLabel name) (.instr (.la .t0 name) (some s!"push {name}") :: pushT0)
  | pushInt (value : Int32) : Template (.pushInt value)
      (.instr (.li .t0 value) (some s!"push {Number.writeInt32 value}") :: pushT0)
  | pop (operand : Operand) : Template ⟨.pop, operand⟩ [.instr (.addi .sp .sp 4) (some "pop")]
  | dup (operand : Operand) :
      Template ⟨.dup, operand⟩ (.instr (.lw .t0 0 .sp) (some "dup") :: pushT0)
  | load (operand : Operand) : Template ⟨.load, operand⟩
      [.instr (.lw .t0 0 .sp) (some "load"), .instr (.lw .t1 0 .t0), .instr (.sw .t1 0 .sp)]
  | store (operand : Operand) : Template ⟨.store, operand⟩
      [.instr (.lw .t0 0 .sp) (some "store"), .instr (.lw .t1 4 .sp), .instr (.sw .t0 0 .t1),
        .instr (.addi .sp .sp 8)]
  | mark (name : String) : Template (.mark name) [.label name]
  | jump (name : String) : Template (.jump name) [.instr (.j name)]
  | branchIfZero (name : String) :
      Template (.branchIfZero name) (branchLines .branchEqualZero (.beqz .t0 name))
  | branchIfNotZero (name : String) :
      Template (.branchIfNotZero name) (branchLines .branchNotZero (.bnez .t0 name))
  | printInt (operand : Operand) : Template ⟨.printInt, operand⟩
      ([.instr (.lw .a0 0 .sp) (some "print_int"), .instr (.addi .sp .sp 4), Service.printInt.select,
        .instr .ecall] ++ endLine)
  | printStr (operand : Operand) : Template ⟨.printStr, operand⟩
      ([Service.printString.select (some "print_str"), .instr (.lw .a0 0 .sp), .instr (.addi .sp .sp 4),
        .instr .ecall] ++ endLine)
  | inputInt (operand : Operand) : Template ⟨.inputInt, operand⟩
      [Service.readInt.select (some "input_int"), .instr .ecall, .instr (.addi .sp .sp (-4)),
        .instr (.sw .a0 0 .sp)]

/-- Lines that are made of the name in an operand. -/
theorem labelled_eq_ok {i : Instruction} {g : String → List Line} {ls : List Line}
    (h : (labelOf i >>= fun name => pure (g name)) = .ok ls) :
    ∃ name, i.operand = .label name ∧ ls = g name := by
  obtain ⟨op, operand⟩ := i
  cases operand with
  | label name =>
    cases h
    exact ⟨name, rfl, rfl⟩
  | none => cases h
  | immediate value => cases h

/-- The lines of an instruction have one of the shapes. -/
theorem template_of_lines {i : Instruction} {ls : List Line} (h : lines i = .ok ls) : Template i ls := by
  obtain ⟨op, operand⟩ := i
  cases op
  case push =>
    cases operand with
    | none => cases h
    | immediate value =>
      cases h
      exact .pushInt value
    | label name =>
      cases h
      exact .pushLabel name
  case label =>
    obtain ⟨name, rfl, rfl⟩ := labelled_eq_ok h
    exact .mark name
  case jump =>
    obtain ⟨name, rfl, rfl⟩ := labelled_eq_ok h
    exact .jump name
  case branchEqualZero =>
    obtain ⟨name, rfl, rfl⟩ := labelled_eq_ok h
    exact .branchIfZero name
  case branchNotZero =>
    obtain ⟨name, rfl, rfl⟩ := labelled_eq_ok h
    exact .branchIfNotZero name
  -- the other opcodes do not look at their operands
  all_goals
    cases h
    all_goals first
      | exact .binary rfl
      | exact .adjusted rfl
      | exact .unary rfl
      | exact .pop operand
      | exact .dup operand
      | exact .load operand
      | exact .store operand
      | exact .printInt operand
      | exact .printStr operand
      | exact .inputInt operand

/-! ## Operations -/

theorem toNat_mod_eq_shiftCount (count : Int32) : count.toBitVec.toNat % 32 = shiftCount count := by
  have bits := BitVec.toInt_eq_toNat_cond count.toBitVec
  have bound := count.toBitVec.isLt
  unfold shiftCount
  show _ = (count.toBitVec.toInt % 32).toNat
  split at bits <;> omega

theorem toBitVec_truth (b : Bool) : (Machine.truth b).toBitVec = if b then 1 else 0 := by
  cases b <;> rfl

theorem toBitVec_truth_lt (a b : Int32) :
    (Machine.truth (a < b)).toBitVec = if a.toBitVec.slt b.toBitVec then 1 else 0 := by
  rw [toBitVec_truth]
  simp only [decide_eq_true_eq, Int32.lt_iff_toBitVec_slt]

/-- The last bit of a comparison is flipped to get the opposite one. -/
theorem flip_truth_lt (a b : Int32) :
    (if a.toBitVec.slt b.toBitVec then 1 else 0 : Word) ^^^ 1 = (Machine.truth (b ≤ a)).toBitVec := by
  rw [toBitVec_truth]
  simp only [decide_eq_true_eq, ← Int32.not_lt, ite_not, Int32.lt_iff_toBitVec_slt]
  split
  · rfl
  · rfl

theorem sub_eq_zero_iff (a b : Int32) : a.toBitVec - b.toBitVec = 0 ↔ a = b := by
  rw [← Int32.toBitVec_sub, toBitVec_eq_zero_iff]
  constructor
  · intro h
    rw [← Int32.sub_add_cancel a b, h, Int32.zero_add]
  · rintro rfl
    exact Int32.sub_self a

/-- An operation on registers gives what the opcode gives. -/
theorem apply_of_binary? {op : OpCode} {operation : BinaryOp} (h : binary? op = some operation) :
    ∃ f, Machine.binary? op = some f ∧ ∀ a b value, f a b = .ok value →
      operation.apply a.toBitVec b.toBitVec = value.toBitVec := by
  cases op <;> cases h
  all_goals
    refine ⟨_, rfl, ?_⟩
    intro a b value result
  case div =>
    by_cases zero : b = 0
    · simp [zero] at result
    · simp only [if_neg zero] at result
      cases result
      exact (if_neg fun h => zero ((toBitVec_eq_zero_iff b).1 h)).trans Int32.toBitVec_div.symm
  case mod =>
    by_cases zero : b = 0
    · simp [zero] at result
    · simp only [if_neg zero] at result
      cases result
      exact (if_neg fun h => zero ((toBitVec_eq_zero_iff b).1 h)).trans Int32.toBitVec_mod.symm
  case bitShLeft =>
    cases result
    rw [Int32.toBitVec_shiftLeft, BitVec.shiftLeft_eq', shiftCount_eq, ← toNat_mod_eq_shiftCount]
    rfl
  case bitShRight =>
    cases result
    rw [Int32.toBitVec_shiftRight, BitVec.sshiftRight_eq', shiftCount_eq, ← toNat_mod_eq_shiftCount]
    rfl
  case gt =>
    cases result
    exact (toBitVec_truth_lt b a).symm
  case lt =>
    cases result
    exact (toBitVec_truth_lt a b).symm
  -- what is left does the same to words as to integers
  all_goals
    cases result
    rfl

/-- An operation on registers whose result is adjusted gives what the comparison gives. -/
theorem apply_of_adjusted? {op : OpCode} {operation : BinaryOp} {i : Instr}
    (h : adjusted? op = some (operation, i)) :
    ∃ (f : _) (adjust : Word → Word), Machine.binary? op = some f ∧
      (∀ (image : Image) m, image.exec i m = .ok (m.write .t0 (adjust (m.regs .t0)))) ∧
      ∀ a b value, f a b = .ok value →
        adjust (operation.apply a.toBitVec b.toBitVec) = value.toBitVec := by
  cases op <;> cases h
  case equals =>
    refine ⟨_, UnaryOp.seqz.apply, rfl, fun _ _ => rfl, ?_⟩
    rintro a b _ ⟨⟩
    rw [toBitVec_truth]
    simp only [decide_eq_true_eq, ← sub_eq_zero_iff a b]
    rfl
  case notEquals =>
    refine ⟨_, UnaryOp.snez.apply, rfl, fun _ _ => rfl, ?_⟩
    rintro a b _ ⟨⟩
    rw [toBitVec_truth]
    simp only [decide_eq_true_eq, ne_eq, ite_not, ← sub_eq_zero_iff a b]
    rfl
  case gtEq =>
    refine ⟨_, (· ^^^ 1), rfl, fun _ _ => rfl, ?_⟩
    rintro a b _ ⟨⟩
    exact flip_truth_lt a b
  case ltEq =>
    refine ⟨_, (· ^^^ 1), rfl, fun _ _ => rfl, ?_⟩
    rintro a b _ ⟨⟩
    exact flip_truth_lt b a

/-- An operation on a register gives what the opcode gives. -/
theorem apply_of_unary? {op : OpCode} {operation : UnaryOp} (h : unary? op = some operation) :
    ∃ f, Machine.unary? op = some f ∧ ∀ a, operation.apply a.toBitVec = (f a).toBitVec := by
  cases op <;> cases h
  all_goals
    refine ⟨_, rfl, ?_⟩
    intro a
    rfl

end MiniC.Rv32
