import MiniC.EmitError
import MiniC.Program
import MiniC.Rv32

/-!
# Programs as assembly

Every instruction of the stack machine becomes a fixed sequence of RV32 instructions. The stack lies in
memory below `sp`, one word to a value, and `sp` points at its top; `t0` and `t1` hold operands. The
instructions that lead to no such sequence are refused: logic on truth values, calls, and the input of
strings.
-/

namespace MiniC

namespace Rv32

/-- The operation on registers that an opcode for two operands is. -/
def binary? : OpCode → Option BinaryOp
  | .add => some .add
  | .sub => some .sub
  | .mul => some .mul
  | .div => some .div
  | .mod => some .rem
  | .bitAnd => some .and
  | .bitOr => some .or
  | .bitXor => some .xor
  | .bitShLeft => some .sll
  | .bitShRight => some .sra
  | .gt => some .sgt
  | .lt => some .slt
  | _ => none

/-- The operation on a register that an opcode for one operand is. -/
def unary? : OpCode → Option UnaryOp
  | .neg => some .neg
  | .bitNot => some .not
  | _ => none

/-- The word for the one instruction that an opcode is, if it is one. -/
def mnemonic (op : OpCode) : Except EmitError String :=
  match op with
  | .label => .error (.pseudoInstruction op)
  | .jump => .ok "j"
  | .branchEqualZero => .ok "beqz"
  | .branchNotZero => .ok "bnez"
  | op =>
    match binary? op, unary? op with
    | some operation, _ => .ok operation.mnemonic
    | none, some operation => .ok operation.mnemonic
    | none, none => .error (.untranslatable op)

/-- The exponent of the power of two that an alignment is. -/
def alignmentExponent : Nat → Except EmitError Nat
  | 1 => .ok 0
  | 2 => .ok 1
  | 4 => .ok 2
  | 8 => .ok 3
  | alignment => .error (.invalidAlignment alignment)

/-- The services of the environment. -/
inductive Service where
  | printInt
  | printString
  | readInt
  | exit
  deriving DecidableEq

/-- The number of a service. -/
def Service.number : Service → Int32
  | .printInt => 1
  | .printString => 4
  | .readInt => 5
  | .exit => 10

/-- Names a service in `a7`. -/
def Service.select (s : Service) (comment : Option String := none) : Line :=
  .instr (.li .a7 s.number) comment

/-- The label of the text that ends a printed line. -/
def newlineLabel : String := "__NEWLINE"

/-- The texts that every file holds. -/
def sharedTexts : List Datum :=
  [.string newlineLabel "\n", .string "__TRUE" "true", .string "__FALSE" "false"]

/-- Loads two operands: the right one, on top, into `t0` and the left one into `t1`. -/
def loadOperands (op : OpCode) : List Line :=
  [.instr (.lw .t0 0 .sp) (some op.mnemonic), .instr (.lw .t1 4 .sp)]

/-- Replaces the two values on top by `t0`. -/
def replaceTwo : List Line :=
  [.instr (.addi .sp .sp 4), .instr (.sw .t0 0 .sp)]

/-- Pushes `t0`. -/
def pushT0 : List Line :=
  [.instr (.addi .sp .sp (-4)), .instr (.sw .t0 0 .sp)]

/-- Ends a printed line. -/
def endLine : List Line :=
  [Service.printString.select (some "newline"), .instr (.la .a0 newlineLabel), .instr .ecall]

/-- Applies an operation to the two values on top, and then operations to its result. -/
def binaryLines (op : OpCode) (operation : BinaryOp) (after : List Line) : List Line :=
  loadOperands op ++ .instr (.binary operation .t0 .t1 .t0) :: after ++ replaceTwo

/-- Applies an operation to the value on top. -/
def unaryLines (op : OpCode) (operation : UnaryOp) : List Line :=
  [.instr (.lw .t0 0 .sp) (some op.mnemonic), .instr (.unary operation .t0 .t0),
    .instr (.sw .t0 0 .sp)]

/-- Takes the value on top off into `t0` and branches on it. -/
def branchLines (op : OpCode) (branch : Instr) : List Line :=
  [.instr (.lw .t0 0 .sp) (some op.mnemonic), .instr (.addi .sp .sp 4), .instr branch]

/-- The name in the operand of an instruction, which cannot do without it. -/
def labelOf (i : Instruction) : Except EmitError String :=
  match i.labelName? with
  | some name => .ok name
  | none => .error (.untranslatable i.op)

/-- The lines of an instruction. -/
def lines (i : Instruction) : Except EmitError (List Line) :=
  match i.op with
  -- `a ≥ b` is not `a < b`, and `a ≤ b` is not `a > b`
  | .gtEq => .ok (binaryLines i.op .slt [.instr (.xori .t0 .t0 1)])
  | .ltEq => .ok (binaryLines i.op .sgt [.instr (.xori .t0 .t0 1)])
  | .equals => .ok (binaryLines i.op .sub [.instr (.unary .seqz .t0 .t0)])
  | .notEquals => .ok (binaryLines i.op .sub [.instr (.unary .snez .t0 .t0)])
  | .push =>
    match i.operand with
    | .label name => .ok (.instr (.la .t0 name) (some s!"push {name}") :: pushT0)
    | .immediate value =>
      .ok (.instr (.li .t0 value) (some s!"push {Number.writeInt32 value}") :: pushT0)
    | .none => .error (.untranslatable i.op)
  | .pop => .ok [.instr (.addi .sp .sp 4) (some "pop")]
  | .dup => .ok (.instr (.lw .t0 0 .sp) (some "dup") :: pushT0)
  | .load =>
    .ok [.instr (.lw .t0 0 .sp) (some "load"), .instr (.lw .t1 0 .t0), .instr (.sw .t1 0 .sp)]
  | .store =>
    .ok [.instr (.lw .t0 0 .sp) (some "store"), .instr (.lw .t1 4 .sp), .instr (.sw .t0 0 .t1),
      .instr (.addi .sp .sp 8)]
  | .label => do
    let name ← labelOf i
    pure [.label name]
  | .jump => do
    let target ← labelOf i
    pure [.instr (.j target)]
  | .branchEqualZero => do
    let target ← labelOf i
    pure (branchLines i.op (.beqz .t0 target))
  | .branchNotZero => do
    let target ← labelOf i
    pure (branchLines i.op (.bnez .t0 target))
  | .printInt =>
    .ok ([.instr (.lw .a0 0 .sp) (some "print_int"), .instr (.addi .sp .sp 4),
      Service.printInt.select, .instr .ecall] ++ endLine)
  | .printStr =>
    .ok ([Service.printString.select (some "print_str"), .instr (.lw .a0 0 .sp),
      .instr (.addi .sp .sp 4), .instr .ecall] ++ endLine)
  | .inputInt =>
    .ok [Service.readInt.select (some "input_int"), .instr .ecall, .instr (.addi .sp .sp (-4)),
      .instr (.sw .a0 0 .sp)]
  | op =>
    match binary? op, unary? op with
    | some operation, _ => .ok (binaryLines op operation [])
    | none, some operation => .ok (unaryLines op operation)
    | none, none => .error (.untranslatable op)

/-- The lines of instructions, one after another. -/
def linesOf : List Instruction → Except EmitError (List Line)
  | [] => .ok []
  | i :: rest => do
    let first ← lines i
    let others ← linesOf rest
    pure (first ++ others)

/-- The data of literals. -/
def readOnlyData : List (String × ReadOnlyBlock) → Except EmitError (List Datum)
  | [] => .ok []
  | (label, block) :: rest => do
    let exponent ← alignmentExponent block.alignment
    let others ← readOnlyData rest
    pure (.align exponent :: .string label block.value :: others)

/-- The data of variables. -/
def staticData : List (String × StaticBlock) → Except EmitError (List Datum)
  | [] => .ok []
  | (label, block) :: rest => do
    let exponent ← alignmentExponent block.alignment
    let others ← staticData rest
    pure (.align exponent :: .space label block.size :: others)

end Rv32

namespace Program

/-- A program as an assembly file. After its last instruction it exits. -/
def assemble (p : Program) : Except EmitError Rv32.File := do
  let literals ← Rv32.readOnlyData p.readOnly.entries
  let storage ← Rv32.staticData p.static.entries
  let code ← Rv32.linesOf p.code
  pure
    { data := Rv32.sharedTexts ++ literals ++ storage
      code := code ++ [Rv32.Service.exit.select (some "exit"), .instr .ecall] }

/-- The text of a program's assembly file. -/
def assembly (p : Program) : Except EmitError String := do
  let file ← p.assemble
  pure file.text

end Program

end MiniC
