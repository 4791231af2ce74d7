/-!
# Instructions

The code of the stack machine. An instruction is an opcode and an operand. Every opcode goes with one kind
of operand in the code that lowering makes, but a program can be put together by hand, so the two are
independent and each user of an instruction says what it makes of an odd pair.
-/

namespace MiniC

/-- What an instruction does. Operators take their right operand from the top of the stack. -/
inductive OpCode where
  | add
  | neg
  | sub
  | mul
  | div
  | mod
  | bitNot
  | bitOr
  | bitAnd
  | bitXor
  | bitShLeft
  | bitShRight
  | equals
  | notEquals
  | gt
  | lt
  | gtEq
  | ltEq
  | logicNot
  | logicAnd
  | logicOr
  | notZero
  | push
  | pop
  | dup
  | load
  | store
  | jump
  | branchEqualZero
  | branchNotZero
  | call
  | ret
  | label
  | printInt
  | printStr
  | inputInt
  | inputStr
  deriving DecidableEq

namespace OpCode

/-- Every opcode. -/
def all : List OpCode :=
  [.add, .neg, .sub, .mul, .div, .mod, .bitNot, .bitOr, .bitAnd, .bitXor, .bitShLeft, .bitShRight,
    .equals, .notEquals, .gt, .lt, .gtEq, .ltEq, .logicNot, .logicAnd, .logicOr, .notZero, .push,
    .pop, .dup, .load, .store, .jump, .branchEqualZero, .branchNotZero, .call, .ret, .label,
    .printInt, .printStr, .inputInt, .inputStr]

/-- The word for an opcode in a listing. -/
def mnemonic : OpCode → String
  | .add => "add"
  | .neg => "neg"
  | .sub => "sub"
  | .mul => "mul"
  | .div => "div"
  | .mod => "mod"
  | .bitNot => "bit_not"
  | .bitOr => "bit_or"
  | .bitAnd => "bit_and"
  | .bitXor => "bit_xor"
  | .bitShLeft => "bit_sh_left"
  | .bitShRight => "bit_sh_right"
  | .equals => "equals"
  | .notEquals => "not_equals"
  | .gt => "gt"
  | .lt => "lt"
  | .gtEq => "gt_eq"
  | .ltEq => "lt_eq"
  | .logicNot => "logic_not"
  | .logicAnd => "logic_and"
  | .logicOr => "logic_or"
  | .notZero => "not_zero"
  | .push => "push"
  | .pop => "pop"
  | .dup => "dup"
  | .load => "load"
  | .store => "store"
  | .jump => "jump"
  | .branchEqualZero => "branch_equal_zero"
  | .branchNotZero => "branch_not_zero"
  | .call => "call"
  | .ret => "ret"
  | .label => "label"
  | .printInt => "print_int"
  | .printStr => "print_str"
  | .inputInt => "input_int"
  | .inputStr => "input_str"

/-- The name of an opcode in a snapshot. -/
def name : OpCode → String
  | .add => "Add"
  | .neg => "Neg"
  | .sub => "Sub"
  | .mul => "Mul"
  | .div => "Div"
  | .mod => "Mod"
  | .bitNot => "BitNot"
  | .bitOr => "BitOr"
  | .bitAnd => "BitAnd"
  | .bitXor => "BitXor"
  | .bitShLeft => "BitShLeft"
  | .bitShRight => "BitShRight"
  | .equals => "Equals"
  | .notEquals => "NotEquals"
  | .gt => "Gt"
  | .lt => "Lt"
  | .gtEq => "GtEq"
  | .ltEq => "LtEq"
  | .logicNot => "LogicNot"
  | .logicAnd => "LogicAnd"
  | .logicOr => "LogicOr"
  | .notZero => "NotZero"
  | .push => "Push"
  | .pop => "Pop"
  | .dup => "Dup"
  | .load => "Load"
  | .store => "Store"
  | .jump => "Jump"
  | .branchEqualZero => "BranchEqualZero"
  | .branchNotZero => "BranchNotZero"
  | .call => "Call"
  | .ret => "Ret"
  | .label => "Label"
  | .printInt => "PrintInt"
  | .printStr => "PrintStr"
  | .inputInt => "InputInt"
  | .inputStr => "InputStr"

/-- The opcode with the given word. -/
def ofMnemonic? (word : String) : Option OpCode :=
  all.find? fun op => op.mnemonic = word

/-- The opcodes whose operand is the name of a place in the code. -/
def takesLabel : OpCode → Bool
  | .jump | .branchEqualZero | .branchNotZero | .call | .label => true
  | _ => false

end OpCode

/-- What an instruction is applied to, apart from the stack. -/
inductive Operand where
  | none
  | immediate (value : Int32)
  | label (name : String)
  deriving DecidableEq

/-- An opcode with its operand. -/
structure Instruction where
  op : OpCode
  operand : Operand := .none
  deriving DecidableEq

namespace Instruction

/-- Pushes a number. -/
def pushInt (value : Int32) : Instruction := ⟨.push, .immediate value⟩

/-- Pushes the address of a block of data. -/
def pushLabel (name : String) : Instruction := ⟨.push, .label name⟩

/-- Marks a place in the code. -/
def mark (name : String) : Instruction := ⟨.label, .label name⟩

/-- Goes on at a place in the code. -/
def jump (name : String) : Instruction := ⟨.jump, .label name⟩

/-- Goes on at a place in the code if the top of the stack is zero. -/
def branchIfZero (name : String) : Instruction := ⟨.branchEqualZero, .label name⟩

/-- Goes on at a place in the code if the top of the stack is not zero. -/
def branchIfNotZero (name : String) : Instruction := ⟨.branchNotZero, .label name⟩

/-- The name in the operand. -/
def labelName? (i : Instruction) : Option String :=
  match i.operand with
  | .label name => some name
  | .none | .immediate _ => none

end Instruction

end MiniC
