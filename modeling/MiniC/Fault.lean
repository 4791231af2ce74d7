import MiniC.Instruction
import MiniC.Number.Integer
import MiniC.Text.Quoted

/-!
# Faults

The causes for which the machine refuses a program or stops one, and their messages.
-/

namespace MiniC

/-- Why a program cannot be loaded or cannot go on. -/
inductive Fault where
  /-- The stack holds as many values as it can. -/
  | stackOverflow (capacity : Nat)
  /-- A value is needed and the stack is empty. -/
  | stackUnderflow
  | unknownLabel (label : String)
  /-- A label marks two places, two blocks, or a place and a block. -/
  | labelAlreadyInUse (label : String)
  /-- A mark without a name, at the given place in the code. -/
  | emptyLabel (index : Nat)
  /-- Data is aligned to 1, 2, 4 or 8 bytes. -/
  | invalidAlignment (label : String) (alignment : Nat)
  /-- The machine does not execute this opcode. -/
  | invalidInstruction (op : OpCode)
  | divisionByZero
  /-- There is no slot at the address. -/
  | invalidAddress (address : Int32) (size : Nat)
  /-- There is no line to read. -/
  | inputExhausted
  /-- The line that was read, without the blanks around it, is no integer. -/
  | notAnInteger (text : String)
  deriving DecidableEq

/-- The message for a fault. -/
def Fault.message : Fault → String
  | .stackOverflow capacity => s!"stack overflow (stack full, capacity {capacity})"
  | .stackUnderflow => "stack underflow (stack empty)"
  | .unknownLabel label => s!"unknown label: {label}"
  | .labelAlreadyInUse label => s!"label already in use: {label}"
  | .emptyLabel index => s!"empty label at instruction {index}"
  | .invalidAlignment label alignment => s!"invalid alignment {alignment} for {label}"
  | .invalidInstruction op => s!"invalid instruction: {op.mnemonic}"
  | .divisionByZero => "division by zero"
  | .invalidAddress address size =>
    s!"invalid memory address {Number.writeInt32 address} (memory size {size})"
  | .inputExhausted => "i/o error: input exhausted"
  | .notAnInteger text => s!"i/o error: expected an integer, got {Text.quoteString text}"

end MiniC
