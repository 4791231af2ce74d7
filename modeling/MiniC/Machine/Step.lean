import MiniC.Console
import MiniC.Machine

/-!
# One instruction

`Machine.step` is what the machine does with one instruction. Arithmetic is that of 32-bit words and
wraps; a shift takes its count modulo 32; comparisons and logic give 0 or 1, and logic takes every value
but zero for true. A fault leaves what the instruction did before it: a line that was read stays read.
-/

namespace MiniC.Machine

/-- What a run changes. -/
structure State where
  /-- The place of the next instruction. -/
  pc : Nat := 0
  stack : Stack := .empty
  memory : Array Int32
  console : Console

/-- A step of a run. -/
abbrev Exec := EStateM Fault State

/-- Takes the top off the stack. -/
def pop : Exec Int32 :=
  fun s =>
    match s.stack.pop? with
    | some (value, stack) => .ok value { s with stack }
    | none => .error .stackUnderflow s

/-- Puts a value on the stack, which holds at most `capacity` values. -/
def push (capacity : Nat) (value : Int32) : Exec Unit :=
  fun s =>
    if s.stack.height < capacity then .ok () { s with stack := s.stack.push value }
    else .error (.stackOverflow capacity) s

/-- Goes on at another place. -/
def goTo (target : Nat) : Exec Unit :=
  fun s => .ok () { s with pc := target }

/-- The place that an argument names. Places are words of 64 bits, so a negative one lies past the end
of the code. -/
def target (argument : Int32) : Nat :=
  (argument.toInt % 0x10000000000000000).toNat

/-- The slot at an address of a memory with `size` slots. -/
def slot (size : Nat) (address : Int32) : Except Fault Nat :=
  if 0 ≤ address.toInt ∧ address.toInt < size then .ok address.toInt.toNat
  else .error (.invalidAddress address size)

/-- A truth value as a word. -/
def truth (b : Bool) : Int32 :=
  if b then 1 else 0

/-- What an opcode for two operands does with them. -/
def binary? (op : OpCode) : Option (Int32 → Int32 → Except Fault Int32) :=
  match op with
  | .add => some fun a b => .ok (a + b)
  | .sub => some fun a b => .ok (a - b)
  | .mul => some fun a b => .ok (a * b)
  | .div => some fun a b => if b = 0 then .error .divisionByZero else .ok (a / b)
  | .mod => some fun a b => if b = 0 then .error .divisionByZero else .ok (a % b)
  | .bitOr => some fun a b => .ok (a ||| b)
  | .bitAnd => some fun a b => .ok (a &&& b)
  | .bitXor => some fun a b => .ok (a ^^^ b)
  | .bitShLeft => some fun a b => .ok (a <<< b)
  | .bitShRight => some fun a b => .ok (a >>> b)
  | .equals => some fun a b => .ok (truth (a = b))
  | .notEquals => some fun a b => .ok (truth (a ≠ b))
  | .gt => some fun a b => .ok (truth (b < a))
  | .lt => some fun a b => .ok (truth (a < b))
  | .gtEq => some fun a b => .ok (truth (b ≤ a))
  | .ltEq => some fun a b => .ok (truth (a ≤ b))
  | .logicAnd => some fun a b => .ok (truth (a ≠ 0 ∧ b ≠ 0))
  | .logicOr => some fun a b => .ok (truth (a ≠ 0 ∨ b ≠ 0))
  | _ => none

/-- What an opcode for one operand does with it. -/
def unary? (op : OpCode) : Option (Int32 → Int32) :=
  match op with
  | .neg => some fun a => -a
  | .bitNot => some fun a => ~~~a
  | .logicNot => some fun a => truth (a = 0)
  | .notZero => some fun a => truth (a ≠ 0)
  | _ => none

/-- The low byte of a slot. -/
def lowByte (value : Int32) : UInt8 :=
  value.toUInt32.toUInt8

/-- The bytes in memory from a slot on, up to a slot that is zero, through at most `bound` slots. -/
def bytesFrom (memory : Array Int32) : (bound : Nat) → (start : Nat) → List UInt8
  | 0, _ => []
  | bound + 1, start =>
    match memory[start]? with
    | none => []
    | some value => if value = 0 then [] else lowByte value :: bytesFrom memory bound (start + 1)

/-- The text in memory from a slot on. -/
def stringAt (memory : Array Int32) (start : Nat) : String :=
  String.ofList (Text.decodeLossy (bytesFrom memory (memory.size - start) start))

/-- The result of a computation that may fault. -/
def liftFault {α : Type} : Except Fault α → Exec α
  | .ok a => pure a
  | .error fault => throw fault

/-- Finds the slot at an address. -/
def slotAt (address : Int32) : Exec Nat := do
  let s ← get
  liftFault (slot s.memory.size address)

/-- Replaces two operands by a result. The right one is on top. -/
def applyBinary (capacity : Nat) (f : Int32 → Int32 → Except Fault Int32) : Exec Unit := do
  let b ← pop
  let a ← pop
  let result ← liftFault (f a b)
  push capacity result

/-- Replaces an operand by a result. -/
def applyUnary (capacity : Nat) (f : Int32 → Int32) : Exec Unit := do
  let a ← pop
  push capacity (f a)

/-- Puts a copy of the top on the stack. -/
def duplicate (capacity : Nat) : Exec Unit := do
  match (← get).stack.top? with
  | some value => push capacity value
  | none => throw .stackUnderflow

/-- Replaces an address by the value in its slot. -/
def loadSlot (capacity : Nat) : Exec Unit := do
  let address ← pop
  let index ← slotAt address
  push capacity ((← get).memory.getD index 0)

/-- Stores a value into the slot at the address below it. -/
def storeSlot : Exec Unit := do
  let value ← pop
  let address ← pop
  let index ← slotAt address
  modify fun s => { s with memory := s.memory.setIfInBounds index value }

/-- Goes to a place if a condition holds of the top of the stack, which it takes off. -/
def branch (condition : Int32 → Bool) (argument : Int32) : Exec Unit := do
  let value ← pop
  if condition value then goTo (target argument) else pure ()

/-- Prints the top of the stack as an integer. -/
def printInt : Exec Unit := do
  let value ← pop
  modify fun s => { s with console := s.console.printInt value }

/-- Prints the text at the address on top of the stack. -/
def printString : Exec Unit := do
  let address ← pop
  let index ← slotAt address
  modify fun s => { s with console := s.console.printString (stringAt s.memory index) }

/-- Reads an integer and puts it on the stack. -/
def inputInt (capacity : Nat) : Exec Unit := do
  let value ← fun s =>
    match s.console.readInt with
    | .ok value console => .ok value { s with console }
    | .error fault console => .error fault { s with console }
  push capacity value

/-- What the machine does with an instruction, apart from moving on to the next one. -/
def step (capacity : Nat) (i : LoadedInstruction) : Exec Unit :=
  match i.op with
  | .push => push capacity i.argument
  | .pop => do
    let _ ← pop
    pure ()
  | .dup => duplicate capacity
  | .load => loadSlot capacity
  | .store => storeSlot
  | .jump => goTo (target i.argument)
  | .branchEqualZero => branch (· = 0) i.argument
  | .branchNotZero => branch (· ≠ 0) i.argument
  | .label => pure ()
  | .printInt => printInt
  | .printStr => printString
  | .inputInt => inputInt capacity
  | .call => throw (.invalidInstruction .call)
  | .ret => throw (.invalidInstruction .ret)
  | .inputStr => throw (.invalidInstruction .inputStr)
  | op =>
    match binary? op, unary? op with
    | some f, _ => applyBinary capacity f
    | none, some f => applyUnary capacity f
    | none, none => throw (.invalidInstruction op)

end MiniC.Machine
