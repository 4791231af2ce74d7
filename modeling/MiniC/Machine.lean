import MiniC.Fault
import MiniC.Machine.Stack
import MiniC.Program
import MiniC.Text.Blank
import MiniC.Text.Utf8

/-!
# The machine and its programs

Loading a program finds the places that its marks name, lays out its data, and replaces every name in the
code by a number, in this order. Memory has one slot of 32 bits for every byte address: literals come
first, one byte to a slot, then variables, each block at the next multiple of its alignment.

Loading forgets whatever was loaded before, and what runs of it have left. If it fails, the labels, the memory
and the code that it came to stay, but there is no image to start a run from.
-/

namespace MiniC

/-- An instruction with its name replaced by a number. -/
structure LoadedInstruction where
  op : OpCode
  argument : Int32
  deriving DecidableEq

/-- A machine with a program in it. -/
structure Machine where
  /-- The number of values that the stack can hold. -/
  capacity : Nat := 1024
  /-- The place of the next instruction. -/
  pc : Nat := 0
  stack : Stack := .empty
  code : Array LoadedInstruction := #[]
  memory : Array Int32 := #[]
  /-- The memory that every run starts from. -/
  image : Array Int32 := #[]
  /-- The places that marks name. -/
  jumpLabels : Catalogue Nat := .empty
  /-- The addresses of the blocks of data. -/
  dataLabels : Catalogue Nat := .empty

namespace Machine

/-- A step of loading. -/
abbrev Loading := EStateM Fault Machine

/-- The name of a mark, without the blanks around it. A mark without a name in its operand has the empty
name. -/
def markName (i : Instruction) : String :=
  match i.labelName? with
  | some name => String.ofList (Text.trim name.toList)
  | none => ""

/-- Takes down the places that the marks in a list of instructions name; the first instruction is at
`index`. A name that comes again is taken down at its last place before it is refused. -/
def indexMarks : (index : Nat) → List Instruction → Loading Unit
  | _, [] => pure ()
  | index, i :: rest => do
    if i.op = .label then
      let name := markName i
      if name = "" then throw (.emptyLabel index)
      let known := (← get).jumpLabels.find? name
      modify fun m => { m with jumpLabels := m.jumpLabels.insert name index }
      if known.isSome then throw (.labelAlreadyInUse name)
    indexMarks (index + 1) rest

/-- The first multiple of `unit` that is not below `n`. -/
def roundUp (n unit : Nat) : Nat :=
  (n + unit - 1) / unit * unit

/-- The alignments that data can have. -/
def isAlignment (alignment : Nat) : Bool :=
  alignment = 1 || alignment = 2 || alignment = 4 || alignment = 8

/-- The slots of a block: as much of the contents as fits, and zeros after it. -/
def blockSlots (size : Nat) (contents : List UInt8) : Array Int32 :=
  ((contents.take size).map fun byte => Int32.ofNat byte.toNat).toArray ++
    Array.replicate (size - contents.length) 0

/-- Where a block goes if all below `stop` is taken. -/
def place (m : Machine) (label : String) (alignment stop : Nat) : Except Fault Nat :=
  if (m.jumpLabels.find? label).isSome || (m.dataLabels.find? label).isSome then
    .error (.labelAlreadyInUse label)
  else if !isAlignment alignment then .error (.invalidAlignment label alignment)
  else .ok (roundUp stop alignment)

/-- Lays literals out, one after another. -/
def reserveReadOnly : List (String × ReadOnlyBlock) → Loading Unit
  | [] => pure ()
  | (label, block) :: rest => do
    let m ← get
    match m.place label block.alignment m.memory.size with
    | .error fault => throw fault
    | .ok start =>
      modify fun m =>
        { m with
          memory := m.memory ++ Array.replicate (start - m.memory.size) 0 ++
            blockSlots block.size (Text.utf8 block.value)
          dataLabels := m.dataLabels.insert label start }
    reserveReadOnly rest

/-- Writes values into memory, one after another, from `address` on. -/
def overwrite (memory : Array Int32) : (address : Nat) → List Int32 → Array Int32
  | _, [] => memory
  | address, value :: rest => overwrite (memory.setIfInBounds address value) (address + 1) rest

/-- Memory with zeros after it up to `stop`. The new memory is made in one piece. -/
def zeroFill (memory : Array Int32) (stop : Nat) : Array Int32 :=
  overwrite (Array.replicate stop 0) 0 memory.toList

/-- Lays variables out, one after another, if all below `stop` is taken. Memory grows once, when it is
known where they end. -/
def reserveStatic : (stop : Nat) → List (String × StaticBlock) → Loading Unit
  | stop, [] => modify fun m => { m with memory := zeroFill m.memory stop }
  | stop, (label, block) :: rest => do
    match (← get).place label block.alignment stop with
    | .error fault =>
      modify fun m => { m with memory := zeroFill m.memory stop }
      throw fault
    | .ok start =>
      modify fun m => { m with dataLabels := m.dataLabels.insert label start }
      reserveStatic (start + block.size) rest

/-- The place that a name marks. -/
def jumpTarget? (m : Machine) (label : String) : Option Nat :=
  m.jumpLabels.find? label

/-- The address of a block of data. -/
def dataOffset? (m : Machine) (label : String) : Option Nat :=
  m.dataLabels.find? label

/-- The number that a name in the code stands for. A `push` prefers data to places. -/
def resolveLabel (m : Machine) (op : OpCode) (label : String) : Except Fault Int32 :=
  let data := if op = .push then m.dataOffset? label else none
  match data.or (m.jumpTarget? label) with
  | some n => .ok (Int32.ofNat n)
  | none => .error (.unknownLabel label)

/-- The argument of an instruction. A mark has none. -/
def resolve (m : Machine) (i : Instruction) : Except Fault Int32 :=
  if i.op = .label then .ok 0
  else
    match i.operand with
    | .none => .ok 0
    | .immediate value => .ok value
    | .label name => m.resolveLabel i.op name

/-- Resolves instructions, one after another. -/
def resolveCode : List Instruction → Loading Unit
  | [] => pure ()
  | i :: rest => do
    match (← get).resolve i with
    | .error fault => throw fault
    | .ok argument => modify fun m => { m with code := m.code.push ⟨i.op, argument⟩ }
    resolveCode rest

/-- Loads a program in the place of whatever was loaded before. Nothing is kept but the capacity: the stack is
empty again, and the next instruction is the first one. -/
def load (p : Program) : Loading Unit := do
  modify fun m => { capacity := m.capacity }
  indexMarks 0 p.code
  reserveReadOnly p.readOnly.entries
  reserveStatic (← get).memory.size p.static.entries
  resolveCode p.code
  modify fun m => { m with image := m.memory }

end Machine

end MiniC
