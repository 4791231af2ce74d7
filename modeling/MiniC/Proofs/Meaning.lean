import Mathlib.Algebra.Group.Int.Defs
import MiniC.Console
import MiniC.Machine.Step
import MiniC.Proofs.Code

/-!
# What a checked tree means

A direct evaluator of checked trees, in the order of the source and without code, stack or jumps. It
works on a flat memory in which every variable has an address, and on a console.

Numbers are integers brought back to 32 bits after each operation. Both operands of `&&` and `||` are
evaluated, the left one first. The address of an element is the address of what it is an element of,
plus the index times the size of an element; whether the index is in range is not asked, so an element
out of range is whatever lies at its address, if that is in memory at all. What an expression statement
computes is kept, and the last such value is the result of the run.

Only loops can go on for ever, so only they are bounded: with a bound of `turns`, no loop that is entered
may take more turns than that. The answer is `none` if one does.
-/

namespace MiniC

/-! ## Operators -/

/-- The number of places that a shift moves by: the low five bits of its count. -/
def shiftCount (count : Int32) : Nat :=
  (count.toInt % 32).toNat

/-- The result of an operator between operands. -/
def BinaryOp.apply (op : BinaryOp) (a b : Int32) : Except Fault Int32 :=
  let wrap (n : Int) : Except Fault Int32 := .ok (.ofInt n)
  let truth (b : Bool) : Except Fault Int32 := .ok (if b then 1 else 0)
  match op with
  | .add => wrap (a.toInt + b.toInt)
  | .sub => wrap (a.toInt - b.toInt)
  | .mul => wrap (a.toInt * b.toInt)
  | .div => if b = 0 then .error .divisionByZero else wrap (a.toInt.tdiv b.toInt)
  | .mod => if b = 0 then .error .divisionByZero else wrap (a.toInt.tmod b.toInt)
  | .bitAnd => .ok (a &&& b)
  | .bitOr => .ok (a ||| b)
  | .bitXor => .ok (a ^^^ b)
  | .shiftLeft => wrap (a.toInt * 2 ^ shiftCount b)
  | .shiftRight => wrap (a.toInt / 2 ^ shiftCount b)
  | .and => truth (a ≠ 0 ∧ b ≠ 0)
  | .or => truth (a ≠ 0 ∨ b ≠ 0)
  | .eq => truth (a = b)
  | .notEq => truth (a ≠ b)
  | .lt => truth (a.toInt < b.toInt)
  | .gt => truth (b.toInt < a.toInt)
  | .ltEq => truth (a.toInt ≤ b.toInt)
  | .gtEq => truth (b.toInt ≤ a.toInt)

/-- The result of an operator before its operand. -/
def UnaryOp.apply (op : UnaryOp) (a : Int32) : Int32 :=
  match op with
  | .plus => a
  | .neg => .ofInt (-a.toInt)
  | .bitNot => ~~~a
  | .not => if a = 0 then 1 else 0

/-! ## Memory -/

/-- The slot at an address. -/
def slotOf (memory : Array Int32) (address : Int32) : Except Fault Nat :=
  if 0 ≤ address.toInt ∧ address.toInt < memory.size then .ok address.toInt.toNat
  else .error (.invalidAddress address memory.size)

/-- The value at an address. -/
def readSlot (memory : Array Int32) (address : Int32) : Except Fault Int32 := do
  let slot ← slotOf memory address
  pure (memory.getD slot 0)

/-- The memory with a value stored at an address. -/
def writeSlot (memory : Array Int32) (address value : Int32) : Except Fault (Array Int32) := do
  let slot ← slotOf memory address
  pure (memory.setIfInBounds slot value)

/-- The text at an address: a byte from every slot before the first that is zero. -/
def readText (memory : Array Int32) (address : Int32) : Except Fault String := do
  let slot ← slotOf memory address
  let bytes := ((memory.toList.drop slot).takeWhile (· ≠ 0)).map Machine.lowByte
  pure (String.ofList (Text.decodeLossy bytes))

/-! ## Expressions -/

/-- Where the data of a tree lies in memory. A literal is known by its number. -/
structure Placement where
  variableAt : SymbolId → Int32
  literalAt : (number : Nat) → Int32

/-- The address of a name. -/
def Placement.addressOf (place : Placement) (symbol : Option SymbolId) : Int32 :=
  (symbol.map place.variableAt).getD 0

namespace Expr

variable (place : Placement) (memory : Array Int32)

/-- The value of a literal. The value of a string is its address. -/
def literalValue (number : Nat) : Literal → Int32
  | .int value => value
  | .bool value => if value then 1 else 0
  | .char value => .ofNat value.toNat
  | .string _ => place.literalAt number
  | .float _ => 0

mutual

/-- The value of an expression whose first literal has the given number. An element that is itself an
array has no value but its address. -/
def value : (number : Nat) → Expr → Except Fault Int32
  | number, .literal value _ => .ok (literalValue place number value)
  | _, .name _ symbol _ => readSlot memory (place.addressOf symbol)
  | number, .unary op operand _ => do
    let a ← operand.value number
    pure (op.apply a)
  | number, .binary op left right _ => do
    let a ← left.value number
    let b ← right.value (number + left.numbers)
    op.apply a b
  | number, .index base position ty => do
    let start ← base.address number
    let i ← position.value (number + base.numbers)
    let element := start + i * strideOf ty
    if isLoaded ty then readSlot memory element else pure element
  | _, .call .. => .error (.invalidInstruction .call)

/-- The address of a name or an element. -/
def address : (number : Nat) → Expr → Except Fault Int32
  | _, .name _ symbol _ => .ok (place.addressOf symbol)
  | number, .index base position ty => do
    let start ← base.address number
    let i ← position.value (number + base.numbers)
    pure (start + i * strideOf ty)
  | _, .literal .. | _, .unary .. | _, .binary .. | _, .call .. => .error (.invalidInstruction .store)

end

/-- The value of an element is what its address leads to, if it can be loaded. -/
theorem value_index (number : Nat) (base position : Expr) (ty : Option Ty) :
    (Expr.index base position ty).value place memory number =
      (Expr.index base position ty).address place memory number >>= fun element =>
        if isLoaded ty then readSlot memory element else pure element := by
  simp only [value, address, bind_assoc, pure_bind]

end Expr

/-! ## Statements -/

/-- What evaluating statements changes. -/
structure Situation where
  /-- The values of the expression statements so far, the last one first. -/
  values : List Int32 := []
  memory : Array Int32
  console : Console

/-- How evaluating statements ends. -/
inductive Outcome where
  | done (final : Situation)
  | fault (cause : Fault) (final : Situation)

namespace Outcome

/-- The outcome after a computation: its fault, or what follows it. -/
def after {α : Type} (result : Except Fault α) (s : Situation) (next : α → Option Outcome) :
    Option Outcome :=
  match result with
  | .ok a => next a
  | .error cause => some (.fault cause s)

/-- The outcome of two parts, one after the other. -/
def andThen (first : Option Outcome) (next : Situation → Option Outcome) : Option Outcome :=
  match first with
  | some (.done s) => next s
  | some (.fault cause s) => some (.fault cause s)
  | none => none

/-- The outcome of a loop with its test first, through at most `turns` turns. -/
def loop (test : Situation → Except Fault Int32) (body : Situation → Option Outcome) :
    (turns : Nat) → Situation → Option Outcome
  | 0, _ => none
  | turns + 1, s =>
    after (test s) s fun value =>
      if value = 0 then some (.done s) else andThen (body s) (loop test body turns)

end Outcome

open Outcome

section Statements

variable (place : Placement)

/-- Gives declared names their initial values. A name without one keeps what its place holds. -/
def Declarator.execAll : (number : Nat) → List Declarator → Situation → Option Outcome
  | _, [], s => some (.done s)
  | number, d :: ds, s =>
    match d.init with
    | none => Declarator.execAll (number + 1) ds s
    | some init =>
      after (init.value place s.memory (number + 1)) s fun value =>
        after (writeSlot s.memory (place.addressOf d.symbol) value) s fun memory =>
          Declarator.execAll (number + 1 + init.numbers) ds { s with memory }

/-- Prints a value of the given type. -/
def Situation.print (s : Situation) (ty : Option Ty) (value : Int32) : Option Outcome :=
  if ty = some ⟨.string, []⟩ then
    after (readText s.memory value) s fun text =>
      some (.done { s with console := s.console.printString text })
  else some (.done { s with console := s.console.printInt value })

/-- Reads an integer into an address. -/
def Situation.input (s : Situation) (address : Int32) : Option Outcome :=
  match s.console.readInt with
  | .error cause console => some (.fault cause { s with console })
  | .ok value console =>
    after (writeSlot s.memory address value) { s with console } fun memory =>
      some (.done { s with memory, console })

mutual

/-- Carries a statement out, each loop in it through at most `turns` turns. -/
def Stmt.exec (turns : Nat) : (number : Nat) → Stmt → Situation → Option Outcome
  | number, .block body, s => body.exec turns number s
  | number, .ifThen condition body, s =>
    after (condition.value place s.memory (number + 1)) s fun value =>
      if value = 0 then some (.done s) else body.exec turns (number + 1 + condition.numbers) s
  | number, .ifElse condition body otherwise, s =>
    after (condition.value place s.memory (number + 1)) s fun value =>
      if value = 0 then otherwise.exec turns (number + 1 + condition.numbers + body.numbers) s
      else body.exec turns (number + 1 + condition.numbers) s
  | number, .whileLoop condition body, s =>
    loop (fun s => condition.value place s.memory (number + 1))
      (body.exec turns (number + 1 + condition.numbers)) turns s
  | number, .doWhile body condition, s =>
    andThen (body.exec turns (number + 1) s) <|
      loop (fun s => condition.value place s.memory (number + 1 + body.numbers))
        (body.exec turns (number + 1)) turns
  | number, .forLoop init condition step body, s =>
    let first := number + 1 + init.numbers
    let turn := first + condition.numbers + condition.numbers
    andThen (init.exec turns (number + 1) s) <|
      loop (fun s => condition.value place s.memory first)
        (fun s => andThen (body.exec turns turn s) (step.exec turns (turn + body.numbers))) turns
  | number, .declare _ declarators, s => Declarator.execAll place number declarators s
  | number, .assign target value, s =>
    after (target.address place s.memory number) s fun address =>
      after (value.value place s.memory (number + target.numbers)) s fun value =>
        after (writeSlot s.memory address value) s fun memory => some (.done { s with memory })
  | number, .eval value, s =>
    after (value.value place s.memory number) s fun value =>
      some (.done { s with values := value :: s.values })
  | number, .print value, s =>
    after (value.value place s.memory number) s (s.print value.ty?)
  | number, .input target, s => after (target.address place s.memory number) s s.input
  | _, .function .., s => some (.fault (.invalidInstruction .call) s)
  | _, .breakLoop, s | _, .continueLoop, s => some (.fault (.invalidInstruction .jump) s)
  | _, .returnValue _, s => some (.fault (.invalidInstruction .ret) s)

/-- Carries a block out. -/
def Block.exec (turns : Nat) : (number : Nat) → Block → Situation → Option Outcome
  | number, ⟨statements, _⟩, s => Stmt.execAll turns number statements s

/-- Carries statements out, one after another. -/
def Stmt.execAll (turns : Nat) : (number : Nat) → List Stmt → Situation → Option Outcome
  | _, [], s => some (.done s)
  | number, statement :: rest, s =>
    andThen (statement.exec turns number s) (Stmt.execAll turns (number + statement.numbers) rest)

end

end Statements

end MiniC
