import MiniC.EmitError
import MiniC.Number.Integer
import MiniC.Text.Blank

/-!
# Listings

A listing has one instruction to a line. A mark is its name and a colon; every other instruction is its
word, and its operand after a blank. Reading ignores blank lines, lines that start with `#`, and blanks
around and between the words.
-/

namespace MiniC

namespace Instruction

/-- The line of an instruction. -/
def text (i : Instruction) : String :=
  match i.op, i.operand with
  | .label, .label name => name ++ ":"
  | op, .immediate value => op.mnemonic ++ " " ++ Number.writeInt32 value
  | op, .label name => op.mnemonic ++ " " ++ name
  | op, .none => op.mnemonic

/-- The operand of `push`: a number if it reads as one, and a name otherwise. -/
def pushOperand (word : List Char) : Operand :=
  match Number.readInt32 word with
  | some value => .immediate value
  | none => .label (String.ofList word)

/-- The instruction that an opcode makes with the words after it. -/
def ofWords? (op : OpCode) (operands : List (List Char)) : Option Instruction :=
  match op, operands with
  | .label, _ => none
  | .push, [word] => some ⟨.push, pushOperand word⟩
  | .push, _ => none
  | op, [] => if op.takesLabel then none else some ⟨op, .none⟩
  | op, [word] => if op.takesLabel then some ⟨op, .label (String.ofList word)⟩ else none
  | _, _ => none

/-- The name before the colon at the end of a line. -/
def beforeColon? (line : List Char) : Option (List Char) :=
  if line.getLast? = some ':' then some line.dropLast else none

/-- The instruction that a line denotes. -/
def ofLine? (line : List Char) : Option Instruction :=
  let trimmed := Text.trim line
  match beforeColon? trimmed with
  | some name =>
    if name.isEmpty || name.any Text.isBlank then none else some (mark (String.ofList name))
  | none =>
    match Text.words trimmed with
    | [] => none
    | word :: operands => (OpCode.ofMnemonic? (String.ofList word)).bind (ofWords? · operands)

/-- The instruction that a line denotes, or an error with the number of the line. -/
def ofLine (number : Nat) (line : List Char) : Except EmitError Instruction :=
  match ofLine? line with
  | some i => .ok i
  | none => .error (.invalidListing number (String.ofList line))

/-- The instruction that a text of one line denotes. -/
def ofText (text : String) : Except EmitError Instruction :=
  ofLine 1 text.toList

/-- The instructions of the lines of a listing, of which the first has the given number. -/
def ofLines : (number : Nat) → List (List Char) → Except EmitError (List Instruction)
  | _, [] => .ok []
  | number, line :: lines =>
    let trimmed := Text.trim line
    if trimmed.isEmpty || trimmed.head? = some '#' then ofLines (number + 1) lines
    else do
      let first ← ofLine number trimmed
      let rest ← ofLines (number + 1) lines
      pure (first :: rest)

/-- The instructions of a listing. -/
def ofListing (text : String) : Except EmitError (List Instruction) :=
  ofLines 1 (Text.lines text.toList)

/-- The listing of instructions. -/
def listing (instructions : List Instruction) : String :=
  String.join (instructions.map fun i => i.text ++ "\n")

end Instruction

end MiniC
