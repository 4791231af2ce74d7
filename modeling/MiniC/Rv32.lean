import MiniC.Number.Integer

/-!
# RV32 assembly text

The part of the RV32 instruction set, with its pseudo instructions, that programs are written in, and the
text of an assembly file: a data section and a text section.
-/

namespace MiniC.Rv32

/-- Registers. -/
inductive Reg where
  | t0
  | t1
  | a0
  | a7
  | sp
  deriving DecidableEq

/-- The name of a register. -/
def Reg.text : Reg → String
  | .t0 => "t0"
  | .t1 => "t1"
  | .a0 => "a0"
  | .a7 => "a7"
  | .sp => "sp"

/-- Operations on two registers. -/
inductive BinaryOp where
  | add
  | sub
  | mul
  | div
  | rem
  | and
  | or
  | xor
  | sll
  | sra
  | sgt
  | slt
  deriving DecidableEq

/-- The word for an operation on two registers. -/
def BinaryOp.mnemonic : BinaryOp → String
  | .add => "add"
  | .sub => "sub"
  | .mul => "mul"
  | .div => "div"
  | .rem => "rem"
  | .and => "and"
  | .or => "or"
  | .xor => "xor"
  | .sll => "sll"
  | .sra => "sra"
  | .sgt => "sgt"
  | .slt => "slt"

/-- Operations on one register. -/
inductive UnaryOp where
  | neg
  | not
  | seqz
  | snez
  deriving DecidableEq

/-- The word for an operation on one register. -/
def UnaryOp.mnemonic : UnaryOp → String
  | .neg => "neg"
  | .not => "not"
  | .seqz => "seqz"
  | .snez => "snez"

/-- Instructions. -/
inductive Instr where
  /-- Loads the word at an offset from an address. -/
  | lw (rd : Reg) (offset : Int) (base : Reg)
  /-- Stores a word at an offset from an address. -/
  | sw (rs : Reg) (offset : Int) (base : Reg)
  | addi (rd rs : Reg) (value : Int)
  | xori (rd rs : Reg) (value : Int)
  /-- Loads a number. -/
  | li (rd : Reg) (value : Int32)
  /-- Loads the address of a label. -/
  | la (rd : Reg) (label : String)
  | binary (op : BinaryOp) (rd rs₁ rs₂ : Reg)
  | unary (op : UnaryOp) (rd rs : Reg)
  | j (label : String)
  | beqz (rs : Reg) (label : String)
  | bnez (rs : Reg) (label : String)
  /-- Calls the environment; the service is the one that `a7` names. -/
  | ecall
  deriving DecidableEq

/-- An address as an operand. An offset of zero is not written. -/
def addressText (offset : Int) (base : Reg) : String :=
  (if offset = 0 then "" else toString offset) ++ "(" ++ base.text ++ ")"

/-- The text of an instruction. -/
def Instr.text : Instr → String
  | .lw rd offset base => s!"lw {rd.text}, {addressText offset base}"
  | .sw rs offset base => s!"sw {rs.text}, {addressText offset base}"
  | .addi rd rs value => s!"addi {rd.text}, {rs.text}, {value}"
  | .xori rd rs value => s!"xori {rd.text}, {rs.text}, {value}"
  | .li rd value => s!"li {rd.text}, {Number.writeInt32 value}"
  | .la rd label => s!"la {rd.text}, {label}"
  | .binary op rd rs₁ rs₂ => s!"{op.mnemonic} {rd.text}, {rs₁.text}, {rs₂.text}"
  | .unary op rd rs => s!"{op.mnemonic} {rd.text}, {rs.text}"
  | .j label => s!"j {label}"
  | .beqz rs label => s!"beqz {rs.text}, {label}"
  | .bnez rs label => s!"bnez {rs.text}, {label}"
  | .ecall => "ecall"

/-- A line of the text section. -/
inductive Line where
  | label (name : String)
  | instr (i : Instr) (comment : Option String := none)
  deriving DecidableEq

/-- The text of a line, with its line feed. -/
def Line.text : Line → String
  | .label name => name ++ ":\n"
  | .instr i none => "    " ++ i.text ++ "\n"
  | .instr i (some comment) => "    " ++ i.text ++ "  # " ++ comment ++ "\n"

/-- An item of the data section. -/
inductive Datum where
  /-- The next item starts at a multiple of the given power of two. -/
  | align (exponent : Nat)
  /-- A text with a zero byte after it. -/
  | string (label value : String)
  /-- Bytes that are zero. -/
  | space (label : String) (size : Nat)
  deriving DecidableEq

/-- One character of a text. -/
def escapedChar (c : Char) : String :=
  match c with
  | '\n' => "\\n"
  | '\t' => "\\t"
  | '\r' => "\\r"
  | '\\' => "\\\\"
  | '"' => "\\\""
  | c => c.toString

/-- A text without its quotes. -/
def escaped (s : String) : String :=
  String.join (s.toList.map escapedChar)

/-- The text of an item, with its line feed. -/
def Datum.text : Datum → String
  | .align exponent => s!".align {exponent}\n"
  | .string label value => label ++ ": .string \"" ++ escaped value ++ "\"\n"
  | .space label size => s!"{label}: .space {size}\n"

/-- An assembly file. -/
structure File where
  data : List Datum
  code : List Line

/-- The text of an assembly file. -/
def File.text (f : File) : String :=
  ".data\n" ++ String.join (f.data.map Datum.text) ++ "\n" ++
    ".text\n" ++ String.join (f.code.map Line.text)

end MiniC.Rv32
