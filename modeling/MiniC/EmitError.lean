import MiniC.Instruction
import MiniC.Symbol
import MiniC.Ty.Layout

/-!
# Reasons not to emit code

The causes for which lowering a tree, reading a listing or writing assembly fails, and their messages.
-/

namespace MiniC

/-- Constructs without code. -/
inductive UnloweredConstruct where
  /-- A place in memory for a symbol that has none. -/
  | storage (kind : SymbolKind) (name : String)
  | print (ty : Ty)
  | input (ty : Ty)
  /-- An assignment to the expression with the given text. -/
  | storeInto (target : String)
  | function
  | breakLoop
  | continueLoop
  | returnValue
  | floatLiteral
  | call
  deriving DecidableEq

/-- A construct as messages name it. -/
def UnloweredConstruct.text : UnloweredConstruct → String
  | .storage kind name => s!"storage for {kind.text} {name}"
  | .print ty => s!"print of {ty.text}"
  | .input ty => s!"input of {ty.text}"
  | .storeInto target => s!"store into {target}"
  | .function => "function definition"
  | .breakLoop => "break"
  | .continueLoop => "continue"
  | .returnValue => "return"
  | .floatLiteral => "float literal"
  | .call => "function call"

/-- Why no code is emitted. -/
inductive EmitError where
  /-- The instruction has no counterpart in assembly. -/
  | untranslatable (op : OpCode)
  /-- Data is aligned to 1, 2, 4 or 8 bytes. -/
  | invalidAlignment (alignment : Nat)
  /-- The opcode stands for no operation. -/
  | pseudoInstruction (op : OpCode)
  | layout (cause : LayoutError)
  | unimplemented (construct : UnloweredConstruct)
  /-- A name without symbol or storage, or an expression without type: the tree was not checked. -/
  | unresolvedSymbol (name : String)
  /-- A line of a listing is no instruction. -/
  | invalidListing (line : Nat) (text : String)
  deriving DecidableEq

/-- The message for code that is not emitted. -/
def EmitError.message : EmitError → String
  | .untranslatable op => s!"no direct translation for {op.mnemonic}"
  | .invalidAlignment alignment => s!"invalid alignment: {alignment}"
  | .pseudoInstruction op => s!"pseudo instruction {op.mnemonic} has no translation"
  | .layout cause => cause.message
  | .unimplemented construct => s!"lowering of {construct.text} is not implemented"
  | .unresolvedSymbol name => s!"unresolved symbol: {name}"
  | .invalidListing line text => s!"invalid IR at line {line}: {text}"

end MiniC
