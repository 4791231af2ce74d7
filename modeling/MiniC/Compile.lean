import MiniC.Assembly
import MiniC.Check
import MiniC.Error
import MiniC.Lowering
import MiniC.Machine.Run
import MiniC.Stmt.Parser

/-!
# Compiling sources

From a source text to its warnings, its program, and the result of its run or its assembly file. The
first error ends the way.
-/

namespace MiniC

/-- What is done with a program. -/
inductive Backend where
  | interpret
  | assemble
  deriving DecidableEq

/-- How a source is compiled. -/
structure Options where
  backend : Backend := .interpret
  /-- The number of values that the stack can hold. -/
  stackCapacity : Nat := 1024
  /-- Whether comments are dropped with the blanks; if not, they are dropped before parsing. -/
  stripComments : Bool := true

/-- A checked source. -/
structure CheckedSource where
  tree : Block
  table : SymbolTable
  warnings : List Warning

/-- A compiled source. -/
structure Compiled where
  program : Program
  warnings : List Warning
  /-- The result of the run, if it was run. -/
  result : Option Int32 := none
  /-- The text of the assembly file, if one was written. -/
  assembly : Option String := none

namespace Source

/-- The tree of a source. -/
def parse (source : String) (keepComments : Bool) : Except Error Block := do
  let tokens ← (Token.scan source keepComments).mapError .scan
  (Block.parse tokens).mapError .parse

/-- Checks a source. -/
def check (source : String) (options : Options := {}) : Except Error CheckedSource := do
  let tree ← parse source (!options.stripComments)
  let checked := tree.check
  match checked.outcome with
  | .error cause => .error (.check cause)
  | .ok () => .ok ⟨checked.tree, checked.checker.table, checked.checker.warnings⟩

/-- The program of a source and its warnings. -/
def lowerWithWarnings (source : String) (options : Options := {}) :
    Except Error (Program × List Warning) := do
  let checked ← check source options
  let program ← (checked.tree.lower checked.table).1.mapError .emit
  pure (program, checked.warnings)

/-- The program of a source. -/
def lower (source : String) (options : Options := {}) : Except Error Program := do
  let (program, _) ← lowerWithWarnings source options
  pure program

end Source

/-- Loads a program into a new machine and runs it for at most `fuel` instructions. -/
def Program.runOn (p : Program) (capacity fuel : Nat) (console : Console) :
    Option (Except Fault Int32 × Console) :=
  match Machine.load p { capacity } with
  | .error fault _ => some (.error fault, console)
  | .ok () machine =>
    (machine.run fuel console).map fun ended => (ended.outcome, ended.final.console)

namespace Source

/-- Compiles a source and runs it, or writes its assembly file. There is an answer unless the run takes
more than `fuel` instructions. The console is what the run left. -/
def compile (source : String) (options : Options) (fuel : Nat) (console : Console) :
    Option (Except Error Compiled × Console) :=
  match lowerWithWarnings source options with
  | .error e => some (.error e, console)
  | .ok (program, warnings) =>
    match options.backend with
    | .assemble =>
      match program.assembly with
      | .error cause => some (.error (.emit cause), console)
      | .ok text => some (.ok { program, warnings, assembly := some text }, console)
    | .interpret =>
      (program.runOn options.stackCapacity fuel console).map fun (outcome, console) =>
        match outcome with
        | .error fault => (.error (.fault fault), console)
        | .ok result => (.ok { program, warnings, result := some result }, console)

end Source

end MiniC
