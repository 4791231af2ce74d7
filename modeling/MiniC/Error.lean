import MiniC.Check.Error
import MiniC.EmitError
import MiniC.Fault
import MiniC.Parser
import MiniC.Token.Scan

/-!
# Errors

Everything that can go wrong between a source text and the end of its run, by the stage where it does.
-/

namespace MiniC

/-- The stages of compilation. -/
inductive Stage where
  | scanning
  | parsing
  | checking
  | emitting
  | running
  deriving DecidableEq

/-- The name of a stage in messages. -/
def Stage.text : Stage → String
  | .scanning => "Lexer"
  | .parsing => "Parser"
  | .checking => "Checker"
  | .emitting => "Emitter"
  | .running => "VM"

/-- An error of some stage. -/
inductive Error where
  | scan (cause : ScanError)
  | parse (cause : ParseError)
  | check (cause : CheckError)
  | emit (cause : EmitError)
  | fault (cause : Fault)
  deriving DecidableEq

namespace Error

/-- The stage of an error. -/
def stage : Error → Stage
  | .scan _ => .scanning
  | .parse _ => .parsing
  | .check _ => .checking
  | .emit _ => .emitting
  | .fault _ => .running

/-- The cause of an error in words. -/
def detail : Error → String
  | .scan cause => cause.message
  | .parse cause => cause.message
  | .check cause => cause.message
  | .emit cause => cause.message
  | .fault cause => cause.message

/-- The message of an error. -/
def message (e : Error) : String :=
  s!"{e.stage.text} error: {e.detail}"

end Error

end MiniC
