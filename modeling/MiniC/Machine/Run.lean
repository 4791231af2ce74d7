import MiniC.Machine.Step

/-!
# Runs

A run starts at the first instruction with an empty stack and the image of the loaded program, whatever an
earlier run has left, and ends where there is no next instruction. Its result is then the top of the stack, or
zero if the stack is empty. `fuel` bounds the number of instructions; a run that needs more has no answer, and more fuel never
changes an answer.
-/

namespace MiniC.Machine

/-- How a run ended, and what it left. -/
structure Ended where
  outcome : Except Fault Int32
  final : State

/-- Runs from a state, for at most `fuel` instructions. -/
def runFrom (capacity : Nat) (code : Array LoadedInstruction) : (fuel : Nat) → State → Option Ended
  | 0, _ => none
  | fuel + 1, s =>
    match code[s.pc]? with
    | none => some ⟨.ok (s.stack.top?.getD 0), s⟩
    | some i =>
      match step capacity i { s with pc := s.pc + 1 } with
      | .ok () s => runFrom capacity code fuel s
      | .error fault s => some ⟨.error fault, s⟩

/-- The machine as it stands, at a console. -/
def state (m : Machine) (console : Console) : State :=
  { pc := m.pc, stack := m.stack, memory := m.memory, console }

/-- The machine made ready for a run: what an earlier run left is taken back. -/
def rewind (m : Machine) : Machine :=
  { m with pc := 0, stack := .empty, memory := m.image }

/-- Where every run of a machine starts. -/
def start (m : Machine) (console : Console) : State :=
  m.rewind.state console

/-- Of the machine nothing but the image goes into the start of a run. -/
theorem start_eq (m : Machine) (console : Console) : m.start console = { memory := m.image, console } := rfl

/-- Runs the loaded program. -/
def run (m : Machine) (fuel : Nat) (console : Console) : Option Ended :=
  runFrom m.capacity m.code fuel (m.start console)

/-- A machine after a run: it stands where the run ended, with the stack and the memory that the run left. -/
def afterRun (m : Machine) (ended : Ended) : Machine :=
  { m with pc := ended.final.pc, stack := ended.final.stack, memory := ended.final.memory }

end MiniC.Machine
