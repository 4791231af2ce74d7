import MiniC.Fault
import MiniC.Text.Blank

/-!
# Consoles

A console holds the lines that wait to be read and the items printed so far. Reading takes one line,
whether or not it turns out to be an integer. What happens when no line is left depends on where the lines
come from: a list of lines is exhausted, while a stream of text goes on with empty lines.
-/

namespace MiniC

/-- What a read finds when no line is left. -/
inductive InputEnd where
  | exhausted
  | emptyLine
  deriving DecidableEq

/-- Lines to read and items printed. -/
structure Console where
  pending : List String := []
  printed : Array String := #[]
  inputEnd : InputEnd := .exhausted

namespace Console

/-- The lines of a text, each with the line feed that ends it. -/
def linesOf : List Char → List (List Char)
  | [] => []
  | c :: cs =>
    if c = '\n' then [c] :: linesOf cs
    else
      match linesOf cs with
      | [] => [[c]]
      | line :: rest => (c :: line) :: rest

/-- The console of a stream of text. -/
def ofText (text : String) : Console :=
  { pending := (linesOf text.toList).map String.ofList, inputEnd := .emptyLine }

/-- The text of a stream that has not been read. -/
def unreadText (c : Console) : String :=
  String.join c.pending

/-- All that was printed, as a text with a line for each item. -/
def printedText (c : Console) : String :=
  String.join (c.printed.toList.map fun item => item ++ "\n")

/-- Takes the next line. -/
def readLine : EStateM Fault Console String :=
  fun c =>
    match c.pending, c.inputEnd with
    | line :: rest, _ => .ok line { c with pending := rest }
    | [], .emptyLine => .ok "" c
    | [], .exhausted => .error .inputExhausted c

/-- The integer that a line holds, with blanks around it. -/
def integerOf (line : String) : Except Fault Int32 :=
  let trimmed := Text.trim line.toList
  match Number.readInt32 trimmed with
  | some value => .ok value
  | none => .error (.notAnInteger (String.ofList trimmed))

/-- Reads an integer from the next line. -/
def readInt : EStateM Fault Console Int32 := do
  let line ← readLine
  match integerOf line with
  | .ok value => pure value
  | .error fault => throw fault

/-- Prints a text. -/
def printString (c : Console) (text : String) : Console :=
  { c with printed := c.printed.push text }

/-- Prints an integer. -/
def printInt (c : Console) (value : Int32) : Console :=
  c.printString (Number.writeInt32 value)

end Console

end MiniC
