import MiniC.Instruction.Listing
import MiniC.Program
import MiniC.Text.Json

/-!
# Snapshots of programs

The text forms of a program: the listing of its code alone, and a JSON document of all of it.
-/

namespace MiniC

open Text (Json)

/-- An operand as JSON. -/
def Operand.toJson : Operand → Json
  | .none => .string "None"
  | .immediate value => .object [("Immediate", .number value.toInt)]
  | .label name => .object [("Label", .string name)]

/-- An instruction as JSON. -/
def Instruction.toJson (i : Instruction) : Json :=
  .object [("op", .string i.op.name), ("operand", i.operand.toJson)]

/-- A literal as JSON. -/
def ReadOnlyBlock.toJson (b : ReadOnlyBlock) : Json :=
  .object [("size", .number b.size), ("alignment", .number b.alignment), ("value", .string b.value)]

/-- A variable as JSON. -/
def StaticBlock.toJson (b : StaticBlock) : Json :=
  .object [("size", .number b.size), ("alignment", .number b.alignment)]

/-- A catalogue as JSON. -/
def Catalogue.toJson {α : Type} (value : α → Json) (c : Catalogue α) : Json :=
  .object (c.entries.map fun (label, entry) => (label, value entry))

namespace Program

/-- A program as JSON. -/
def toJson (p : Program) : Json :=
  .object [("instructions", .array (p.code.map Instruction.toJson)),
    ("read_only_data", p.readOnly.toJson ReadOnlyBlock.toJson),
    ("static_data", p.static.toJson StaticBlock.toJson)]

/-- The snapshot of a program. -/
def snapshot (p : Program) : String :=
  p.toJson.text

/-- The listing of a program's code. -/
def listing (p : Program) : String :=
  Instruction.listing p.code

/-- The program without data whose code a listing is. -/
def ofListing (text : String) : Except EmitError Program := do
  let code ← Instruction.ofListing text
  pure { code }

/-- Whether the listing of a program reads back as its code. -/
def listingReadsBack (p : Program) : Bool :=
  match Instruction.ofListing p.listing with
  | .ok code => code = p.code
  | .error _ => false

end Program

end MiniC
