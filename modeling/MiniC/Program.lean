import MiniC.Catalogue
import MiniC.Instruction

/-!
# Programs

A program is its code and two catalogues of data: literals, which have contents, and variables, which
only have a place. Both are laid out in the order of their labels.
-/

namespace MiniC

/-- A block of data with contents that are not written to. -/
structure ReadOnlyBlock where
  size : Nat
  alignment : Nat
  value : String
  deriving DecidableEq

/-- A block of data that is zero at first. -/
structure StaticBlock where
  size : Nat
  alignment : Nat
  deriving DecidableEq

/-- Code and data. -/
structure Program where
  code : List Instruction := []
  readOnly : Catalogue ReadOnlyBlock := .empty
  static : Catalogue StaticBlock := .empty

/-- The bytes of all data, without the gaps that alignment leaves. -/
def Program.dataSize (p : Program) : Nat :=
  p.readOnly.entries.foldr (fun entry total => entry.2.size + total) 0 +
    p.static.entries.foldr (fun entry total => entry.2.size + total) 0

end MiniC
