import MiniC.Ty

/-!
# Layout of values in memory

Sizes and alignments count bytes of an address space of 31 bits. Arrays multiply the size of what they
hold. The outermost pointer ends the count: a pointer takes one word, whatever it points to. Only the
primitives that fit in a word have a layout.
-/

namespace MiniC

/-- Why a type has no layout. -/
inductive LayoutError where
  /-- The primitive has no fixed size. -/
  | unsupported (ty : Ty)
  /-- The primitive has no values. -/
  | incomplete (ty : Ty)
  /-- The size leaves the address space. -/
  | tooLarge (ty : Ty)
  deriving DecidableEq

/-- The message for a type without layout. -/
def LayoutError.message : LayoutError → String
  | .unsupported ty => s!"size of type {ty.text} is not implemented"
  | .incomplete ty => s!"type {ty.text} is incomplete and has no size"
  | .tooLarge ty => s!"type {ty.text} is too large"

namespace Ty

/-- The bytes of a word: the size and the alignment of every value that has a layout. -/
def wordSize : Nat := 4

/-- Element counts are held in 32 bits. -/
def maxCount : Nat := 0xFFFFFFFF

/-- Sizes are addresses as well, so they stay within 31 bits. -/
def maxSize : Nat := 0x7FFFFFFF

/-- The size of a value of the primitive alone. -/
def primitiveSize (t : Ty) : Except LayoutError Nat :=
  match t.primitive with
  | .int | .float | .bool => .ok wordSize
  | .string | .char => .error (.unsupported t)
  | .void => .error (.incomplete t)

/-- The number of elements in the arrays outside the outermost pointer, times `count`, and whether there
is such a pointer. There is no answer once a product leaves 32 bits. -/
def countElements (count : Nat) : List Qualifier → Option (Nat × Bool)
  | [] => some (count, false)
  | .pointer :: _ => some (count, true)
  | .array length :: inner =>
    if count * length ≤ maxCount then countElements (count * length) inner else none

/-- The bytes that a value takes. A count that leaves 32 bits is reported before a primitive without
layout, and that before a size that leaves the address space. -/
def size (t : Ty) : Except LayoutError Nat :=
  match countElements 1 t.qualifiers with
  | none => .error (.tooLarge t)
  | some (count, pointed) => do
    let unit ← if pointed then pure wordSize else t.primitiveSize
    if count * unit ≤ maxSize then pure (count * unit) else throw (.tooLarge t)

/-- The power of two that the address of a value is a multiple of. -/
def alignment (t : Ty) : Except LayoutError Nat :=
  if t.qualifiers.contains .pointer then .ok wordSize else t.primitiveSize

end Ty

end MiniC
