/-!
# Stacks

A stack of 32-bit values, the top first. Its height is kept beside the values, so that the machine can
compare it with a capacity at each push.
-/

namespace MiniC

/-- Values, the top first, and their number. -/
structure Stack where
  values : List Int32 := []
  height : Nat := 0
  height_eq : height = values.length := by rfl

namespace Stack

/-- The stack without values. -/
def empty : Stack := {}

/-- Puts a value on top. -/
def push (s : Stack) (value : Int32) : Stack :=
  ⟨value :: s.values, s.height + 1, by simp [s.height_eq]⟩

/-- Takes the top off. -/
def pop? (s : Stack) : Option (Int32 × Stack) :=
  match s with
  | ⟨[], _, _⟩ => none
  | ⟨value :: rest, height, height_eq⟩ => some (value, ⟨rest, height - 1, by simp [height_eq]⟩)

/-- The value on top. -/
def top? (s : Stack) : Option Int32 :=
  s.values.head?

@[simp]
theorem values_push (s : Stack) (value : Int32) : (s.push value).values = value :: s.values := rfl

@[simp]
theorem height_push (s : Stack) (value : Int32) : (s.push value).height = s.height + 1 := rfl

@[simp]
theorem pop?_push (s : Stack) (value : Int32) : (s.push value).pop? = some (value, s) := rfl

@[simp]
theorem pop?_empty : empty.pop? = none := rfl

end Stack

end MiniC
