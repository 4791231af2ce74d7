/-!
# Types

A type is a primitive and a list of qualifiers, the outermost first: `int[3]^` is an array of three
pointers to `int`. Indexing takes the outermost qualifier off, and two types are the same only if their
primitives and all their qualifiers are.
-/

namespace MiniC

/-- The types with a name of their own. -/
inductive Primitive where
  | int
  | float
  | string
  | char
  | bool
  | void
  deriving DecidableEq

namespace Primitive

/-- Every primitive, in the order in which their names enter the outermost scope. -/
def all : List Primitive :=
  [.int, .float, .string, .char, .bool, .void]

/-- The name of a primitive in the source. -/
def name : Primitive → String
  | .int => "int"
  | .float => "float"
  | .string => "string"
  | .char => "char"
  | .bool => "bool"
  | .void => "void"

/-- The primitive with the given name. -/
def ofName? (name : String) : Option Primitive :=
  all.find? fun p => p.name = name

end Primitive

/-- A step from a value to the values in it. -/
inductive Qualifier where
  /-- An array with the given number of elements. -/
  | array (length : Nat)
  /-- A pointer. -/
  | pointer
  deriving DecidableEq

/-- The words before the type that a qualifier applies to. -/
def Qualifier.text : Qualifier → String
  | .array length => s!"array({length}) of "
  | .pointer => "pointer to "

/-- A primitive under qualifiers, outermost first. -/
structure Ty where
  primitive : Primitive
  qualifiers : List Qualifier := []
  deriving DecidableEq

namespace Ty

/-- The type `int`. -/
def int : Ty := ⟨.int, []⟩

/-- The type `bool`. -/
def bool : Ty := ⟨.bool, []⟩

/-- A type is unqualified when it is just its primitive. -/
def isUnqualified (t : Ty) : Bool :=
  t.qualifiers.isEmpty

/-- The type of the elements: the type without its outermost qualifier. -/
def element? (t : Ty) : Option Ty :=
  match t.qualifiers with
  | [] => none
  | _ :: inner => some ⟨t.primitive, inner⟩

/-- A type in words, from the outside in. -/
def text (t : Ty) : String :=
  String.join (t.qualifiers.map Qualifier.text) ++ t.primitive.name

end Ty

end MiniC
