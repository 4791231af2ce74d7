import MiniC.Ty

/-!
# Symbols

A symbol is what a name stands for: a function, a variable, a type or a parameter.
-/

namespace MiniC

/-- What kind of thing a name stands for. -/
inductive SymbolKind where
  | function
  | variable
  | typeName
  | parameter
  deriving DecidableEq

/-- A kind of symbol in words. -/
def SymbolKind.text : SymbolKind → String
  | .function => "fn"
  | .variable => "var"
  | .typeName => "type"
  | .parameter => "parameter"

/-- What a name stands for. -/
structure Symbol where
  name : String
  kind : SymbolKind
  /-- The type of a variable or parameter, the result of a function, or the type that is named. -/
  ty : Ty
  /-- The types of a function's parameters. -/
  arguments : List Ty := []
  /-- Whether a value has been given to it. -/
  initialized : Bool := false
  /-- Whether it is referred to. -/
  used : Bool := false
  /-- The label of its storage, once it has storage. -/
  label : Option String := none
  deriving DecidableEq

namespace Symbol

/-- A function. It counts as used from the start. -/
def forFunction (name : String) (ty : Ty) (arguments : List Ty) : Symbol :=
  { name, kind := .function, ty, arguments, initialized := true, used := true }

/-- A variable without a value. -/
def forVariable (name : String) (ty : Ty) : Symbol :=
  { name, kind := .variable, ty }

/-- The name of a type. -/
def forType (name : String) (ty : Ty) : Symbol :=
  { name, kind := .typeName, ty, initialized := true, used := true }

/-- A parameter. It gets its value from the call. -/
def forParameter (name : String) (ty : Ty) : Symbol :=
  { name, kind := .parameter, ty, initialized := true }

end Symbol

end MiniC
