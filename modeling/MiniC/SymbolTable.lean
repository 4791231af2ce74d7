import MiniC.Catalogue
import MiniC.Check.Error
import MiniC.Expr

/-!
# Symbol tables

A symbol table holds scopes and symbols, each under its place. Every scope but the outermost has a
parent, and a name is looked up from a scope outwards. A name can be defined in a scope only if it is not
visible there, so an inner scope never hides a definition of an outer one that came before.

Places that hold no scope or symbol are harmless: nothing is found from them, and a symbol defined in a
scope that does not exist is stored but bound to no name.
-/

namespace MiniC

/-- The names defined in a region of the source, and the region around it. -/
structure Scope where
  names : Catalogue SymbolId := .empty
  parent : Option ScopeId := none

/-- Scopes and symbols. -/
structure SymbolTable where
  scopes : Array Scope
  symbols : Array Symbol

namespace SymbolTable

/-- The outermost scope. -/
def global : ScopeId := 0

/-- The parent of a scope. -/
def parent? (t : SymbolTable) (scope : ScopeId) : Option ScopeId :=
  t.scopes[scope]?.bind Scope.parent

/-- A symbol by its place. -/
def symbol? (t : SymbolTable) (id : SymbolId) : Option Symbol :=
  t.symbols[id]?

/-- Changes a symbol, if it exists. -/
def modifySymbol (t : SymbolTable) (id : SymbolId) (f : Symbol → Symbol) : SymbolTable :=
  { t with symbols := t.symbols.modify id f }

/-- Stores a symbol and binds its name in a scope. -/
def insert (t : SymbolTable) (scope : ScopeId) (symbol : Symbol) : SymbolId × SymbolTable :=
  let id := t.symbols.size
  (id, { scopes := t.scopes.modify scope fun s => { s with names := s.names.insert symbol.name id }
         symbols := t.symbols.push symbol })

/-- The table that every program starts from: the outermost scope with the names of the primitive
types. -/
def initial : SymbolTable :=
  Primitive.all.foldl (fun t p => (t.insert global (.forType p.name ⟨p, []⟩)).2)
    { scopes := #[{}], symbols := #[] }

/-- Opens a scope inside another. -/
def newScope (t : SymbolTable) (parent : ScopeId) : ScopeId × SymbolTable :=
  (t.scopes.size, { t with scopes := t.scopes.push { parent := some parent } })

/-- Looks a name up in a scope and outwards, through at most `bound` scopes. -/
def searchWithin (t : SymbolTable) (name : String) : (bound : Nat) → ScopeId → Option SymbolId
  | 0, _ => none
  | bound + 1, scope =>
    match t.scopes[scope]? with
    | none => none
    | some s =>
      match s.names.find? name with
      | some id => some id
      | none =>
        match s.parent with
        | none => none
        | some parent => t.searchWithin name bound parent

/-- The symbol that a name stands for in a scope. A way outwards passes every scope at most once, so the
number of scopes bounds the search. -/
def search (t : SymbolTable) (scope : ScopeId) (name : String) : Option SymbolId :=
  t.searchWithin name t.scopes.size scope

/-- Defines a symbol in a scope where its name is not visible yet. -/
def define (t : SymbolTable) (scope : ScopeId) (symbol : Symbol) :
    Except CheckError (SymbolId × SymbolTable) :=
  match t.search scope symbol.name with
  | some _ => .error (.duplicateSymbol symbol.name)
  | none => .ok (t.insert scope symbol)

/-- The names bound in a scope itself, in ascending order. -/
def symbolsIn (t : SymbolTable) (scope : ScopeId) : List (String × SymbolId) :=
  match t.scopes[scope]? with
  | some s => s.names.entries
  | none => []

/-- A truth value in a table. -/
def flagText (b : Bool) : String :=
  if b then "1" else "0"

/-- The line of a symbol in a table. -/
def row (name : String) (s : Symbol) : String :=
  s!"{name}:\t {s.kind.text}\t| {s.ty.text}\t| {flagText s.initialized}\t| {flagText s.used}\t|\n"

/-- The symbols of a scope as a table. -/
def dump (t : SymbolTable) (scope : ScopeId) : String :=
  "- ID\t kind\t| type\t| init\t| used\t|-\n" ++
    String.join ((t.symbolsIn scope).map fun (name, id) =>
      match t.symbol? id with
      | some s => row name s
      | none => "")

end SymbolTable

end MiniC
