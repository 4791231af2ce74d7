import MiniC.Proofs.Scoping

/-!
# Scopes as layers

What can be seen from a scope is a list of layers: the names of the scope itself, then those of the scope
around it, and so on outwards. A search goes through the layers from the first on (`search_eq`). A new scope
puts an empty layer in front (`layers_newScope`), and a definition adds its name to the first layer
(`layers_insert`).

Scopes are never closed: a table keeps all of them. But checking a part of a tree in a scope changes no scope
that was there before except this one (`SymbolTable.Frame`), so the layers that can be seen from the scopes
around it stay as they are. And the names that it enters there were not visible, so that it makes no two
layers have a name in common (`SymbolTable.Keeps`, `Stmt.Passes.keeps`).
-/

namespace MiniC

namespace SymbolTable

/-! ## Layers -/

/-- The names of a scope and of the scopes around it, through at most `bound` scopes. -/
def layersWithin (t : SymbolTable) : (bound : Nat) → ScopeId → List (Catalogue SymbolId)
  | 0, _ => []
  | bound + 1, scope =>
    match t.scopes[scope]? with
    | none => []
    | some s =>
      match s.parent with
      | none => [s.names]
      | some parent => s.names :: t.layersWithin bound parent

/-- The names of a scope and of the scopes around it, innermost first. -/
def layers (t : SymbolTable) (scope : ScopeId) : List (Catalogue SymbolId) :=
  t.layersWithin t.scopes.size scope

/-- A search through at most so many scopes goes through as many layers. -/
theorem searchWithin_eq (t : SymbolTable) (name : String) (bound : Nat) (scope : ScopeId) :
    t.searchWithin name bound scope = (t.layersWithin bound scope).findSome? (·.find? name) := by
  induction bound generalizing scope with
  | zero => rfl
  | succ bound ih =>
    rw [searchWithin, layersWithin]
    cases t.scopes[scope]? with
    | none => rfl
    | some s =>
      cases found : s.names.find? name with
      | some id => cases around : s.parent <;> simp [found, around]
      | none => cases around : s.parent <;> simp [found, around, ih]

/-- A search goes through the layers. -/
theorem search_eq (t : SymbolTable) (scope : ScopeId) (name : String) :
    t.search scope name = (t.layers scope).findSome? (·.find? name) :=
  t.searchWithin_eq name _ scope

/-- A scope is younger than the one around it. -/
theorem Nested.parent_lt {t : SymbolTable} (nested : t.Nested) {scope parent : Nat} {s : Scope}
    (found : t.scopes[scope]? = some s) (around : s.parent = some parent) : parent < scope :=
  nested scope parent s found around

/-- The way outwards from a scope is no longer than its number. -/
theorem layersWithin_congr {t : SymbolTable} (nested : t.Nested) {bound bound' scope : Nat}
    (lt : scope < bound) (lt' : scope < bound') :
    t.layersWithin bound scope = t.layersWithin bound' scope := by
  induction bound generalizing bound' scope with
  | zero => cases lt
  | succ bound ih =>
    obtain ⟨bound', rfl⟩ : ∃ k, bound' = k + 1 := ⟨bound' - 1, by omega⟩
    rw [layersWithin, layersWithin]
    cases found : t.scopes[scope]? with
    | none => rfl
    | some s =>
      cases around : s.parent with
      | none => simp only [around]
      | some parent =>
        have outer := nested.parent_lt found around
        have rest : t.layersWithin bound parent = t.layersWithin bound' parent :=
          ih (by omega) (by omega)
        simp only [around, rest]

/-- The outermost scope has one layer, its own. -/
theorem layers_eq_single {t : SymbolTable} {scope : ScopeId} {s : Scope} (found : t.scopes[scope]? = some s)
    (outermost : s.parent = none) : t.layers scope = [s.names] := by
  obtain ⟨lt, -⟩ := Array.getElem?_eq_some_iff.1 found
  obtain ⟨bound, size⟩ : ∃ k, t.scopes.size = k + 1 := ⟨t.scopes.size - 1, by omega⟩
  rw [layers, size, layersWithin]
  simp only [found, outermost]

/-- The layers of a scope are its own and those of the scope around it. -/
theorem layers_eq_cons {t : SymbolTable} (nested : t.Nested) {scope parent : Nat} {s : Scope}
    (found : t.scopes[scope]? = some s) (around : s.parent = some parent) :
    t.layers scope = s.names :: t.layers parent := by
  obtain ⟨lt, -⟩ := Array.getElem?_eq_some_iff.1 found
  obtain ⟨bound, size⟩ : ∃ k, t.scopes.size = k + 1 := ⟨t.scopes.size - 1, by omega⟩
  have outer := nested.parent_lt found around
  rw [layers, layers, size, layersWithin]
  simp only [found, around]
  rw [layersWithin_congr nested (by omega) (by omega : parent < bound + 1)]

/-- The layers that can be seen from a scope depend on the scopes up to this one only. -/
theorem layers_congr {t t' : SymbolTable} (nested : t.Nested) (nested' : t'.Nested) {scope : Nat}
    (lt : scope < t.scopes.size) (same : ∀ (x : Nat), x ≤ scope → t'.scopes[x]? = t.scopes[x]?) :
    t'.layers scope = t.layers scope := by
  induction scope using Nat.strongRecOn with
  | ind scope ih =>
    have here : t'.scopes[scope]? = some t.scopes[scope] :=
      (same scope (Nat.le_refl scope)).trans (Array.getElem?_eq_getElem lt)
    have found : t.scopes[scope]? = some t.scopes[scope] := Array.getElem?_eq_getElem lt
    cases around : t.scopes[scope].parent with
    | none => rw [layers_eq_single here around, layers_eq_single found around]
    | some parent =>
      have outer := nested.parent_lt found around
      rw [layers_eq_cons nested' here around, layers_eq_cons nested found around,
        ih parent outer (Nat.lt_trans outer lt) fun x le => same x (by omega)]

/-! ## Changes of a table -/

/-- A table in which every scope is younger than the one around it and every name stands for a symbol. -/
structure Proper (t : SymbolTable) : Prop where
  nested : t.Nested
  known : ∀ (x : Nat) (s : Scope) (name : String) (id : Nat), t.scopes[x]? = some s →
    s.names.find? name = some id → id < t.symbols.size

/-- Two tables that differ in nothing but the flags of their symbols. -/
structure Alike (t t' : SymbolTable) : Prop where
  scopes : t'.scopes = t.scopes
  size : t'.symbols.size = t.symbols.size
  bare : ∀ id, t'.bare? id = t.bare? id

theorem Alike.refl (t : SymbolTable) : Alike t t :=
  ⟨rfl, rfl, fun _ => rfl⟩

theorem Alike.trans {t t' t'' : SymbolTable} (h : Alike t t') (h' : Alike t' t'') : Alike t t'' :=
  ⟨h'.scopes.trans h.scopes, h'.size.trans h.size, fun id => (h'.bare id).trans (h.bare id)⟩

/-- To change a symbol's flags leaves the table alike. -/
theorem alike_modifySymbol (t : SymbolTable) (id : SymbolId) {f : Symbol → Symbol}
    (flags : ∀ s, (f s).bare = s.bare) : Alike t (t.modifySymbol id f) :=
  ⟨rfl, by simp [modifySymbol], bare?_modifySymbol flags⟩

/-- From one table to another no scope changed but the given one and those that were added, and every symbol
is still what it was. -/
structure Frame (t t' : SymbolTable) (scope : Nat) : Prop where
  proper : t'.Proper
  size_le : t.scopes.size ≤ t'.scopes.size
  grows : t.Grows t'
  others : ∀ x : Nat, x < t.scopes.size → x ≠ scope → t'.scopes[x]? = t.scopes[x]?

namespace Frame

variable {t t' t'' : SymbolTable} {scope inner : Nat}

/-- Flags belong to no scope, so changing them changes none. -/
theorem of_alike (h : Alike t t') (proper : t.Proper) : Frame t t' scope where
  proper := by
    refine ⟨fun x parent s found around => ?_, fun x s name id found held => ?_⟩
    · exact proper.nested x parent s (h.scopes ▸ found) around
    · rw [h.size]
      exact proper.known x s name id (h.scopes ▸ found) held
  size_le := Nat.le_of_eq (congrArg Array.size h.scopes.symm)
  grows id s found := (h.bare id).trans found
  others x _ _ := by rw [h.scopes]

/-- Changes of one scope follow one another. -/
theorem trans (h : Frame t t' scope) (h' : Frame t' t'' scope) : Frame t t'' scope where
  proper := h'.proper
  size_le := Nat.le_trans h.size_le h'.size_le
  grows := h.grows.trans h'.grows
  others x lt other :=
    (h'.others x (Nat.lt_of_lt_of_le lt h.size_le) other).trans (h.others x lt other)

/-- What happens in a scope that was added shows in no scope before it. -/
theorem leave (h : Frame t t' scope) (h' : Frame t' t'' inner) (added : t.scopes.size ≤ inner) :
    Frame t t'' scope where
  proper := h'.proper
  size_le := Nat.le_trans h.size_le h'.size_le
  grows := h.grows.trans h'.grows
  others x lt other :=
    (h'.others x (Nat.lt_of_lt_of_le lt h.size_le) (by omega)).trans (h.others x lt other)

/-- What happens in a scope does not show in the scopes around it. -/
theorem layers_eq (h : Frame t t' inner) (proper : t.Proper) (lt : scope < t.scopes.size)
    (outer : scope < inner) : t'.layers scope = t.layers scope :=
  layers_congr proper.nested h.proper.nested lt fun x le => h.others x (by omega) (by omega)

end Frame

/-- Layers hold names and numbers of symbols, which flags do not touch. -/
theorem Alike.layers_eq {t t' : SymbolTable} (h : Alike t t') (scope : ScopeId) :
    t'.layers scope = t.layers scope := by
  have within : ∀ bound scope, t'.layersWithin bound scope = t.layersWithin bound scope := by
    intro bound
    induction bound with
    | zero => exact fun _ => rfl
    | succ bound ih =>
      intro scope
      simp only [layersWithin, h.scopes, ih]
  rw [layers, layers, h.scopes, within]

/-- A new scope is put after all others and is empty. -/
theorem scopes_newScope (t : SymbolTable) (parent x : Nat) :
    (t.newScope parent).2.scopes[x]? =
      if x = t.scopes.size then some { parent := some parent } else t.scopes[x]? := by
  simp only [newScope, Array.getElem?_push]

/-- A new scope changes none that was there. -/
theorem frame_newScope {t : SymbolTable} (proper : t.Proper) {parent : Nat}
    (lt : parent < t.scopes.size) (scope : Nat) : Frame t (t.newScope parent).2 scope where
  proper := by
    refine ⟨(within_newScope proper.nested lt scope).nested, fun x s name id found held => ?_⟩
    rw [scopes_newScope] at found
    split at found
    · cases found
      cases held
    · exact proper.known x s name id found held
  size_le := by simp [newScope]
  grows := fun _ _ found => found
  others x old _ := by rw [scopes_newScope, if_neg (Nat.ne_of_lt old)]

/-- A new scope has an empty layer in front of those around it. -/
theorem layers_newScope {t : SymbolTable} (proper : t.Proper) {parent : Nat}
    (lt : parent < t.scopes.size) :
    (t.newScope parent).2.layers (t.newScope parent).1 = .empty :: t.layers parent := by
  have frame := frame_newScope proper lt t.scopes.size
  have added : (t.newScope parent).2.scopes[t.scopes.size]? = some { parent := some parent } := by
    rw [scopes_newScope, if_pos rfl]
  show (t.newScope parent).2.layers t.scopes.size = _
  rw [layers_eq_cons frame.proper.nested added rfl, frame.layers_eq proper lt lt]

/-- A definition enters its name in one scope, under the number of the symbol that it adds. -/
theorem scopes_insert (t : SymbolTable) (scope x : Nat) (symbol : Symbol) :
    (t.insert scope symbol).2.scopes[x]? =
      if scope = x then t.scopes[x]?.map fun s => { s with names := s.names.insert symbol.name t.symbols.size }
      else t.scopes[x]? := by
  simp only [insert, Array.getElem?_modify]

/-- A definition changes its own scope only. -/
theorem frame_insert {t : SymbolTable} (proper : t.Proper) (scope : Nat) (symbol : Symbol) :
    Frame t (t.insert scope symbol).2 scope where
  proper := by
    refine ⟨(within_insert proper.nested scope symbol).nested, fun x s name id found held => ?_⟩
    have size : (t.insert scope symbol).2.symbols.size = t.symbols.size + 1 := by simp [insert]
    rw [scopes_insert] at found
    split at found
    · obtain ⟨old, before, rfl⟩ := Option.map_eq_some_iff.1 found
      simp only [Catalogue.find?_insert] at held
      split at held
      · cases held
        omega
      · have := proper.known x old name id before held
        omega
    · have := proper.known x s name id found held
      omega
  size_le := by simp [insert]
  grows := grows_insert t scope symbol
  others x _ other := by rw [scopes_insert, if_neg (Ne.symm other)]

/-- A definition adds its name to the first layer. -/
theorem layers_insert {t : SymbolTable} (proper : t.Proper) {scope : Nat} (lt : scope < t.scopes.size)
    (symbol : Symbol) :
    ∃ first rest, t.layers scope = first :: rest ∧
      (t.insert scope symbol).2.layers scope = first.insert symbol.name t.symbols.size :: rest := by
  have frame := frame_insert proper scope symbol
  have found : t.scopes[scope]? = some t.scopes[scope] := Array.getElem?_eq_getElem lt
  have found' := (t.scopes_insert scope scope symbol).trans (if_pos rfl)
  rw [found] at found'
  cases around : t.scopes[scope].parent with
  | none => exact ⟨_, [], layers_eq_single found around, layers_eq_single found' around⟩
  | some parent =>
    have outer := proper.nested.parent_lt found around
    refine ⟨_, t.layers parent, layers_eq_cons proper.nested found around, ?_⟩
    rw [layers_eq_cons frame.proper.nested found' around,
      frame.layers_eq proper (Nat.lt_trans outer lt) outer]

/-- Seen from a scope, a definition in the scope around it adds its name to the second layer. -/
theorem layers_insert_outer {t : SymbolTable} (proper : t.Proper) {inner scope : Nat} {s : Scope}
    (found : t.scopes[inner]? = some s) (around : s.parent = some scope) (symbol : Symbol) :
    t.layers inner = s.names :: t.layers scope ∧
      (t.insert scope symbol).2.layers inner = s.names :: (t.insert scope symbol).2.layers scope := by
  have outer := proper.nested.parent_lt found around
  have found' : (t.insert scope symbol).2.scopes[inner]? = some s := by
    rw [scopes_insert, if_neg (by omega), found]
  exact ⟨layers_eq_cons proper.nested found around,
    layers_eq_cons (frame_insert proper scope symbol).proper.nested found' around⟩

/-! ## Distinct names -/

/-- All names that the layers of a scope hold, from the inside out. -/
def visibleNames (t : SymbolTable) (scope : ScopeId) : List String :=
  (t.layers scope).flatMap Catalogue.keys

/-- No name is bound in two of the scopes from the given one outwards. -/
def Distinct (t : SymbolTable) (scope : ScopeId) : Prop :=
  (t.visibleNames scope).Nodup

instance (t : SymbolTable) (scope : ScopeId) : Decidable (t.Distinct scope) :=
  inferInstanceAs (Decidable (List.Nodup _))

/-- A name is not found exactly if it is in none of the layers. -/
theorem search_eq_none_iff {t : SymbolTable} {scope : ScopeId} {name : String} :
    t.search scope name = none ↔ name ∉ t.visibleNames scope := by
  simp only [search_eq, visibleNames, List.findSome?_eq_none_iff, List.mem_flatMap, not_exists, not_and,
    Catalogue.find?_eq_none_iff]

/-- A definition adds its name to the visible ones. -/
theorem perm_visibleNames_insert {t : SymbolTable} (proper : t.Proper) {scope : Nat}
    (lt : scope < t.scopes.size) {symbol : Symbol} (fresh : symbol.name ∉ t.visibleNames scope) :
    ((t.insert scope symbol).2.visibleNames scope).Perm (symbol.name :: t.visibleNames scope) := by
  obtain ⟨first, rest, before, after⟩ := layers_insert proper lt symbol
  simp only [visibleNames, before, after, List.flatMap_cons] at fresh ⊢
  have new : symbol.name ∉ first.keys := fun mem => fresh (List.mem_append_left _ mem)
  exact (Catalogue.perm_keys_insert _ new).append_right _

/-- A name that was not visible meets no other. -/
theorem distinct_insert {t : SymbolTable} (proper : t.Proper) {scope : Nat} (lt : scope < t.scopes.size)
    {symbol : Symbol} (fresh : symbol.name ∉ t.visibleNames scope) :
    (t.insert scope symbol).2.Distinct scope ↔ t.Distinct scope := by
  rw [Distinct, (perm_visibleNames_insert proper lt fresh).nodup_iff, List.nodup_cons]
  exact and_iff_right fresh

/-- Seen from a scope, a definition in the scope around it can only meet a name of the scope itself. -/
theorem distinct_insert_outer {t : SymbolTable} (proper : t.Proper) {inner scope : Nat} {s : Scope}
    (found : t.scopes[inner]? = some s) (around : s.parent = some scope) (lt : scope < t.scopes.size)
    {symbol : Symbol} (fresh : symbol.name ∉ t.visibleNames scope) :
    (t.insert scope symbol).2.Distinct inner ↔ symbol.name ∉ s.names.keys ∧ t.Distinct inner := by
  obtain ⟨before, after⟩ := layers_insert_outer proper found around symbol
  have visible : t.visibleNames inner = s.names.keys ++ t.visibleNames scope := by
    rw [visibleNames, before, List.flatMap_cons]
    rfl
  have perm : ((t.insert scope symbol).2.visibleNames inner).Perm
      (symbol.name :: t.visibleNames inner) := by
    rw [visible, visibleNames, after, List.flatMap_cons]
    exact ((perm_visibleNames_insert proper lt fresh).append_left _).trans List.perm_middle
  have hidden : symbol.name ∈ t.visibleNames inner ↔ symbol.name ∈ s.names.keys := by
    rw [visible, List.mem_append]
    exact or_iff_left fresh
  rw [Distinct, perm.nodup_iff, List.nodup_cons, hidden]
  rfl

/-- From one table to another only the given scope got names, none of which was visible before. -/
structure Keeps (t t' : SymbolTable) (scope : Nat) : Prop extends Frame t t' scope where
  distinct : t'.Distinct scope ↔ t.Distinct scope

namespace Keeps

variable {t t' t'' : SymbolTable} {scope inner : Nat}

/-- Flags make no names meet. -/
theorem of_alike (h : Alike t t') (proper : t.Proper) : Keeps t t' scope where
  toFrame := .of_alike h proper
  distinct := by rw [Distinct, Distinct, visibleNames, visibleNames, h.layers_eq]

theorem refl (proper : t.Proper) : Keeps t t scope :=
  of_alike (.refl t) proper

/-- Changes that make no names meet follow one another. -/
theorem trans (h : Keeps t t' scope) (h' : Keeps t' t'' scope) : Keeps t t'' scope where
  toFrame := h.toFrame.trans h'.toFrame
  distinct := h'.distinct.trans h.distinct

/-- What happens in a scope that was added shows in no scope before it. -/
theorem leave (h : Keeps t t' scope) (h' : Frame t' t'' inner) (lt : scope < t.scopes.size)
    (added : t.scopes.size ≤ inner) : Keeps t t'' scope where
  toFrame := h.toFrame.leave h' added
  distinct := by
    have same := h'.layers_eq h.proper (Nat.lt_of_lt_of_le lt h.size_le) (by omega : scope < inner)
    rw [Distinct, visibleNames, same]
    exact h.distinct

end Keeps

/-- An empty layer has no names that could meet others. -/
theorem keeps_newScope {t : SymbolTable} (proper : t.Proper) {parent : Nat} (lt : parent < t.scopes.size) :
    Keeps t (t.newScope parent).2 parent where
  toFrame := frame_newScope proper lt parent
  distinct := by
    have same := (frame_newScope proper lt t.scopes.size).layers_eq proper lt lt
    rw [Distinct, Distinct, visibleNames, visibleNames, same]

/-- A definition of a name that is not found makes no names meet. -/
theorem keeps_insert {t : SymbolTable} (proper : t.Proper) {scope : Nat} (lt : scope < t.scopes.size)
    {symbol : Symbol} (fresh : t.search scope symbol.name = none) :
    Keeps t (t.insert scope symbol).2 scope where
  toFrame := frame_insert proper scope symbol
  distinct := distinct_insert proper lt (search_eq_none_iff.1 fresh)

/-- A table with one empty scope is proper: there is nothing around it and nothing in it. -/
theorem blank_proper : Proper { scopes := #[{}], symbols := #[] } := by
  refine ⟨fun x parent s found around => ?_, fun x s name id found held => ?_⟩
  all_goals
    obtain ⟨lt, rfl⟩ := Array.getElem?_eq_some_iff.1 found
    obtain rfl : x = 0 := Nat.lt_one_iff.1 lt
  · cases around
  · cases held

/-- The table that checking starts with is proper: the names of the types are entered one by one. -/
theorem initial_proper : initial.Proper := by
  have entered : ∀ (ps : List Primitive) (t : SymbolTable), t.Proper →
      (ps.foldl (fun t p => (t.insert global (.forType p.name ⟨p, []⟩)).2) t).Proper := by
    intro ps
    induction ps with
    | nil => exact fun t proper => proper
    | cons p ps ih => exact fun t proper => ih _ (frame_insert proper _ _).proper
  exact entered Primitive.all _ blank_proper

end SymbolTable

/-! ## Checking keeps the other scopes -/

namespace Checker

open SymbolTable (Alike Keeps keeps_insert)

/-- That a variable has been given a value is a flag. -/
theorem alike_markInitialized (c : Checker) (target : Expr) :
    Alike c.table (c.markInitialized target).table := by
  unfold markInitialized
  split
  · exact SymbolTable.alike_modifySymbol _ _ fun _ => rfl
  · exact .refl _

/-- A new scope makes the table larger. -/
theorem lt_size_newScope (c : Checker) (parent : ScopeId) :
    c.table.scopes.size < (c.newScope parent).2.table.scopes.size := by
  simp [newScope, SymbolTable.newScope]

/-- A definition that succeeds enters a name that could not be seen. -/
theorem define_eq_ok_iff {c c' : Checker} {scope : ScopeId} {s : Symbol} {id : SymbolId} :
    c.define scope s = .ok (id, c') ↔ c.table.search scope s.name = none ∧ id = c.table.symbols.size ∧
      c' = { c with table := (c.table.insert scope s).2 } := by
  unfold define SymbolTable.define
  cases c.table.search scope s.name with
  | none =>
    constructor
    · intro h
      cases h
      exact ⟨rfl, rfl, rfl⟩
    · rintro ⟨-, rfl, rfl⟩
      rfl
  | some id => exact ⟨nofun, fun h => nomatch h.1⟩

/-- A definition that succeeds keeps names distinct, since it is refused if the name can be seen. -/
theorem keeps_define {c c' : Checker} {scope : Nat} {s : Symbol} {id : SymbolId}
    (h : c.define scope s = .ok (id, c')) (proper : c.table.Proper) (lt : scope < c.table.scopes.size) :
    Keeps c.table c'.table scope := by
  obtain ⟨fresh, -, rfl⟩ := define_eq_ok_iff.1 h
  exact keeps_insert proper lt fresh

end Checker

open Checker (alike_markInitialized define_eq_ok_iff keeps_define lt_size_newScope)
open SymbolTable (Alike Keeps keeps_newScope)

/-- An accepted expression changes flags only. -/
theorem Expr.Passes.alike {scope : ScopeId} {c c' : Checker} {x x' : Expr} {ty : Ty}
    (h : x.Passes scope c x' ty c') : Alike c.table c'.table := by
  induction h with
  | literal => exact .refl _
  | name _ _ => exact SymbolTable.alike_modifySymbol _ _ fun _ => rfl
  | unary _ _ ih => exact ih
  | binary _ _ _ ih ih' | index _ _ _ ih ih' => exact ih.trans ih'

/-- An accepted expression enters no names. -/
theorem Expr.Passes.keeps {scope : Nat} {c c' : Checker} {x x' : Expr} {ty : Ty}
    (h : x.Passes scope c x' ty c') (proper : c.table.Proper) : Keeps c.table c'.table scope :=
  .of_alike h.alike proper

/-- An accepted initial value changes flags only, as an expression does. -/
theorem Declarator.InitPasses.alike {scope : ScopeId} {ty : Ty} {name : String} {c c' : Checker}
    {init init' : Option Expr} {initialized : Bool}
    (h : Declarator.InitPasses scope ty name c init init' initialized c') : Alike c.table c'.table := by
  cases h with
  | bare => exact .refl _
  | valued hx => exact hx.alike

/-- Accepted declarations enter their names in their own scope, one by one. -/
theorem Declarator.AllPass.keeps {scope : Nat} {ty : Ty} {c c' : Checker} {ds ds' : List Declarator}
    (h : Declarator.AllPass scope ty c ds ds' c') (proper : c.table.Proper)
    (lt : scope < c.table.scopes.size) : Keeps c.table c'.table scope := by
  induction h with
  | nil => exact .refl proper
  | @cons c c₁ _ _ _ _ _ _ _ _ hinit hdefine _ ih =>
    have first : Keeps c.table c₁.table scope := .of_alike hinit.alike proper
    have second := first.trans (keeps_define hdefine first.proper (Nat.lt_of_lt_of_le lt first.size_le))
    exact second.trans (ih second.proper (Nat.lt_of_lt_of_le lt second.size_le))

/-- Accepted parameters enter their names in the scope of the function. -/
theorem Parameter.AllPass.keeps {outer inner : Nat} {c c' : Checker} {ps ps' : List Parameter}
    {tys : List Ty} (h : Parameter.AllPass outer inner c ps ps' tys c') (proper : c.table.Proper)
    (lt : inner < c.table.scopes.size) : Keeps c.table c'.table inner := by
  induction h with
  | nil => exact .refl proper
  | cons _ hdefine _ ih =>
    have first := keeps_define hdefine proper lt
    exact first.trans (ih first.proper (Nat.lt_of_lt_of_le lt first.size_le))

/-- The names of a function's scope are those of its parameters, apart from what was there before. -/
theorem Parameter.AllPass.names {outer inner : Nat} {c c' : Checker} {ps ps' : List Parameter}
    {tys : List Ty} (h : Parameter.AllPass outer inner c ps ps' tys c') {s : Scope}
    (found : c.table.scopes[inner]? = some s) :
    ∃ s', c'.table.scopes[inner]? = some s' ∧ s'.parent = s.parent ∧
      ∀ name, name ∈ s'.names.keys ↔ name ∈ s.names.keys ∨ name ∈ ps.map Parameter.name := by
  induction h generalizing s with
  | nil => exact ⟨s, found, rfl, by simp⟩
  | @cons c _ _ p _ _ ty _ _ _ hdefine _ ih =>
    obtain ⟨fresh, -, rfl⟩ := define_eq_ok_iff.1 hdefine
    have entered := c.table.scopes_insert inner inner (.forParameter p.name ty)
    rw [if_pos rfl, found] at entered
    obtain ⟨s', found', parent, names⟩ := ih entered
    refine ⟨s', found', parent, fun name => (names name).trans ?_⟩
    rw [Catalogue.mem_keys_insert, List.map_cons, List.mem_cons, or_assoc, or_left_comm]
    rfl

mutual

/-- An accepted statement changes its own scope only. By induction on the walk: parts in the same scope
follow one another, and parts in a scope of their own leave it. -/
theorem Stmt.Passes.keeps {scope : Nat} {c c' : Checker} {s s' : Stmt} :
    s.Passes scope c s' c' → c.table.Proper → scope < c.table.scopes.size → Keeps c.table c'.table scope
  | .block hbody, proper, lt => hbody.keeps proper lt
  | .ifThen hcondition hbody, proper, lt | .whileLoop hcondition hbody, proper, lt => by
    have first := hcondition.keeps proper
    exact first.trans (hbody.keeps first.proper (Nat.lt_of_lt_of_le lt first.size_le))
  | .ifElse hcondition hbody hotherwise, proper, lt => by
    have first := hcondition.keeps proper
    have lt₁ := Nat.lt_of_lt_of_le lt first.size_le
    have second := hbody.keeps first.proper lt₁
    have third := hotherwise.keeps second.proper (Nat.lt_of_lt_of_le lt₁ second.size_le)
    exact first.trans (second.trans third)
  | .doWhile hbody hcondition, proper, lt => by
    have first := hbody.keeps proper lt
    exact first.trans (hcondition.keeps first.proper)
  | .forLoop hinit hcondition hstep hbody, proper, lt => by
    have first := hinit.keeps proper lt
    have second := first.trans (hcondition.keeps first.proper)
    have lt₂ := Nat.lt_of_lt_of_le lt second.size_le
    have third := second.trans (hstep.keeps second.proper lt₂)
    have lt₃ := Nat.lt_of_lt_of_le lt third.size_le
    exact third.trans (hbody.keeps third.proper lt₃)
  | .function _ hparameters hdefine hbody, proper, lt => by
    have opened : Keeps c.table (c.newScope scope).2.table scope := keeps_newScope proper lt
    have inner := hparameters.keeps opened.proper (lt_size_newScope c scope)
    have first := opened.leave inner.toFrame lt (Nat.le_refl _)
    have named := keeps_define hdefine first.proper (Nat.lt_of_lt_of_le lt first.size_le)
    have lt₂ := Nat.lt_of_lt_of_le (lt_size_newScope c scope) (Nat.le_trans inner.size_le named.size_le)
    have second := first.trans named
    exact second.leave (hbody.keeps second.proper lt₂).toFrame lt (Nat.le_refl _)
  | .declare _ _ hds, proper, lt => hds.keeps proper lt
  | .assign htarget hvalue _, proper, _ =>
    .of_alike (htarget.alike.trans (hvalue.alike.trans (alike_markInitialized _ _))) proper
  | .eval hvalue, proper, _ | .print hvalue, proper, _ => hvalue.keeps proper
  | .input htarget _ _ _, proper, _ => .of_alike (htarget.alike.trans (alike_markInitialized _ _)) proper

theorem Block.Passes.keeps {parent : Nat} {c c' : Checker} {b b' : Block} :
    b.Passes parent c b' c' → c.table.Proper → parent < c.table.scopes.size → Keeps c.table c'.table parent
  | .intro hbody, proper, lt => by
    have opened : Keeps c.table (c.newScope parent).2.table parent := keeps_newScope proper lt
    have inner := hbody.keeps opened.proper (lt_size_newScope c parent)
    exact opened.leave inner.toFrame lt (Nat.le_refl _)

theorem Block.PassesIn.keeps {scope : Nat} {c c' : Checker} {b b' : Block} :
    b.PassesIn scope c b' c' → c.table.Proper → scope < c.table.scopes.size → Keeps c.table c'.table scope
  | .intro hstatements, proper, lt => hstatements.keeps proper lt

theorem Stmt.AllPass.keeps {scope : Nat} {c c' : Checker} {statements statements' : List Stmt} :
    Stmt.AllPass scope c statements statements' c' → c.table.Proper → scope < c.table.scopes.size →
      Keeps c.table c'.table scope
  | .nil, proper, _ => .refl proper
  | .cons hstatement hrest, proper, lt => by
    have first := hstatement.keeps proper lt
    exact first.trans (hrest.keeps first.proper (Nat.lt_of_lt_of_le lt first.size_le))

end

end MiniC
