import MiniC.Proofs.Acceptance
import MiniC.Proofs.Shape

/-!
# Typed trees

The annotations that checking makes are a typing derivation written into the tree. `Expr.Typed` and
`Stmt.Typed` say what a derivation is, over the types of the symbols alone and without the scopes that
led to them; that checking makes one is `Source.check_valid`.

On the way the symbol table only grows. What it says of a symbol does not change, apart from the flags
that record uses and values: `Symbol.bare` is a symbol without them.
-/

namespace MiniC

/-! ## Symbol tables without their flags -/

/-- A symbol without its flags. -/
def Symbol.bare (s : Symbol) : Symbol :=
  { s with initialized := false, used := false }

namespace SymbolTable

/-- What a table says of a symbol for good. -/
def bare? (t : SymbolTable) (id : SymbolId) : Option Symbol :=
  (t.symbol? id).map Symbol.bare

/-- The type of a symbol. -/
def typeOf? (t : SymbolTable) (id : SymbolId) : Option Ty :=
  (t.bare? id).map Symbol.ty

/-- A later table says of every symbol what the earlier one did. -/
def Grows (t t' : SymbolTable) : Prop :=
  ∀ id s, t.bare? id = some s → t'.bare? id = some s

theorem Grows.refl (t : SymbolTable) : t.Grows t :=
  fun _ _ h => h

theorem Grows.trans {t t' t'' : SymbolTable} (h : t.Grows t') (h' : t'.Grows t'') : t.Grows t'' :=
  fun id s found => h' id s (h id s found)

/-- Types are said for good. -/
theorem Grows.typeOf? {t t' : SymbolTable} (h : t.Grows t') {id : SymbolId} {ty : Ty}
    (found : t.typeOf? id = some ty) : t'.typeOf? id = some ty := by
  obtain ⟨s, hs, rfl⟩ := Option.map_eq_some_iff.1 found
  exact Option.map_eq_some_iff.2 ⟨s, h id s hs, rfl⟩

/-- What is said for good of a symbol is said of a symbol that is there. -/
theorem bare?_eq_some_iff {t : SymbolTable} {id : SymbolId} {b : Symbol} :
    t.bare? id = some b ↔ ∃ s, t.symbol? id = some s ∧ s.bare = b :=
  Option.map_eq_some_iff

/-- Tables that differ in flags only have the same types. -/
theorem typeOf?_eq {t t' : SymbolTable} (same : ∀ id, t'.bare? id = t.bare? id) : t'.typeOf? = t.typeOf? := by
  funext id
  rw [typeOf?, typeOf?, same]

/-- Only symbols of the table are spoken of. -/
theorem lt_size_of_bare? {t : SymbolTable} {id : SymbolId} {s : Symbol} (h : t.bare? id = some s) :
    id < t.symbols.size := by
  obtain ⟨s, hs, -⟩ := bare?_eq_some_iff.1 h
  obtain ⟨bound, -⟩ := Array.getElem?_eq_some_iff.1 hs
  exact bound

/-- Changing flags changes nothing else. -/
theorem bare?_modifySymbol {t : SymbolTable} {id : SymbolId} {f : Symbol → Symbol}
    (h : ∀ s, (f s).bare = s.bare) (other : SymbolId) :
    (t.modifySymbol id f).bare? other = t.bare? other := by
  simp only [bare?, symbol?, modifySymbol, Array.getElem?_modify]
  split
  · simp [Option.map_map, Function.comp_def, h]
  · rfl

/-- A definition adds one symbol, with the next number. -/
theorem bare?_insert (t : SymbolTable) (scope : ScopeId) (s : Symbol) (id : SymbolId) :
    (t.insert scope s).2.bare? id = if id = t.symbols.size then some s.bare else t.bare? id := by
  simp only [bare?, symbol?, insert, Array.getElem?_push]
  split
  · simp
  · rfl

/-- The new number is not taken, so a definition changes no symbol that was there. -/
theorem grows_insert (t : SymbolTable) (scope : ScopeId) (s : Symbol) :
    t.Grows (t.insert scope s).2 := by
  intro id b found
  have bound := lt_size_of_bare? found
  rw [bare?_insert, if_neg (Nat.ne_of_lt bound), found]

theorem bare?_newScope (t : SymbolTable) (parent : ScopeId) (id : SymbolId) :
    (t.newScope parent).2.bare? id = t.bare? id := rfl

end SymbolTable

/-! ## The judgement -/

/-- The annotations of an expression derive that it has the given type. -/
inductive Expr.Typed (types : SymbolId → Option Ty) : Expr → Ty → Prop
  | literal (value : Literal) : Typed types (.literal value (some value.ty)) value.ty
  | name {spelling : String} {id : SymbolId} {ty : Ty} :
    types id = some ty → Typed types (.name spelling (some id) (some ty)) ty
  | unary {op : UnaryOp} {operand : Expr} {ty result : Ty} :
    Typed types operand ty → op.result? ty = some result →
      Typed types (.unary op operand (some result)) result
  | binary {op : BinaryOp} {left right : Expr} {ty ty' result : Ty} :
    Typed types left ty → Typed types right ty' → op.result? ty ty' = some result →
      Typed types (.binary op left right (some result)) result
  | index {base position : Expr} {ty element : Ty} :
    Typed types base ty → Typed types position .int → ty.element? = some element →
      Typed types (.index base position (some element)) element

/-- A derivation is for the type that is written at the top of the tree. -/
theorem Expr.Typed.ty?_eq {types : SymbolId → Option Ty} {x : Expr} {ty : Ty} (h : x.Typed types ty) :
    x.ty? = some ty := by
  cases h <;> rfl

/-- More symbols do no harm to a derivation. -/
theorem Expr.Typed.mono {types types' : SymbolId → Option Ty} {x : Expr} {ty : Ty}
    (h : x.Typed types ty) (le : ∀ id ty, types id = some ty → types' id = some ty) :
    x.Typed types' ty := by
  induction h with
  | literal value => exact .literal value
  | name found => exact .name (le _ _ found)
  | unary _ result ih => exact .unary ih result
  | binary _ _ result ihl ihr => exact .binary ihl ihr result
  | index _ _ element ihb ihp => exact .index ihb ihp element

/-- A declared name has a symbol, and its initial value is of the symbol's type. -/
def Declarator.Typed (types : SymbolId → Option Ty) (d : Declarator) : Prop :=
  ∃ id ty, d.symbol = some id ∧ types id = some ty ∧ ∀ init, d.init = some init → init.Typed types ty

mutual

/-- The annotations of a statement derive that it is well typed. -/
def Stmt.Typed (types : SymbolId → Option Ty) : Stmt → Prop
  | .block body => body.Typed types
  | .ifThen condition body => condition.Typed types .bool ∧ body.Typed types
  | .ifElse condition body otherwise =>
    condition.Typed types .bool ∧ body.Typed types ∧ otherwise.Typed types
  | .whileLoop condition body => condition.Typed types .bool ∧ body.Typed types
  | .doWhile body condition => body.Typed types ∧ condition.Typed types .bool
  | .forLoop init condition step body =>
    init.Typed types ∧ condition.Typed types .bool ∧ step.Typed types ∧ body.Typed types
  | .function _ _ _ body _ => body.Typed types
  | .declare _ declarators => ∀ d ∈ declarators, d.Typed types
  | .assign target value =>
    target.isLvalue ∧ ∃ ty, target.Typed types ty ∧ value.Typed types ty
  | .eval value | .print value => ∃ ty, value.Typed types ty
  | .input target => target.isLvalue ∧ ∃ ty, target.Typed types ty ∧ ty.isUnqualified
  | .breakLoop | .continueLoop | .returnValue _ => False

/-- The annotations of a block derive that it is well typed. -/
def Block.Typed (types : SymbolId → Option Ty) : Block → Prop
  | ⟨statements, _⟩ => Stmt.AllTyped types statements

/-- The annotations of the statements of a block derive that they are well typed. -/
def Stmt.AllTyped (types : SymbolId → Option Ty) : List Stmt → Prop
  | [] => True
  | statement :: rest => statement.Typed types ∧ Stmt.AllTyped types rest

end

/-- More symbols do no harm to the derivation of a declared name. -/
theorem Declarator.Typed.mono {types types' : SymbolId → Option Ty} {d : Declarator}
    (h : d.Typed types) (le : ∀ id ty, types id = some ty → types' id = some ty) :
    d.Typed types' := by
  obtain ⟨id, ty, symbol, found, init⟩ := h
  exact ⟨id, ty, symbol, le _ _ found, fun x hx => (init x hx).mono le⟩

mutual

/-- More symbols do no harm to the derivation of a statement. So the parts of a tree stay typed while the parts after
them are checked. -/
theorem Stmt.Typed.mono {types types' : SymbolId → Option Ty}
    (le : ∀ id ty, types id = some ty → types' id = some ty) :
    {s : Stmt} → s.Typed types → s.Typed types'
  | .block _, h => Block.Typed.mono le h
  | .ifThen _ _, h => ⟨h.1.mono le, Block.Typed.mono le h.2⟩
  | .ifElse _ _ _, h => ⟨h.1.mono le, Block.Typed.mono le h.2.1, Stmt.Typed.mono le h.2.2⟩
  | .whileLoop _ _, h => ⟨h.1.mono le, Block.Typed.mono le h.2⟩
  | .doWhile _ _, h => ⟨Block.Typed.mono le h.1, h.2.mono le⟩
  | .forLoop _ _ _ _, h =>
    ⟨Stmt.Typed.mono le h.1, h.2.1.mono le, Stmt.Typed.mono le h.2.2.1, Block.Typed.mono le h.2.2.2⟩
  | .function _ _ _ _ _, h => Block.Typed.mono le h
  | .declare _ _, h => fun d mem => (h d mem).mono le
  | .assign _ _, ⟨lvalue, ty, target, value⟩ => ⟨lvalue, ty, target.mono le, value.mono le⟩
  | .eval _, ⟨ty, value⟩ => ⟨ty, value.mono le⟩
  | .print _, ⟨ty, value⟩ => ⟨ty, value.mono le⟩
  | .input _, ⟨lvalue, ty, target, plain⟩ => ⟨lvalue, ty, target.mono le, plain⟩
  | .breakLoop, h => h
  | .continueLoop, h => h
  | .returnValue _, h => h

theorem Block.Typed.mono {types types' : SymbolId → Option Ty}
    (le : ∀ id ty, types id = some ty → types' id = some ty) :
    {b : Block} → b.Typed types → b.Typed types'
  | ⟨_, _⟩, h => Stmt.AllTyped.mono le h

theorem Stmt.AllTyped.mono {types types' : SymbolId → Option Ty}
    (le : ∀ id ty, types id = some ty → types' id = some ty) :
    {statements : List Stmt} → Stmt.AllTyped types statements → Stmt.AllTyped types' statements
  | [], _ => trivial
  | _ :: _, h => ⟨Stmt.Typed.mono le h.1, Stmt.AllTyped.mono le h.2⟩

end

/-! ## Declared symbols -/

mutual

/-- The symbols of the names that a statement declares outside functions, in the order in which they get
their storage. -/
def Stmt.declared : Stmt → List SymbolId
  | .block body | .ifThen _ body | .whileLoop _ body | .doWhile body _ => body.declared
  | .ifElse _ body otherwise => body.declared ++ otherwise.declared
  | .forLoop init _ step body => init.declared ++ (body.declared ++ step.declared)
  | .declare _ declarators => declarators.filterMap Declarator.symbol
  | .function .. | .assign .. | .eval _ | .print _ | .input _ | .breakLoop | .continueLoop
  | .returnValue _ => []

/-- The symbols of the names that a block declares. -/
def Block.declared : Block → List SymbolId
  | ⟨statements, _⟩ => Stmt.allDeclared statements

/-- The symbols of the names that statements declare. -/
def Stmt.allDeclared : List Stmt → List SymbolId
  | [] => []
  | statement :: rest => statement.declared ++ Stmt.allDeclared rest

end

/-! ## Checking makes typed trees -/

/-- What checking keeps true of its table: no symbol has storage yet, the names of types stand for
unqualified types, and the arrays among the variables have elements. -/
structure SymbolTable.Sound (t : SymbolTable) : Prop where
  unlabelled : ∀ id s, t.bare? id = some s → s.label = none
  plain : ∀ id s, t.bare? id = some s → s.kind = .typeName → s.ty.qualifiers = []
  positive : ∀ id s, t.bare? id = some s → s.kind = .variable → positiveLengths s.ty.qualifiers

/-- What is true of an accepted part that declares the given symbols: the table grew and is sound, and
the symbols are new, different from each other, and variables. -/
structure Checker.Accepted (c c' : Checker) (declared : List SymbolId) : Prop where
  size_le : c.table.symbols.size ≤ c'.table.symbols.size
  grows : c.table.Grows c'.table
  sound : c'.table.Sound
  fresh : ∀ id ∈ declared, c.table.symbols.size ≤ id
  vars : ∀ id ∈ declared, ∃ s, c'.table.bare? id = some s ∧ s.kind = .variable
  nodup : declared.Nodup

namespace Checker

theorem Accepted.refl {c : Checker} (sound : c.table.Sound) : Accepted c c [] :=
  ⟨Nat.le_refl _, .refl _, sound, by simp, by simp, .nil⟩

/-- One accepted part after another. The symbols of both are different, since those of the second were no symbols yet
when the first was done. -/
theorem Accepted.trans {c c' c'' : Checker} {ids ids' : List SymbolId} (h : Accepted c c' ids)
    (h' : Accepted c' c'' ids') : Accepted c c'' (ids ++ ids') where
  size_le := Nat.le_trans h.size_le h'.size_le
  grows := h.grows.trans h'.grows
  sound := h'.sound
  fresh id mem := by
    rcases List.mem_append.1 mem with mem | mem
    · exact h.fresh id mem
    · exact Nat.le_trans h.size_le (h'.fresh id mem)
  vars id mem := by
    rcases List.mem_append.1 mem with mem | mem
    · obtain ⟨s, found, kind⟩ := h.vars id mem
      exact ⟨s, h'.grows id s found, kind⟩
    · exact h'.vars id mem
  nodup := by
    refine List.nodup_append.2 ⟨h.nodup, h'.nodup, ?_⟩
    rintro a mem b mem' rfl
    obtain ⟨s, found, -⟩ := h.vars a mem
    have low : a < c'.table.symbols.size := SymbolTable.lt_size_of_bare? found
    have high : c'.table.symbols.size ≤ a := h'.fresh a mem'
    exact absurd low (Nat.not_lt.2 high)

/-- The declared symbols may be listed in any order. -/
theorem Accepted.perm {c c' : Checker} {ids ids' : List SymbolId} (h : Accepted c c' ids)
    (perm : ids.Perm ids') : Accepted c c' ids' where
  size_le := h.size_le
  grows := h.grows
  sound := h.sound
  fresh id mem := h.fresh id (perm.mem_iff.2 mem)
  vars id mem := h.vars id (perm.mem_iff.2 mem)
  nodup := perm.nodup h.nodup

/-- A change of flags declares nothing. -/
theorem Accepted.of_bare {c c' : Checker} (sound : c.table.Sound)
    (size : c'.table.symbols.size = c.table.symbols.size)
    (same : ∀ id, c'.table.bare? id = c.table.bare? id) : Accepted c c' [] where
  size_le := Nat.le_of_eq size.symm
  grows id s found := (same id).trans found
  sound :=
    { unlabelled := fun id s found => sound.unlabelled id s ((same id).symm.trans found)
      plain := fun id s found => sound.plain id s ((same id).symm.trans found)
      positive := fun id s found => sound.positive id s ((same id).symm.trans found) }
  fresh := by simp
  vars := by simp
  nodup := .nil

/-- Giving a variable a value declares nothing. -/
theorem accepted_markInitialized {c : Checker} (sound : c.table.Sound) (target : Expr) :
    Accepted c (c.markInitialized target) [] := by
  unfold markInitialized
  split
  · exact .of_bare sound (by simp [SymbolTable.modifySymbol])
      (SymbolTable.bare?_modifySymbol fun _ => rfl)
  · exact .refl sound

/-- Opening a scope declares nothing. -/
theorem accepted_newScope {c : Checker} (sound : c.table.Sound) (parent : ScopeId) :
    Accepted c (c.newScope parent).2 [] :=
  .of_bare sound rfl (SymbolTable.bare?_newScope c.table parent)

/-- A definition that succeeds adds its symbol under the next number. -/
theorem define_eq_ok {c c' : Checker} {scope : ScopeId} {s : Symbol} {id : SymbolId}
    (h : c.define scope s = .ok (id, c')) :
    id = c.table.symbols.size ∧ c' = { c with table := (c.table.insert scope s).2 } := by
  obtain ⟨⟨id', table⟩, hdefine, h⟩ := except_bind_eq_ok.1 h
  cases h
  unfold SymbolTable.define at hdefine
  split at hdefine
  · cases hdefine
  · cases hdefine
    exact ⟨rfl, rfl⟩

/-- Defining a symbol without storage keeps a table sound if the symbol is no worse than the others. -/
theorem accepted_define {c c' : Checker} {scope : ScopeId} {s : Symbol} {id : SymbolId}
    (h : c.define scope s = .ok (id, c')) (sound : c.table.Sound) (unlabelled : s.label = none)
    (plain : s.kind = .typeName → s.ty.qualifiers = [])
    (positive : s.kind = .variable → positiveLengths s.ty.qualifiers) : Accepted c c' [] := by
  obtain ⟨rfl, rfl⟩ := define_eq_ok h
  refine ⟨?_, SymbolTable.grows_insert _ _ _, ⟨?_, ?_, ?_⟩, by simp, by simp, .nil⟩
  · simp [SymbolTable.insert]
  all_goals
    intro id b found
    rw [SymbolTable.bare?_insert] at found
    split at found
    · cases found
      assumption
  · exact sound.unlabelled id b found
  · exact sound.plain id b found
  · exact sound.positive id b found

/-- The definition of a variable declares it. -/
theorem accepted_define_variable {c c' : Checker} {scope : ScopeId} {s : Symbol} {id : SymbolId}
    (h : c.define scope s = .ok (id, c')) (sound : c.table.Sound) (unlabelled : s.label = none)
    (kind : s.kind = .variable) (positive : positiveLengths s.ty.qualifiers) :
    Accepted c c' [id] := by
  have base := accepted_define h sound unlabelled (by simp [kind]) (fun _ => positive)
  obtain ⟨rfl, rfl⟩ := define_eq_ok h
  refine { base with fresh := ?_, vars := ?_, nodup := by simp }
  · intro id mem
    exact Nat.le_of_eq (List.mem_singleton.1 mem).symm
  · intro id mem
    rw [List.mem_singleton.1 mem]
    exact ⟨s.bare, by simp [SymbolTable.bare?_insert], kind⟩

/-- A written type stands for arrays with elements if it is written with such. -/
theorem resolve_positive {c : Checker} {scope : ScopeId} {written : TypeExpr} {ty : Ty}
    (h : c.resolve scope written = .ok ty) (sound : c.table.Sound)
    (positive : positiveLengths written.qualifiers) : positiveLengths ty.qualifiers := by
  unfold resolve at h
  split at h
  · cases h
  · rename_i s found
    split at h
    · rename_i kind
      cases h
      obtain ⟨id, -, hs⟩ := Option.bind_eq_some_iff.1 found
      have plain := sound.plain id s.bare (SymbolTable.bare?_eq_some_iff.2 ⟨s, hs, rfl⟩) kind
      intro length mem
      have empty : s.ty.qualifiers = [] := plain
      simp only [empty, List.append_nil] at mem
      exact positive length mem
    · cases h

end Checker

open Checker (Accepted accepted_define accepted_define_variable accepted_markInitialized accepted_newScope)

/-- An accepted expression is typed over any table, and checking it changes flags only. -/
theorem Expr.Passes.typed {scope : ScopeId} {c c' : Checker} {x x' : Expr} {ty : Ty}
    (h : x.Passes scope c x' ty c') :
    c'.table.symbols.size = c.table.symbols.size ∧ (∀ id, c'.table.bare? id = c.table.bare? id) ∧
      x'.Typed c.table.typeOf? ty := by
  induction h with
  | literal => exact ⟨rfl, fun _ => rfl, .literal _⟩
  | @name c _ _ _ id s _ found =>
    have bare : c.table.bare? id = some s.bare := SymbolTable.bare?_eq_some_iff.2 ⟨s, found, rfl⟩
    exact ⟨by simp [Checker.markUsed, SymbolTable.modifySymbol], SymbolTable.bare?_modifySymbol fun _ => rfl,
      .name (Option.map_eq_some_iff.2 ⟨s.bare, bare, rfl⟩)⟩
  | unary _ result ih =>
    obtain ⟨size, same, typed⟩ := ih
    exact ⟨size, same, .unary typed result⟩
  | binary _ _ result ihl ihr =>
    obtain ⟨size, same, typedLeft⟩ := ihl
    obtain ⟨size', same', typedRight⟩ := ihr
    rw [SymbolTable.typeOf?_eq same] at typedRight
    exact ⟨size'.trans size, fun id => (same' id).trans (same id), .binary typedLeft typedRight result⟩
  | index _ _ element ihb ihp =>
    obtain ⟨size, same, typedBase⟩ := ihb
    obtain ⟨size', same', typedPosition⟩ := ihp
    rw [SymbolTable.typeOf?_eq same] at typedPosition
    exact ⟨size'.trans size, fun id => (same' id).trans (same id), .index typedBase typedPosition element⟩

/-- An accepted expression declares nothing and is typed in the table that it leaves. -/
theorem Expr.Passes.accepted {scope : ScopeId} {c c' : Checker} {x x' : Expr} {ty : Ty}
    (h : x.Passes scope c x' ty c') (sound : c.table.Sound) :
    Accepted c c' [] ∧ x'.Typed c'.table.typeOf? ty := by
  obtain ⟨size, same, typed⟩ := h.typed
  exact ⟨.of_bare sound size same, SymbolTable.typeOf?_eq same ▸ typed⟩

/-- An accepted initial value declares nothing and has the type of what it is for. -/
theorem Declarator.InitPasses.accepted {scope : ScopeId} {ty : Ty} {name : String} {c c' : Checker}
    {init init' : Option Expr} {initialized : Bool}
    (h : Declarator.InitPasses scope ty name c init init' initialized c') (sound : c.table.Sound) :
    Accepted c c' [] ∧ ∀ x, init' = some x → x.Typed c'.table.typeOf? ty := by
  cases h with
  | bare => exact ⟨.of_bare sound rfl fun _ => rfl, by simp⟩
  | valued hx =>
    obtain ⟨accepted, typed⟩ := hx.accepted sound
    refine ⟨accepted, ?_⟩
    rintro x ⟨⟩
    exact typed

/-- Accepted declarations declare their symbols, in order. -/
theorem Declarator.AllPass.accepted {scope : ScopeId} {ty : Ty} (positive : positiveLengths ty.qualifiers)
    {c c' : Checker} {ds ds' : List Declarator} (h : Declarator.AllPass scope ty c ds ds' c')
    (sound : c.table.Sound) :
    Accepted c c' (ds'.filterMap Declarator.symbol) ∧ ∀ d ∈ ds', d.Typed c'.table.typeOf? := by
  induction h with
  | nil => exact ⟨.refl sound, by simp⟩
  | @cons c c₁ c₂ c₃ d ds ds' init initialized id hinit hdefine _ ih =>
    obtain ⟨acceptedInit, typedInit⟩ := hinit.accepted sound
    have acceptedName := accepted_define_variable hdefine acceptedInit.sound rfl rfl positive
    obtain ⟨acceptedRest, typedRest⟩ := ih acceptedName.sound
    refine ⟨(acceptedInit.trans acceptedName).trans acceptedRest, List.forall_mem_cons.2 ⟨?_, typedRest⟩⟩
    obtain ⟨rfl, rfl⟩ := Checker.define_eq_ok hdefine
    have found : (c₁.table.insert scope
        { Symbol.forVariable d.name ty with initialized }).2.typeOf? c₁.table.symbols.size = some ty := by
      simp [SymbolTable.typeOf?, SymbolTable.bare?_insert, Symbol.bare, Symbol.forVariable]
    refine ⟨_, ty, rfl, acceptedRest.grows.typeOf? found, ?_⟩
    intro x hx
    exact (typedInit x hx).mono fun _ _ known =>
      acceptedRest.grows.typeOf? (acceptedName.grows.typeOf? known)

/-- Parameters are no variables, and so are not among what is declared. -/
theorem Parameter.AllPass.accepted {outer inner : ScopeId} {c c' : Checker} {ps ps' : List Parameter}
    {tys : List Ty} (h : Parameter.AllPass outer inner c ps ps' tys c') (sound : c.table.Sound) :
    Accepted c c' [] := by
  induction h with
  | nil => exact .refl sound
  | cons _ hdefine _ ih =>
    have accepted := accepted_define hdefine sound rfl (by simp [Symbol.forParameter])
      (by simp [Symbol.forParameter])
    exact accepted.trans (ih accepted.sound)

mutual

/-- An accepted statement is typed in the table that it leaves, and the symbols that it declares are new
and different variables. By induction on the walk; the parts of a node are typed in the table after them,
and stay typed while the table grows. -/
theorem Stmt.Passes.accepted {scope : ScopeId} {c c' : Checker} {s s' : Stmt} :
    s.Passes scope c s' c' → s.Shaped → c.table.Sound →
      Accepted c c' s'.declared ∧ s'.Typed c'.table.typeOf?
  | .block hbody, shaped, sound => hbody.accepted shaped sound
  | .ifThen hcondition hbody, shaped, sound | .whileLoop hcondition hbody, shaped, sound => by
    obtain ⟨acceptedC, typedC⟩ := hcondition.accepted sound
    obtain ⟨acceptedB, typedB⟩ := hbody.accepted shaped acceptedC.sound
    exact ⟨acceptedC.trans acceptedB, typedC.mono fun _ _ => acceptedB.grows.typeOf?, typedB⟩
  | .ifElse hcondition hbody hotherwise, shaped, sound => by
    obtain ⟨acceptedC, typedC⟩ := hcondition.accepted sound
    obtain ⟨acceptedB, typedB⟩ := hbody.accepted shaped.1 acceptedC.sound
    obtain ⟨acceptedO, typedO⟩ := hotherwise.accepted shaped.2 acceptedB.sound
    have later := acceptedB.grows.trans acceptedO.grows
    exact ⟨acceptedC.trans (acceptedB.trans acceptedO), typedC.mono fun _ _ => later.typeOf?,
      typedB.mono fun _ _ => acceptedO.grows.typeOf?, typedO⟩
  | .doWhile hbody hcondition, shaped, sound => by
    obtain ⟨acceptedB, typedB⟩ := hbody.accepted shaped sound
    obtain ⟨acceptedC, typedC⟩ := hcondition.accepted acceptedB.sound
    have accepted := acceptedB.trans acceptedC
    rw [List.append_nil] at accepted
    exact ⟨accepted, typedB.mono fun _ _ => acceptedC.grows.typeOf?, typedC⟩
  | .forLoop hinit hcondition hstep hbody, shaped, sound => by
    obtain ⟨⟨_, shapedI⟩, isAssign, shapedB⟩ := shaped
    obtain ⟨acceptedI, typedI⟩ := hinit.accepted shapedI sound
    obtain ⟨acceptedC, typedC⟩ := hcondition.accepted acceptedI.sound
    obtain ⟨acceptedS, typedS⟩ := hstep.accepted isAssign.shaped acceptedC.sound
    obtain ⟨acceptedB, typedB⟩ := hbody.accepted shapedB acceptedS.sound
    have later := acceptedS.grows.trans acceptedB.grows
    have accepted := acceptedI.trans (acceptedC.trans (acceptedS.trans acceptedB))
    rw [List.nil_append] at accepted
    refine ⟨accepted.perm ?_, ?_, ?_, ?_, typedB⟩
    · simp only [Stmt.declared]
      exact List.perm_append_comm.append_left _
    · exact typedI.mono fun _ _ known => later.typeOf? (acceptedC.grows.typeOf? known)
    · exact typedC.mono fun _ _ => later.typeOf?
    · exact typedS.mono fun _ _ => acceptedB.grows.typeOf?
  | .function _ hparameters hdefine hbody, shaped, sound => by
    have acceptedN := accepted_newScope sound scope
    have acceptedP := hparameters.accepted acceptedN.sound
    have acceptedF := accepted_define hdefine acceptedP.sound rfl (by simp [Symbol.forFunction])
      (by simp [Symbol.forFunction])
    obtain ⟨acceptedB, typedB⟩ := hbody.accepted shaped acceptedF.sound
    have before := (acceptedN.trans acceptedP).trans acceptedF
    exact ⟨{ before.trans acceptedB with
      fresh := by simp [Stmt.declared], vars := by simp [Stmt.declared]
      nodup := .nil }, typedB⟩
  | .declare resolved _ hds, positive, sound => hds.accepted (Checker.resolve_positive resolved sound positive) sound
  | .assign htarget hvalue lvalue, _, sound => by
    obtain ⟨acceptedT, typedT⟩ := htarget.accepted sound
    obtain ⟨acceptedV, typedV⟩ := hvalue.accepted acceptedT.sound
    have marked := accepted_markInitialized acceptedV.sound
    exact ⟨(acceptedT.trans acceptedV).trans (marked _), lvalue, _,
      typedT.mono fun _ _ known => (marked _).grows.typeOf? (acceptedV.grows.typeOf? known),
      typedV.mono fun _ _ => (marked _).grows.typeOf?⟩
  | .eval hvalue, _, sound | .print hvalue, _, sound => by
    obtain ⟨accepted, typed⟩ := hvalue.accepted sound
    exact ⟨accepted, _, typed⟩
  | .input htarget _ plain lvalue, _, sound => by
    obtain ⟨accepted, typed⟩ := htarget.accepted sound
    have marked := accepted_markInitialized accepted.sound
    exact ⟨accepted.trans (marked _), lvalue, _, typed.mono fun _ _ => (marked _).grows.typeOf?, plain⟩

theorem Block.Passes.accepted {parent : ScopeId} {c c' : Checker} {b b' : Block} :
    b.Passes parent c b' c' → b.Shaped → c.table.Sound →
      Accepted c c' b'.declared ∧ b'.Typed c'.table.typeOf?
  | .intro hbody, shaped, sound => by
    have opened := accepted_newScope sound parent
    obtain ⟨accepted, typed⟩ := hbody.accepted shaped opened.sound
    exact ⟨opened.trans accepted, typed⟩

theorem Block.PassesIn.accepted {scope : ScopeId} {c c' : Checker} {b b' : Block} :
    b.PassesIn scope c b' c' → b.Shaped → c.table.Sound →
      Accepted c c' b'.declared ∧ b'.Typed c'.table.typeOf?
  | .intro hstatements, shaped, sound => hstatements.accepted shaped sound

theorem Stmt.AllPass.accepted {scope : ScopeId} {c c' : Checker} {statements statements' : List Stmt} :
    Stmt.AllPass scope c statements statements' c' → Stmt.AllShaped statements → c.table.Sound →
      Accepted c c' (Stmt.allDeclared statements') ∧ Stmt.AllTyped c'.table.typeOf? statements'
  | .nil, _, sound => ⟨.refl sound, trivial⟩
  | .cons hstatement hrest, shaped, sound => by
    obtain ⟨acceptedS, typedS⟩ := hstatement.accepted shaped.1 sound
    obtain ⟨acceptedR, typedR⟩ := hrest.accepted shaped.2 acceptedS.sound
    exact ⟨acceptedS.trans acceptedR, typedS.mono fun _ _ => acceptedR.grows.typeOf?, typedR⟩

end

/-- An expression that the checker accepts is typed, and only flags have changed. -/
theorem Checker.checkExpr_typed {scope : ScopeId} {x x' : Expr} {c c' : Checker} {ty : Ty}
    (h : checkExpr scope x c = .accept x' c' ty) :
    c'.table.symbols.size = c.table.symbols.size ∧ (∀ id, c'.table.bare? id = c.table.bare? id) ∧
      x'.Typed c.table.typeOf? ty :=
  (checkExpr_eq_accept.1 h).typed

/-- Checking starts with a sound table: there are only the names of the types, which are unqualified. -/
theorem SymbolTable.initial_sound : SymbolTable.initial.Sound := by
  have entries : ∀ id s, SymbolTable.initial.bare? id = some s →
      s.label = none ∧ s.kind = .typeName ∧ s.ty.qualifiers = [] := by
    intro id s found
    have bound := lt_size_of_bare? found
    have six : SymbolTable.initial.symbols.size = 6 := rfl
    rw [six] at bound
    match id, bound with
    | 0, _ | 1, _ | 2, _ | 3, _ | 4, _ | 5, _ =>
      cases found
      exact ⟨rfl, rfl, rfl⟩
  refine ⟨fun id s found => (entries id s found).1, fun id s found _ => (entries id s found).2.2, ?_⟩
  intro id s found kind
  rw [(entries id s found).2.1] at kind
  cases kind

/-- What is true of a checked source: its tree is typed over the types of its table, no symbol has
storage yet, the arrays among the variables have elements, and every name that is declared has a
variable of its own. -/
structure CheckedSource.Valid (checked : CheckedSource) : Prop where
  typed : checked.tree.Typed checked.table.typeOf?
  sound : checked.table.Sound
  nodup : checked.tree.declared.Nodup
  vars : ∀ id ∈ checked.tree.declared,
    ∃ s, checked.table.bare? id = some s ∧ s.kind = .variable

/-- A checked source comes from a tree that was read and accepted. -/
theorem Source.check_eq_ok {source : String} {options : Options} {checked : CheckedSource}
    (h : Source.check source options = .ok checked) :
    ∃ (tree : Block) (c : Checker), Source.parse source (!options.stripComments) = .ok tree ∧
      tree.Shaped ∧ tree.check = .accept checked.tree c () ∧ checked.table = c.table := by
  obtain ⟨tree, hparse, h⟩ := except_bind_eq_ok.1 h
  have shaped := Source.parse_shaped hparse
  cases hcheck : tree.check with
  | mk tree' c outcome =>
    cases outcome with
    | error cause =>
      simp only [hcheck] at h
      cases h
    | ok _ =>
      simp only [hcheck] at h
      cases h
      exact ⟨tree, c, hparse, shaped, hcheck, rfl⟩

/-- Checking makes typed trees. -/
theorem Source.check_valid {source : String} {options : Options} {checked : CheckedSource}
    (h : Source.check source options = .ok checked) : checked.Valid := by
  obtain ⟨tree, c, -, shaped, hcheck, table⟩ := Source.check_eq_ok h
  obtain ⟨accepted, typed⟩ :=
    (Checker.checkBlock_eq_accept.1 hcheck).accepted shaped SymbolTable.initial_sound
  rw [← table] at typed
  exact ⟨typed, table ▸ accepted.sound, accepted.nodup, table ▸ accepted.vars⟩

end MiniC
