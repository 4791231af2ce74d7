import Mathlib.Logic.ExistsUnique
import MiniC.Proofs.Layers

/-!
# Tables and their bindings

A table is built by two operations, in any order: a scope is opened inside another one, and a symbol is defined in a
scope. `SymbolTable.Coherent` is what every table has that is built so: the way outwards from a scope leads to older
scopes and ends at the outermost one, names are bound to symbols of that name, and every symbol is bound in one scope.

A definition may be made in a scope that other scopes were opened in before. It is then found from all of those that
can see as far as that scope without meeting the name (`SymbolTable.Exposed`), and no other search notices it
(`search_insert_of_exposed`, `search_insert_of_not_exposed`). `SymbolTable.built_coherent` puts this together.
-/

namespace MiniC.SymbolTable

/-! ## Operations -/

/-- What can be done to a table. -/
inductive Operation where
  /-- Opens a scope inside another one. -/
  | newScope (parent : ScopeId)
  /-- Defines a symbol in a scope. -/
  | define (scope : ScopeId) (symbol : Symbol)

/-- The scope that an operation is carried out in. -/
def Operation.scope : Operation → ScopeId
  | .newScope parent => parent
  | .define scope _ => scope

/-- Carries an operation out. The answer is the number of the new scope or symbol, or the reason why there is none. -/
def perform (t : SymbolTable) : Operation → Except CheckError Nat × SymbolTable
  | .newScope parent => (.ok (t.newScope parent).1, (t.newScope parent).2)
  | .define scope symbol =>
    match t.define scope symbol with
    | .error e => (.error e, t)
    | .ok (id, t') => (.ok id, t')

/-- Tables that are built from the initial one by operations in scopes that exist. -/
inductive Built : SymbolTable → Prop
  | initial : Built .initial
  | perform {t : SymbolTable} {op : Operation} :
    Built t → op.scope < t.scopes.size → Built (t.perform op).2

/-! ## Bindings -/

/-- The symbol that a name stands for in a scope itself. -/
def bound? (t : SymbolTable) (scope : ScopeId) (name : String) : Option SymbolId :=
  t.scopes[scope]?.bind fun s => s.names.find? name

/-- Names are bound in scopes that exist. -/
theorem lt_size_of_bound? {t : SymbolTable} {scope : ScopeId} {name : String} {id : SymbolId}
    (h : t.bound? scope name = some id) : scope < t.scopes.size := by
  obtain ⟨s, found, -⟩ := Option.bind_eq_some_iff.1 h
  exact (Array.getElem?_eq_some_iff.1 found).1

/-- Only scopes that exist lie in others. -/
theorem lt_size_of_parent? {t : SymbolTable} {scope parent : ScopeId} (h : t.parent? scope = some parent) :
    scope < t.scopes.size := by
  obtain ⟨s, found, -⟩ := Option.bind_eq_some_iff.1 h
  exact (Array.getElem?_eq_some_iff.1 found).1

/-- A definition opens no scope. -/
theorem size_insert (t : SymbolTable) (scope : ScopeId) (symbol : Symbol) :
    (t.insert scope symbol).2.scopes.size = t.scopes.size := by
  simp [insert]

/-- A new scope binds nothing, and changes no binding. -/
theorem bound?_newScope (t : SymbolTable) (parent x : ScopeId) (name : String) :
    (t.newScope parent).2.bound? x name = t.bound? x name := by
  unfold bound?
  rw [scopes_newScope]
  split
  · rename_i new
    rw [new, Array.getElem?_eq_none (Nat.le_refl _)]
    rfl
  · rfl

/-- A new scope lies in the one it is opened in. -/
theorem parent?_newScope (t : SymbolTable) (parent x : ScopeId) :
    (t.newScope parent).2.parent? x = if x = t.scopes.size then some parent else t.parent? x := by
  unfold parent?
  rw [scopes_newScope]
  split <;> rfl

/-- A definition binds its name to the new symbol, in its scope and if that exists. All other bindings stay. -/
theorem bound?_insert (t : SymbolTable) (scope : ScopeId) (symbol : Symbol) (x : ScopeId) (name : String) :
    (t.insert scope symbol).2.bound? x name =
      if x = scope ∧ name = symbol.name ∧ x < t.scopes.size then some t.symbols.size
      else t.bound? x name := by
  unfold bound?
  rw [scopes_insert]
  by_cases here : scope = x
  · subst here
    by_cases lt : scope < t.scopes.size
    · simp [lt, Catalogue.find?_insert]
    · simp [lt]
  · simp [here, Ne.symm here]

/-- A definition moves no scope. -/
theorem parent?_insert (t : SymbolTable) (scope : ScopeId) (symbol : Symbol) (x : ScopeId) :
    (t.insert scope symbol).2.parent? x = t.parent? x := by
  unfold parent?
  rw [scopes_insert]
  split
  · cases t.scopes[x]? <;> rfl
  · rfl

/-- A definition adds one symbol, under the next number. -/
theorem symbol?_insert (t : SymbolTable) (scope : ScopeId) (symbol : Symbol) (id : SymbolId) :
    (t.insert scope symbol).2.symbol? id = if id = t.symbols.size then some symbol else t.symbol? id := by
  simp only [symbol?, insert, Array.getElem?_push]

/-- Every name is bound to a symbol of that name. -/
def Named (t : SymbolTable) : Prop :=
  ∀ x name id, t.bound? x name = some id → ∃ s, t.symbol? id = some s ∧ s.name = name

/-- Names are bound to symbols that exist. -/
theorem Named.lt_size {t : SymbolTable} (named : t.Named) {x : ScopeId} {name : String} {id : SymbolId}
    (h : t.bound? x name = some id) : id < t.symbols.size := by
  obtain ⟨s, found, -⟩ := named x name id h
  exact (Array.getElem?_eq_some_iff.1 found).1

/-- To open a scope binds no names. -/
theorem Named.newScope {t : SymbolTable} (named : t.Named) (parent : ScopeId) :
    (t.newScope parent).2.Named := by
  intro x name id h
  rw [bound?_newScope] at h
  exact named x name id h

/-- The new symbol is bound under its own name. -/
theorem Named.insert {t : SymbolTable} (named : t.Named) (scope : ScopeId) (symbol : Symbol) :
    (t.insert scope symbol).2.Named := by
  intro x name id h
  rw [bound?_insert] at h
  rw [symbol?_insert]
  split at h
  · rename_i new
    cases h
    exact ⟨symbol, if_pos rfl, new.2.1.symm⟩
  · have old := named.lt_size h
    rw [if_neg (Nat.ne_of_lt old)]
    exact named x name id h

/-- What is true of every table that is built by operations. -/
structure Coherent (t : SymbolTable) : Prop where
  outermost : t.parent? global = none
  /-- Every other scope lies in an older one. -/
  inside : ∀ x, x ≠ global → x < t.scopes.size → ∃ parent, t.parent? x = some parent ∧ parent < x
  named : t.Named
  /-- Every symbol is bound in one scope. -/
  bound : ∀ id < t.symbols.size, ∃! x, ∃ name, t.bound? x name = some id

namespace Coherent

variable {t : SymbolTable}

/-- A scope lies in an older one. -/
theorem parent?_lt (h : t.Coherent) {x parent : ScopeId} (found : t.parent? x = some parent) : parent < x := by
  have inner : x ≠ global := by
    rintro rfl
    cases h.outermost.symm.trans found
  obtain ⟨parent', found', lt⟩ := h.inside x inner (lt_size_of_parent? found)
  cases found.symm.trans found'
  exact lt

/-- A coherent table is nested, which is what searches need to come to an end. -/
theorem nested (h : t.Coherent) : t.Nested := by
  intro x parent s found around
  exact h.parent?_lt (by simp [parent?, found, around])

/-- To open a scope in one that exists keeps a table coherent: the new scope is younger than all. -/
theorem newScope (h : t.Coherent) {parent : ScopeId} (lt : parent < t.scopes.size) :
    (t.newScope parent).2.Coherent where
  outermost := by
    have old : global ≠ t.scopes.size := Nat.ne_of_lt (Nat.lt_of_le_of_lt (Nat.zero_le _) lt)
    rw [parent?_newScope, if_neg old]
    exact h.outermost
  inside x inner exists' := by
    rw [parent?_newScope]
    by_cases new : x = t.scopes.size
    · exact ⟨parent, if_pos new, new ▸ lt⟩
    · have size : (t.newScope parent).2.scopes.size = t.scopes.size + 1 := by simp [SymbolTable.newScope]
      rw [size] at exists'
      rw [if_neg new]
      exact h.inside x inner (Nat.lt_of_le_of_ne (Nat.le_of_lt_succ exists') new)
  named := h.named.newScope parent
  bound id old := by
    simp only [bound?_newScope]
    exact h.bound id old

/-- A definition in a scope that does not bind the name yet. -/
theorem insert (h : t.Coherent) {scope : ScopeId} (lt : scope < t.scopes.size) {symbol : Symbol}
    (fresh : t.bound? scope symbol.name = none) : (t.insert scope symbol).2.Coherent where
  outermost := (parent?_insert ..).trans h.outermost
  inside x inner exists' := by
    rw [parent?_insert]
    exact h.inside x inner (size_insert t scope symbol ▸ exists')
  named := h.named.insert scope symbol
  bound id small := by
    have size : (t.insert scope symbol).2.symbols.size = t.symbols.size + 1 := by simp [SymbolTable.insert]
    simp only [bound?_insert]
    by_cases new : id = t.symbols.size
    · refine ⟨scope, ⟨symbol.name, by simp [lt, new]⟩, ?_⟩
      rintro x ⟨name, found⟩
      split at found
      · rename_i here
        exact here.1
      · exact absurd new (Nat.ne_of_lt (h.named.lt_size found))
    · obtain ⟨x, ⟨name, found⟩, only⟩ := h.bound id (by omega)
      refine ⟨x, ⟨name, ?_⟩, ?_⟩
      · -- The old binding is not the one that is made: that name was not bound there.
        rw [if_neg, found]
        rintro ⟨rfl, rfl, -⟩
        cases fresh.symm.trans found
      · rintro y ⟨name', found'⟩
        split at found'
        · cases found'
          exact absurd rfl new
        · exact only y ⟨name', found'⟩

end Coherent

/-- The initial table is coherent: one scope, and the names of the types in it. -/
theorem initial_coherent : initial.Coherent := by
  have bindings : ∀ x name id, initial.bound? x name = some id →
      x = 0 ∧ (name, id) ∈ (Primitive.all.map Primitive.name).zip [0, 1, 2, 3, 4, 5] := by
    intro x name id h
    obtain rfl : x = 0 := Nat.lt_one_iff.1 (lt_size_of_bound? h)
    refine ⟨rfl, ?_⟩
    obtain ⟨s, found, held⟩ := Option.bind_eq_some_iff.1 h
    cases found
    have entry := (Catalogue.find?_eq_some_iff _).1 held
    revert entry
    generalize (name, id) = e
    revert e
    decide
  refine ⟨rfl, fun x inner lt => absurd (Nat.lt_one_iff.1 lt) inner, ?_, ?_⟩
  · intro x name id h
    obtain ⟨-, mem⟩ := bindings x name id h
    simp only [Primitive.all, Primitive.name, List.map_cons, List.map_nil, List.zip_cons_cons, List.zip_nil_left,
      List.mem_cons, Prod.mk.injEq, List.not_mem_nil, or_false] at mem
    rcases mem with ⟨rfl, rfl⟩ | ⟨rfl, rfl⟩ | ⟨rfl, rfl⟩ | ⟨rfl, rfl⟩ | ⟨rfl, rfl⟩ | ⟨rfl, rfl⟩
    all_goals exact ⟨_, rfl, rfl⟩
  · intro id lt
    refine ⟨0, ?_, fun x ⟨name, h⟩ => (bindings x name id h).1⟩
    match id, lt with
    | 0, _ => exact ⟨"int", rfl⟩
    | 1, _ => exact ⟨"float", rfl⟩
    | 2, _ => exact ⟨"string", rfl⟩
    | 3, _ => exact ⟨"char", rfl⟩
    | 4, _ => exact ⟨"bool", rfl⟩
    | 5, _ => exact ⟨"void", rfl⟩

/-! ## Searches -/

/-- The scopes from a scope outwards, the scope itself first. -/
inductive Chain (t : SymbolTable) : ScopeId → List ScopeId → Prop
  | outermost {scope : ScopeId} : scope < t.scopes.size → t.parent? scope = none → Chain t scope [scope]
  | inside {scope parent : ScopeId} {around : List ScopeId} :
    t.parent? scope = some parent → Chain t parent around → Chain t scope (scope :: around)

/-- A name that is bound in `target` is what a search from `x` finds first: `target` is on the way outwards, and no
scope before it binds the name. -/
def Exposed (t : SymbolTable) (name : String) (target x : ScopeId) : Prop :=
  ∃ nearer farther, t.Chain x (nearer ++ target :: farther) ∧ ∀ y ∈ nearer, t.bound? y name = none

namespace Chain

variable {t : SymbolTable} {x : ScopeId} {chain chain' : List ScopeId}

/-- There is one way outwards. -/
theorem unique (h : t.Chain x chain) (h' : t.Chain x chain') : chain = chain' := by
  induction h generalizing chain' with
  | outermost _ last =>
    cases h' with
    | outermost => rfl
    | inside parent => cases last.symm.trans parent
  | inside parent _ ih =>
    cases h' with
    | outermost _ last => cases last.symm.trans parent
    | inside parent' around =>
      cases parent.symm.trans parent'
      rw [ih around]

/-- On the way outwards scopes get older, so no scope is passed twice. -/
theorem pairwise (h : t.Chain x chain) (coherent : t.Coherent) :
    chain.Pairwise (fun a b => b < a) ∧ ∀ y ∈ chain, y ≤ x := by
  induction h with
  | outermost => exact ⟨List.pairwise_singleton _ _, by simp⟩
  | @inside scope parent around found _ ih =>
    have below : ∀ y ∈ around, y < scope := fun y mem =>
      Nat.lt_of_le_of_lt (ih.2 y mem) (coherent.parent?_lt found)
    exact ⟨List.pairwise_cons.2 ⟨below, ih.1⟩,
      List.forall_mem_cons.2 ⟨Nat.le_refl _, fun y mem => Nat.le_of_lt (below y mem)⟩⟩

/-- A search goes through the scopes on the way outwards. -/
theorem search_eq (h : t.Chain x chain) (coherent : t.Coherent) (name : String) :
    t.search x name = chain.findSome? (t.bound? · name) := by
  induction h with
  | @outermost scope lt last =>
    have found : t.scopes[scope]? = some t.scopes[scope] := Array.getElem?_eq_getElem lt
    have parent : t.scopes[scope].parent = none := by simpa [parent?, found] using last
    rw [SymbolTable.search_eq, layers_eq_single found parent]
    simp [bound?, found]
  | @inside scope parent around last _ ih =>
    obtain ⟨s, found, parent_eq⟩ := Option.bind_eq_some_iff.1 last
    rw [SymbolTable.search_eq, layers_eq_cons coherent.nested found parent_eq, List.findSome?_cons,
      ← SymbolTable.search_eq, ih, List.findSome?_cons]
    simp [bound?, found]

/-- A definition changes no way outwards. -/
theorem insert (h : t.Chain x chain) (scope : ScopeId) (symbol : Symbol) :
    (t.insert scope symbol).2.Chain x chain := by
  induction h with
  | outermost lt last =>
    exact .outermost (size_insert t scope symbol ▸ lt) ((parent?_insert ..).trans last)
  | inside parent _ ih => exact .inside ((parent?_insert ..).trans parent) ih

end Chain

/-- Every way outwards comes to an end. -/
theorem Coherent.exists_chain {t : SymbolTable} (h : t.Coherent) {x : ScopeId} (lt : x < t.scopes.size) :
    ∃ chain, t.Chain x chain := by
  induction x using Nat.strongRecOn with
  | ind x ih =>
    by_cases outermost : x = global
    · exact ⟨[x], .outermost lt (outermost ▸ h.outermost)⟩
    · obtain ⟨parent, found, older⟩ := h.inside x outermost lt
      obtain ⟨chain, around⟩ := ih parent older (Nat.lt_trans older lt)
      exact ⟨x :: chain, .inside found around⟩

/-- From a scope that does not exist nothing is found. -/
theorem search_of_size_le {t : SymbolTable} {x : ScopeId} (le : t.scopes.size ≤ x) (name : String) :
    t.search x name = none := by
  unfold search
  cases t.scopes.size with
  | zero => rfl
  | succ bound =>
    rw [searchWithin, Array.getElem?_eq_none le]

/-- A search through a list depends on what is found at its members only. -/
theorem findSome?_congr {α β : Type} {f g : α → Option β} {items : List α} (same : ∀ a ∈ items, f a = g a) :
    items.findSome? f = items.findSome? g := by
  induction items with
  | nil => rfl
  | cons a rest ih =>
    obtain ⟨first, later⟩ := List.forall_mem_cons.1 same
    rw [List.findSome?_cons, List.findSome?_cons, first, ih later]

section Definitions

variable {t : SymbolTable} {scope : ScopeId} {symbol : Symbol} (h : t.Coherent)
  (lt : scope < t.scopes.size) (fresh : t.search scope symbol.name = none)

include h lt fresh

/-- A name that a search from a scope does not find is not bound in this scope. -/
theorem bound?_of_fresh : t.bound? scope symbol.name = none := by
  obtain ⟨chain, outwards⟩ := h.exists_chain lt
  rw [outwards.search_eq h, List.findSome?_eq_none_iff] at fresh
  cases outwards with
  | outermost => exact fresh scope (.head _)
  | inside => exact fresh scope (.head _)

/-- A definition is found from every scope that it is exposed to. -/
theorem search_insert_of_exposed {x : ScopeId} (exposed : t.Exposed symbol.name scope x) :
    (t.insert scope symbol).2.search x symbol.name = some t.symbols.size := by
  obtain ⟨nearer, farther, outwards, unbound⟩ := exposed
  have coherent := h.insert lt (bound?_of_fresh h lt fresh)
  have before : scope ∉ nearer := by
    intro mem
    have apart := (List.pairwise_append.1 (outwards.pairwise h).1).2.2
    exact Nat.lt_irrefl scope (apart scope mem scope (.head _))
  have passed : nearer.findSome? ((t.insert scope symbol).2.bound? · symbol.name) = none := by
    refine List.findSome?_eq_none_iff.2 fun y mem => ?_
    rw [bound?_insert, if_neg]
    · exact unbound y mem
    · rintro ⟨rfl, -⟩
      exact before mem
  rw [(outwards.insert scope symbol).search_eq coherent, List.findSome?_append, passed, List.findSome?_cons,
    bound?_insert, if_pos ⟨rfl, rfl, lt⟩]
  rfl

/-- No other search notices a definition. -/
theorem search_insert_of_not_exposed {x : ScopeId} {name : String}
    (hidden : ¬ (name = symbol.name ∧ t.Exposed name scope x)) :
    (t.insert scope symbol).2.search x name = t.search x name := by
  by_cases exists' : x < t.scopes.size
  · obtain ⟨chain, outwards⟩ := h.exists_chain exists'
    have coherent := h.insert lt (bound?_of_fresh h lt fresh)
    rw [(outwards.insert scope symbol).search_eq coherent, outwards.search_eq h]
    -- The bindings are the same but for the one that was made.
    have same : ∀ y, ¬ (y = scope ∧ name = symbol.name) →
        (t.insert scope symbol).2.bound? y name = t.bound? y name := by
      intro y other
      rw [bound?_insert, if_neg fun here => other ⟨here.1, here.2.1⟩]
    by_cases passes : name = symbol.name ∧ scope ∈ chain
    · obtain ⟨rfl, mem⟩ := passes
      obtain ⟨nearer, farther, rfl⟩ := List.append_of_mem mem
      have apart := (List.pairwise_append.1 (outwards.pairwise h).1).2.2
      have agree : nearer.findSome? ((t.insert scope symbol).2.bound? · symbol.name) =
          nearer.findSome? (t.bound? · symbol.name) := by
        refine findSome?_congr fun y mem => same y fun here => ?_
        exact Nat.lt_irrefl scope (apart scope (here.1 ▸ mem) scope (.head _))
      -- Not being exposed, the definition lies behind a scope that binds the name.
      cases met : nearer.findSome? (t.bound? · symbol.name) with
      | none =>
        exact absurd ⟨rfl, nearer, farther, outwards, List.findSome?_eq_none_iff.1 met⟩ hidden
      | some id => rw [List.findSome?_append, List.findSome?_append, agree, met, Option.some_or, Option.some_or]
    · refine findSome?_congr fun y mem => same y ?_
      rintro ⟨rfl, rfl⟩
      exact passes ⟨rfl, mem⟩
  · have le := Nat.le_of_not_lt exists'
    rw [search_of_size_le le, search_of_size_le (size_insert t scope symbol ▸ le)]

end Definitions

/-! ## Built tables -/

/-- A definition is made exactly if its name cannot be seen. -/
theorem define_eq_ok_iff {t t' : SymbolTable} {scope : ScopeId} {symbol : Symbol} {id : SymbolId} :
    t.define scope symbol = .ok (id, t') ↔
      t.search scope symbol.name = none ∧ (id, t') = t.insert scope symbol := by
  unfold define
  cases t.search scope symbol.name with
  | none => simp [eq_comm]
  | some other => simp

/-- A definition is refused exactly if its name can be seen, and for no other reason. -/
theorem define_eq_error_iff {t : SymbolTable} {scope : ScopeId} {symbol : Symbol} {e : CheckError} :
    t.define scope symbol = .error e ↔
      (t.search scope symbol.name).isSome ∧ e = .duplicateSymbol symbol.name := by
  unfold define
  cases t.search scope symbol.name with
  | none => simp
  | some other => simp [eq_comm]

/-- One operation keeps a table coherent. -/
theorem Coherent.perform {t : SymbolTable} (h : t.Coherent) {op : Operation} (lt : op.scope < t.scopes.size) :
    (t.perform op).2.Coherent := by
  cases op with
  | newScope parent => exact h.newScope lt
  | define scope symbol =>
    simp only [SymbolTable.perform]
    split
    · exact h
    · rename_i defined
      obtain ⟨fresh, inserted⟩ := define_eq_ok_iff.1 defined
      have table := congrArg Prod.snd inserted
      exact table ▸ h.insert lt (bound?_of_fresh h lt fresh)

/-- By induction on the operations. -/
theorem Built.coherent {t : SymbolTable} (h : t.Built) : t.Coherent := by
  induction h with
  | initial => exact initial_coherent
  | perform _ lt ih => exact ih.perform lt

/-- A definition that is made leaves the table that has it. -/
theorem perform_define_eq_ok {t t' : SymbolTable} {scope : ScopeId} {symbol : Symbol} {id : SymbolId}
    (h : t.perform (.define scope symbol) = (.ok id, t')) :
    t.search scope symbol.name = none ∧ (id, t') = t.insert scope symbol := by
  simp only [perform] at h
  split at h
  · cases h
  · rename_i defined
    cases h
    exact define_eq_ok_iff.1 defined

/-- A definition that is refused leaves the table as it was. -/
theorem perform_define_eq_error_iff {t t' : SymbolTable} {scope : ScopeId} {symbol : Symbol} {e : CheckError} :
    t.perform (.define scope symbol) = (.error e, t') ↔
      (t.search scope symbol.name).isSome ∧ e = .duplicateSymbol symbol.name ∧ t' = t := by
  rw [← and_assoc, ← define_eq_error_iff, perform]
  cases t.define scope symbol with
  | error cause => simp [eq_comm]
  | ok answer => simp

/-- Every table that is built by operations is coherent, and a search in it goes through the scopes on the way
outwards, which comes to an end. A definition is refused exactly if its name can be seen, and then changes nothing. One
that is made is found, under its name, from all scopes that it is exposed to; everything else is found as before. -/
theorem built_coherent {t : SymbolTable} (h : t.Built) :
    t.Coherent ∧
    (∀ x, x < t.scopes.size →
      ∃ chain, t.Chain x chain ∧ ∀ name, t.search x name = chain.findSome? (t.bound? · name)) ∧
    ∀ scope symbol, scope < t.scopes.size →
      (∀ e t', t.perform (.define scope symbol) = (.error e, t') ↔
        (t.search scope symbol.name).isSome ∧ e = .duplicateSymbol symbol.name ∧ t' = t) ∧
      ∀ id t', t.perform (.define scope symbol) = (.ok id, t') → ∀ x name,
        (name = symbol.name ∧ t.Exposed name scope x → t'.search x name = some id) ∧
        (¬ (name = symbol.name ∧ t.Exposed name scope x) → t'.search x name = t.search x name) := by
  have coherent := h.coherent
  refine ⟨coherent, fun x exists' => ?_, fun scope symbol lt => ⟨fun e t' => perform_define_eq_error_iff, ?_⟩⟩
  · obtain ⟨chain, outwards⟩ := coherent.exists_chain exists'
    exact ⟨chain, outwards, outwards.search_eq coherent⟩
  · intro id t' defined x name
    obtain ⟨fresh, inserted⟩ := perform_define_eq_ok defined
    obtain ⟨rfl, rfl⟩ := Prod.mk.inj inserted
    refine ⟨?_, search_insert_of_not_exposed coherent lt fresh⟩
    rintro ⟨rfl, exposed⟩
    exact search_insert_of_exposed coherent lt fresh exposed

/-- A name that one of two inner scopes has already is defined in the scope around them: from the other one it is
found, and from the one that has the name the older symbol is. -/
theorem built_coherent_late :
    ∃ t t' : SymbolTable, t.Built ∧ t.parent? 2 = some 1 ∧ t.parent? 3 = some 1 ∧ t.search 2 "x" = some 6 ∧
      t.perform (.define 1 (.forVariable "x" .int)) = (.ok 7, t') ∧
      t'.search 3 "x" = some 7 ∧ t'.search 2 "x" = some 6 := by
  have first : Built _ := @Built.perform _ (.newScope 0) .initial (by decide)
  have second : Built _ := @Built.perform _ (.newScope 1) first (by decide)
  have third : Built _ := @Built.perform _ (.define 2 (.forVariable "x" .int)) second (by decide)
  have built : Built _ := @Built.perform _ (.newScope 1) third (by decide)
  obtain ⟨-, -, changes⟩ := built_coherent built
  have found := (changes 1 (.forVariable "x" .int) (by decide)).2 7 _ rfl
  refine ⟨_, _, built, rfl, rfl, rfl, rfl, (found 3 "x").1 ⟨rfl, [3], [0], ?_, ?_⟩, (found 2 "x").2 ?_⟩
  · exact .inside rfl (.inside rfl (.outermost (by decide) rfl))
  · exact List.forall_mem_singleton.2 rfl
  · rintro ⟨-, nearer, farther, outwards, unbound⟩
    have chain := outwards.unique (.inside rfl (.inside rfl (.outermost (by decide) rfl)))
    cases nearer with
    | nil => cases chain
    | cons y nearer =>
      obtain ⟨rfl, -⟩ := List.cons.inj chain
      cases unbound 2 (.head _)

end MiniC.SymbolTable
