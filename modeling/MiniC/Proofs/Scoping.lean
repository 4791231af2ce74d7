import MiniC.Proofs.Catalogue
import MiniC.Proofs.Typing

/-!
# Names and what they stand for

Every name in a checked tree stands for a symbol that was visible where the name is used: the name of a
type, or something that an earlier statement declared in a block around it. `Stmt.Scoped` says so of a
tree, without scopes or tables, and `Source.check_scoped` of every checked source.

A part of a tree that is checked in a scope binds names in this scope and in scopes of its own, and
leaves all other scopes alone; this is what `SymbolTable.Within` records.
-/

namespace MiniC

/-! ## Visible symbols -/

namespace SymbolTable

/-- A name stands for a symbol in a scope or in one of the scopes around it. -/
inductive Visible (t : SymbolTable) (name : String) (id : SymbolId) : ScopeId → Prop
  | here {scope : ScopeId} {s : Scope} :
    t.scopes[scope]? = some s → s.names.find? name = some id → Visible t name id scope
  | outer {scope parent : ScopeId} {s : Scope} :
    t.scopes[scope]? = some s → s.parent = some parent → Visible t name id parent →
      Visible t name id scope

/-- A search goes outwards, so what it finds is visible. By induction on the number of scopes that it may go through.
-/
theorem visible_of_searchWithin {t : SymbolTable} {name : String} {id : SymbolId} {bound : Nat}
    {scope : ScopeId} (h : t.searchWithin name bound scope = some id) : t.Visible name id scope := by
  induction bound generalizing scope with
  | zero => cases h
  | succ bound ih =>
    simp only [searchWithin] at h
    split at h
    · cases h
    · rename_i s found
      split at h
      · rename_i bound
        cases h
        exact .here found bound
      · split at h
        · cases h
        · rename_i parent
          exact .outer found parent (ih h)

/-- What a search finds is visible. -/
theorem visible_of_search {t : SymbolTable} {name : String} {id : SymbolId} {scope : ScopeId}
    (h : t.search scope name = some id) : t.Visible name id scope :=
  visible_of_searchWithin h

/-- The scope around a scope is older. -/
def Nested (t : SymbolTable) : Prop :=
  ∀ (scope parent : ScopeId) (s : Scope), t.scopes[scope]? = some s → s.parent = some parent →
    parent < scope

/-- From one table to another only the given scope got names, which stand for the given symbols; scopes
may have been added, and no scope got another parent. -/
structure Within (t t' : SymbolTable) (scope : ScopeId) (ids : List SymbolId) : Prop where
  size_le : t.scopes.size ≤ t'.scopes.size
  nested : t'.Nested
  old : ∀ x < t.scopes.size, ∀ s', t'.scopes[x]? = some s' → ∃ s, t.scopes[x]? = some s ∧
    s'.parent = s.parent ∧ ∀ name id, s'.names.find? name = some id →
      s.names.find? name = some id ∨ x = scope ∧ id ∈ ids

namespace Within

variable {t t' t'' : SymbolTable} {scope inner : ScopeId} {ids ids' : List SymbolId}

/-- What leaves the scopes alone binds nothing. -/
theorem of_scopes_eq (nested : t.Nested) (same : t'.scopes = t.scopes) : Within t t' scope [] := by
  refine ⟨Nat.le_of_eq (congrArg Array.size same.symm), ?_, fun x _ s' found => ?_⟩
  · unfold Nested
    rwa [same]
  · exact ⟨s', same ▸ found, rfl, fun name id bound => .inl bound⟩

theorem refl (nested : t.Nested) : Within t t scope [] :=
  of_scopes_eq nested rfl

/-- Parts in the same scope bind one after another. -/
theorem trans (h : Within t t' scope ids) (h' : Within t' t'' scope ids') :
    Within t t'' scope (ids ++ ids') where
  size_le := Nat.le_trans h.size_le h'.size_le
  nested := h'.nested
  old x lt s'' found := by
    obtain ⟨s', found', parent', bound'⟩ := h'.old x (Nat.lt_of_lt_of_le lt h.size_le) s'' found
    obtain ⟨s, found, parent, bound⟩ := h.old x lt s' found'
    refine ⟨s, found, parent'.trans parent, fun name id held => ?_⟩
    rcases bound' name id held with held | ⟨here, mem⟩
    · exact (bound name id held).imp_right fun ⟨here, mem⟩ => ⟨here, List.mem_append_left _ mem⟩
    · exact .inr ⟨here, List.mem_append_right _ mem⟩

/-- What happens in a scope that was added does not show in the scopes before it. -/
theorem leave (h : Within t t' scope ids) (h' : Within t' t'' inner ids')
    (added : t.scopes.size ≤ inner) : Within t t'' scope ids where
  size_le := Nat.le_trans h.size_le h'.size_le
  nested := h'.nested
  old x lt s'' found := by
    obtain ⟨s', found', parent', bound'⟩ := h'.old x (Nat.lt_of_lt_of_le lt h.size_le) s'' found
    obtain ⟨s, found, parent, bound⟩ := h.old x lt s' found'
    refine ⟨s, found, parent'.trans parent, fun name id held => ?_⟩
    rcases bound' name id held with held | ⟨rfl, -⟩
    · exact bound name id held
    · exact absurd lt (Nat.not_lt.2 added)

/-- What is visible was visible before or is one of the new symbols. -/
theorem visible (h : Within t t' scope ids) (nested : t.Nested) {name : String} {id : SymbolId}
    {x : ScopeId} (lt : x < t.scopes.size) (visible : t'.Visible name id x) :
    t.Visible name id x ∨ id ∈ ids := by
  induction visible with
  | here found bound =>
    obtain ⟨s, found, -, old⟩ := h.old _ lt _ found
    exact (old name id bound).imp (.here found) And.right
  | outer found parent _ ih =>
    obtain ⟨s, found, same, -⟩ := h.old _ lt _ found
    rw [same] at parent
    have older := nested _ _ s found parent
    exact (ih (Nat.lt_trans older lt)).imp_left (.outer found parent)

end Within

/-- A definition binds its symbol in its own scope. -/
theorem within_insert {t : SymbolTable} (nested : t.Nested) (scope : ScopeId) (symbol : Symbol) :
    Within t (t.insert scope symbol).2 scope [t.symbols.size] := by
  have scopes : ∀ x s', (t.insert scope symbol).2.scopes[x]? = some s' → ∃ s, t.scopes[x]? = some s ∧
      s'.parent = s.parent ∧ ∀ name id, s'.names.find? name = some id →
        s.names.find? name = some id ∨ x = scope ∧ id ∈ [t.symbols.size] := by
    intro x s' found
    simp only [insert, Array.getElem?_modify] at found
    split at found
    · rename_i here
      obtain ⟨s, old, rfl⟩ := Option.map_eq_some_iff.1 found
      refine ⟨s, old, rfl, fun name id held => ?_⟩
      simp only [Catalogue.find?_insert] at held
      split at held
      · cases held
        exact .inr ⟨here.symm, .head _⟩
      · exact .inl held
    · exact ⟨s', found, rfl, fun name id held => .inl held⟩
  refine ⟨by simp [insert], fun x parent s' found held => ?_, fun x _ s' found => scopes x s' found⟩
  obtain ⟨s, found, same, -⟩ := scopes x s' found
  exact nested x parent s found (same ▸ held)

/-- A new scope is added, and the others stay. -/
theorem within_newScope {t : SymbolTable} (nested : t.Nested) {parent : ScopeId}
    (lt : parent < t.scopes.size) (scope : ScopeId) : Within t (t.newScope parent).2 scope [] := by
  refine ⟨by simp [newScope], fun x outer s found held => ?_, fun x old s' found => ?_⟩
  · simp only [newScope, Array.getElem?_push] at found
    split at found
    · rename_i here
      cases found
      cases held
      exact here ▸ lt
    · exact nested x outer s found held
  · simp only [newScope, Array.getElem?_push] at found
    rw [if_neg (Nat.ne_of_lt old)] at found
    exact ⟨s', found, rfl, fun name id held => .inl held⟩

/-- A new scope sees what the scope around it sees. -/
theorem visible_newScope {t : SymbolTable} (nested : t.Nested) {parent : ScopeId}
    (lt : parent < t.scopes.size) {name : String} {id : SymbolId}
    (visible : (t.newScope parent).2.Visible name id (t.newScope parent).1) :
    t.Visible name id parent := by
  have added : (t.newScope parent).2.scopes[t.scopes.size]? = some { parent := some parent } := by
    simp [newScope]
  cases visible with
  | here found bound =>
    cases added.symm.trans found
    cases bound
  | outer found around visible =>
    cases added.symm.trans found
    cases around
    rcases (within_newScope nested lt parent).visible nested lt visible with visible | new
    · exact visible
    · cases new

/-- A scope that exists, from which only known symbols are visible. -/
structure Sees (t : SymbolTable) (scope : ScopeId) (known : SymbolId → Prop) : Prop where
  lt_size : scope < t.scopes.size
  nested : t.Nested
  known_of_visible : ∀ name id, t.Visible name id scope → known id

namespace Sees

variable {t t' : SymbolTable} {scope : ScopeId} {known : SymbolId → Prop} {ids : List SymbolId}

/-- After a part in the same scope its symbols are known as well. -/
theorem within (h : t.Sees scope known) (h' : Within t t' scope ids) :
    t'.Sees scope fun id => known id ∨ id ∈ ids where
  lt_size := Nat.lt_of_lt_of_le h.lt_size h'.size_le
  nested := h'.nested
  known_of_visible name id visible :=
    (h'.visible h.nested h.lt_size visible).imp_left (h.known_of_visible name id)

/-- A part that binds nothing makes nothing known. -/
theorem within_nil (h : t.Sees scope known) (h' : Within t t' scope []) : t'.Sees scope known where
  lt_size := (h.within h').lt_size
  nested := h'.nested
  known_of_visible name id visible :=
    ((h.within h').known_of_visible name id visible).resolve_right (by simp)

theorem of_scopes_eq (h : t.Sees scope known) (same : t'.scopes = t.scopes) : t'.Sees scope known :=
  h.within_nil (.of_scopes_eq h.nested same)

/-- A new scope sees what the scope around it sees. -/
theorem newScope (h : t.Sees scope known) : (t.newScope scope).2.Sees (t.newScope scope).1 known where
  lt_size := by simp [SymbolTable.newScope]
  nested := (within_newScope h.nested h.lt_size scope).nested
  known_of_visible name id visible :=
    h.known_of_visible name id (visible_newScope h.nested h.lt_size visible)

end Sees

end SymbolTable

/-! ## Scoped trees -/

/-- The names in an expression stand for known symbols. -/
def Expr.Scoped (known : SymbolId → Prop) : Expr → Prop
  | .literal .. => True
  | .name _ symbol _ => ∃ id, symbol = some id ∧ known id
  | .unary _ operand _ => operand.Scoped known
  | .binary _ left right _ => left.Scoped known ∧ right.Scoped known
  | .index base position _ => base.Scoped known ∧ position.Scoped known
  | .call .. => False

/-- The names in the initial values of declared names stand for known symbols, or for symbols that were
declared before. -/
def Declarator.AllScoped : (known : SymbolId → Prop) → List Declarator → Prop
  | _, [] => True
  | known, d :: ds =>
    (∀ init, d.init = some init → init.Scoped known) ∧
      Declarator.AllScoped (fun id => known id ∨ id ∈ d.symbol.toList) ds

/-- The symbols that a statement makes known to the statements after it. What is declared in a block
stays there; what a `for` loop declares at its start does not. -/
def Stmt.exported : Stmt → List SymbolId
  | .ifElse _ _ otherwise => otherwise.exported
  | .forLoop init _ step _ => init.exported ++ step.exported
  | .function _ _ _ _ symbol => symbol.toList
  | .declare _ declarators => declarators.filterMap Declarator.symbol
  | .block _ | .ifThen .. | .whileLoop .. | .doWhile .. | .assign .. | .eval _ | .print _ | .input _
  | .breakLoop | .continueLoop | .returnValue _ => []

mutual

/-- The names in a statement, outside functions, stand for symbols that are known where they are used. -/
def Stmt.Scoped : (known : SymbolId → Prop) → Stmt → Prop
  | known, .block body => body.Scoped known
  | known, .ifThen condition body => condition.Scoped known ∧ body.Scoped known
  | known, .ifElse condition body otherwise =>
    condition.Scoped known ∧ body.Scoped known ∧ otherwise.Scoped known
  | known, .whileLoop condition body => condition.Scoped known ∧ body.Scoped known
  | known, .doWhile body condition => body.Scoped known ∧ condition.Scoped known
  | known, .forLoop init condition step body =>
    let inside := fun id => known id ∨ id ∈ init.exported
    init.Scoped known ∧ condition.Scoped inside ∧ step.Scoped inside ∧ body.Scoped inside
  | _, .function .. => True
  | known, .declare _ declarators => Declarator.AllScoped known declarators
  | known, .assign target value => target.Scoped known ∧ value.Scoped known
  | known, .eval value | known, .print value => value.Scoped known
  | known, .input target => target.Scoped known
  | _, .breakLoop | _, .continueLoop | _, .returnValue _ => False

/-- The names in a block stand for symbols that are known where they are used. -/
def Block.Scoped : (known : SymbolId → Prop) → Block → Prop
  | known, ⟨statements, _⟩ => Stmt.AllScoped known statements

/-- The names in statements stand for known symbols, or for symbols that a statement before made known. -/
def Stmt.AllScoped : (known : SymbolId → Prop) → List Stmt → Prop
  | _, [] => True
  | known, statement :: rest =>
    statement.Scoped known ∧ Stmt.AllScoped (fun id => known id ∨ id ∈ statement.exported) rest

end

/-! ## Checking makes scoped trees -/

namespace Checker

/-- To give a variable a value is a matter of flags, not of scopes. -/
theorem scopes_markInitialized (c : Checker) (target : Expr) :
    (c.markInitialized target).table.scopes = c.table.scopes := by
  unfold markInitialized
  split <;> rfl

/-- A definition that succeeds binds its symbol. -/
theorem within_define {c c' : Checker} {scope : ScopeId} {s : Symbol} {id : SymbolId}
    (h : c.define scope s = .ok (id, c')) (nested : c.table.Nested) :
    c.table.Within c'.table scope [id] := by
  obtain ⟨rfl, rfl⟩ := define_eq_ok h
  exact SymbolTable.within_insert nested scope s

end Checker

open SymbolTable (Sees Within)

/-- An accepted expression has names of visible symbols, and changes no scope. -/
theorem Expr.Passes.scoped {scope : ScopeId} {known : SymbolId → Prop} {c c' : Checker} {x x' : Expr} {ty : Ty}
    (h : x.Passes scope c x' ty c') (sees : c.table.Sees scope known) :
    x'.Scoped known ∧ c'.table.scopes = c.table.scopes := by
  induction h with
  | literal => exact ⟨trivial, rfl⟩
  | name found _ => exact ⟨⟨_, rfl, sees.known_of_visible _ _ (SymbolTable.visible_of_search found)⟩, rfl⟩
  | unary _ _ ih => exact ih sees
  | binary _ _ _ ih ih' | index _ _ _ ih ih' =>
    obtain ⟨names, same⟩ := ih sees
    obtain ⟨names', same'⟩ := ih' (sees.of_scopes_eq same)
    exact ⟨⟨names, names'⟩, same'.trans same⟩

/-- An accepted initial value has names of visible symbols. The name that it is for is not yet among them. -/
theorem Declarator.InitPasses.scoped {scope : ScopeId} {known : SymbolId → Prop} {ty : Ty} {name : String}
    {c c' : Checker} {init init' : Option Expr} {initialized : Bool}
    (h : Declarator.InitPasses scope ty name c init init' initialized c') (sees : c.table.Sees scope known) :
    (∀ x, init' = some x → x.Scoped known) ∧ c'.table.scopes = c.table.scopes := by
  cases h with
  | bare => exact ⟨by simp, rfl⟩
  | valued hx =>
    obtain ⟨names, same⟩ := hx.scoped sees
    refine ⟨?_, same⟩
    rintro x ⟨⟩
    exact names

/-- In an accepted declaration every initial value may use the names before it. -/
theorem Declarator.AllPass.scoped {scope : ScopeId} {known : SymbolId → Prop} {ty : Ty} {c c' : Checker}
    {ds ds' : List Declarator} (h : Declarator.AllPass scope ty c ds ds' c') (sees : c.table.Sees scope known) :
    Declarator.AllScoped known ds' ∧
      Within c.table c'.table scope (ds'.filterMap Declarator.symbol) := by
  induction h generalizing known with
  | nil => exact ⟨trivial, .refl sees.nested⟩
  | cons hinit hdefine _ ih =>
    obtain ⟨scopedInit, same⟩ := hinit.scoped sees
    have sees₁ := sees.of_scopes_eq same
    have named := Checker.within_define hdefine sees₁.nested
    obtain ⟨scopedRest, withinRest⟩ := ih (sees₁.within named)
    exact ⟨⟨scopedInit, scopedRest⟩, ((Within.of_scopes_eq sees.nested same).trans named).trans withinRest⟩

/-- Parameters are bound in the scope of the function. -/
theorem Parameter.AllPass.within {outer inner : ScopeId} {c c' : Checker} {ps ps' : List Parameter}
    {tys : List Ty} (h : Parameter.AllPass outer inner c ps ps' tys c') (nested : c.table.Nested) :
    ∃ ids, Within c.table c'.table inner ids := by
  induction h with
  | nil => exact ⟨[], .refl nested⟩
  | cons _ hdefine _ ih =>
    have named := Checker.within_define hdefine nested
    obtain ⟨ids, withinRest⟩ := ih named.nested
    exact ⟨_, named.trans withinRest⟩

/-- An assignment stays one, and makes nothing known. -/
theorem Stmt.Passes.exported_of_isAssign {scope : ScopeId} {c c' : Checker} {s s' : Stmt}
    (h : s.Passes scope c s' c') (isAssign : s.IsAssign) : s'.exported = [] := by
  cases h with
  | assign _ _ _ => rfl
  | _ => cases isAssign

mutual

/-- An accepted statement has names of known symbols only, and of the scopes that there were it changes
only its own. By induction on the walk; what is known grows with every part in the same scope. -/
theorem Stmt.Passes.scoped {scope : ScopeId} {known : SymbolId → Prop} {c c' : Checker} {s s' : Stmt} :
    s.Passes scope c s' c' → s.Shaped → c.table.Sees scope known →
      s'.Scoped known ∧ Within c.table c'.table scope s'.exported
  | .block hbody, shaped, sees => hbody.scoped shaped sees
  | .ifThen hcondition hbody, shaped, sees | .whileLoop hcondition hbody, shaped, sees => by
    obtain ⟨scopedC, same⟩ := hcondition.scoped sees
    obtain ⟨scopedB, within⟩ := hbody.scoped shaped (sees.of_scopes_eq same)
    exact ⟨⟨scopedC, scopedB⟩, (Within.of_scopes_eq sees.nested same).trans within⟩
  | .ifElse hcondition hbody hotherwise, shaped, sees => by
    obtain ⟨scopedC, same⟩ := hcondition.scoped sees
    have sees₁ := sees.of_scopes_eq same
    obtain ⟨scopedB, withinB⟩ := hbody.scoped shaped.1 sees₁
    obtain ⟨scopedO, withinO⟩ := hotherwise.scoped shaped.2 (sees₁.within_nil withinB)
    exact ⟨⟨scopedC, scopedB, scopedO⟩,
      (Within.of_scopes_eq sees.nested same).trans (withinB.trans withinO)⟩
  | .doWhile hbody hcondition, shaped, sees => by
    obtain ⟨scopedB, within⟩ := hbody.scoped shaped sees
    obtain ⟨scopedC, same⟩ := hcondition.scoped (sees.within_nil within)
    exact ⟨⟨scopedB, scopedC⟩, within.trans (Within.of_scopes_eq within.nested same)⟩
  | .forLoop hinit hcondition hstep hbody, shaped, sees => by
    obtain ⟨⟨_, shapedI⟩, isAssign, shapedB⟩ := shaped
    obtain ⟨scopedI, withinI⟩ := hinit.scoped shapedI sees
    have sees₁ := sees.within withinI
    obtain ⟨scopedC, same⟩ := hcondition.scoped sees₁
    have sees₂ := sees₁.of_scopes_eq same
    obtain ⟨scopedS, withinS⟩ := hstep.scoped isAssign.shaped sees₂
    -- A step declares nothing, so the body knows no more than the condition.
    have none := hstep.exported_of_isAssign isAssign
    rw [none] at withinS
    obtain ⟨scopedB, withinB⟩ := hbody.scoped shapedB (sees₂.within_nil withinS)
    have tested : Within _ _ scope [] := .of_scopes_eq sees₁.nested same
    refine ⟨⟨scopedI, scopedC, scopedS, scopedB⟩, ?_⟩
    rw [Stmt.exported, none]
    exact withinI.trans (tested.trans (withinS.trans withinB))
  | .function _ hparameters hdefine hbody, shaped, sees => by
    have opened := SymbolTable.within_newScope sees.nested sees.lt_size scope
    obtain ⟨ids, withinP⟩ := hparameters.within opened.nested
    have before := opened.leave withinP (Nat.le_refl _)
    have named := Checker.within_define hdefine before.nested
    have seesB : SymbolTable.Sees _ c.table.scopes.size fun _ => True :=
      ⟨Nat.lt_of_lt_of_le sees.newScope.lt_size (Nat.le_trans withinP.size_le named.size_le),
        named.nested, fun _ _ _ => trivial⟩
    obtain ⟨-, withinB⟩ := hbody.scoped shaped seesB
    exact ⟨trivial, (before.trans named).leave withinB (Nat.le_refl _)⟩
  | .declare _ _ hds, _, sees => hds.scoped sees
  | .assign htarget hvalue _, _, sees => by
    obtain ⟨scopedT, same⟩ := htarget.scoped sees
    obtain ⟨scopedV, same'⟩ := hvalue.scoped (sees.of_scopes_eq same)
    refine ⟨⟨scopedT, scopedV⟩, .of_scopes_eq sees.nested ?_⟩
    exact (Checker.scopes_markInitialized _ _).trans (same'.trans same)
  | .eval hvalue, _, sees | .print hvalue, _, sees => by
    obtain ⟨names, same⟩ := hvalue.scoped sees
    exact ⟨names, .of_scopes_eq sees.nested same⟩
  | .input htarget _ _ _, _, sees => by
    obtain ⟨names, same⟩ := htarget.scoped sees
    exact ⟨names, .of_scopes_eq sees.nested ((Checker.scopes_markInitialized _ _).trans same)⟩

theorem Block.Passes.scoped {parent : ScopeId} {known : SymbolId → Prop} {c c' : Checker} {b b' : Block} :
    b.Passes parent c b' c' → b.Shaped → c.table.Sees parent known →
      b'.Scoped known ∧ Within c.table c'.table parent []
  | .intro hbody, shaped, sees => by
    obtain ⟨inside, within⟩ := hbody.scoped shaped sees.newScope
    have opened := SymbolTable.within_newScope sees.nested sees.lt_size parent
    exact ⟨inside, opened.leave within (Nat.le_refl _)⟩

theorem Block.PassesIn.scoped {scope : ScopeId} {known : SymbolId → Prop} {c c' : Checker} {b b' : Block} :
    b.PassesIn scope c b' c' → b.Shaped → c.table.Sees scope known →
      b'.Scoped known ∧ Within c.table c'.table scope (b'.statements.flatMap Stmt.exported)
  | .intro hstatements, shaped, sees => hstatements.scoped shaped sees

theorem Stmt.AllPass.scoped {scope : ScopeId} {known : SymbolId → Prop} {c c' : Checker}
    {statements statements' : List Stmt} :
    Stmt.AllPass scope c statements statements' c' → Stmt.AllShaped statements → c.table.Sees scope known →
      Stmt.AllScoped known statements' ∧
        Within c.table c'.table scope (statements'.flatMap Stmt.exported)
  | .nil, _, sees => ⟨trivial, .refl sees.nested⟩
  | .cons hstatement hrest, shaped, sees => by
    obtain ⟨first, withinS⟩ := hstatement.scoped shaped.1 sees
    obtain ⟨others, withinR⟩ := hrest.scoped shaped.2 (sees.within withinS)
    exact ⟨⟨first, others⟩, withinS.trans withinR⟩

end

/-- At the outset only the names of types are visible. -/
theorem SymbolTable.initial_sees :
    initial.Sees global fun id => ∃ s, initial.bare? id = some s ∧ s.kind = .typeName := by
  have scope : ∀ s, initial.scopes[global]? = some s →
      s.parent = none ∧ ∀ entry ∈ s.names.entries, entry.2 < 6 := by
    rintro s ⟨⟩
    exact ⟨rfl, by decide⟩
  refine ⟨by decide, fun x parent s found around => ?_, fun name id visible => ?_⟩
  · have lt : x < 1 := (Array.getElem?_eq_some_iff.1 found).1
    cases Nat.lt_one_iff.1 lt
    cases (scope s found).1.symm.trans around
  · cases visible with
    | here found bound =>
      have lt := (scope _ found).2 (name, id) ((Catalogue.find?_eq_some_iff _).1 bound)
      match id, lt with
      | 0, _ | 1, _ | 2, _ | 3, _ | 4, _ | 5, _ => exact ⟨_, rfl, rfl⟩
    | outer found around _ => cases (scope _ found).1.symm.trans around

/-- Every name in a checked source, outside functions, is that of a type or was declared before, in a
block around it. -/
theorem Source.check_scoped {source : String} {options : Options} {checked : CheckedSource}
    (h : Source.check source options = .ok checked) :
    checked.tree.Scoped fun id => ∃ s, checked.table.bare? id = some s ∧ s.kind = .typeName := by
  obtain ⟨tree, c, -, shaped, hcheck, table⟩ := Source.check_eq_ok h
  have passes := Checker.checkBlock_eq_accept.1 hcheck
  have grows := (passes.accepted shaped SymbolTable.initial_sound).1.grows
  refine (passes.scoped shaped ?_).1
  refine ⟨SymbolTable.initial_sees.lt_size, SymbolTable.initial_sees.nested, fun name id visible => ?_⟩
  obtain ⟨s, found, kind⟩ := SymbolTable.initial_sees.known_of_visible name id visible
  exact ⟨s, table ▸ grows id s found, kind⟩

end MiniC
