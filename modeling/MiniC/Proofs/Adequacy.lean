import MiniC.Proofs.Layers
import MiniC.Proofs.Rules

/-!
# Checking follows the rules

Checking accepts the legal programs and no others. It works on a table of all scopes, which the rules do not
know: an environment agrees with a table at a scope if it holds exactly what can be seen from there
(`Agrees`). A part of a tree is then checked adequately if its answer is accepted exactly if a rule allows it,
and the environment after it agrees with the table after it (`Checked.Adequate`); where the environment stays
as it is, the answer just decides a judgement (`Checked.Decides`). Both are closed under `Checked.andThen`, so
that the rule for a statement is put together in the way in which the statement is checked.
-/

namespace MiniC

/-! ## What can be seen from a scope -/

namespace SymbolTable

/-- What a symbol is for the rules. -/
def binding? (t : SymbolTable) (id : SymbolId) : Option Binding :=
  (t.bare? id).map fun s => ⟨s.kind, s.ty⟩

/-- What a name stands for, seen from a scope. -/
def lookup (t : SymbolTable) (scope : ScopeId) (name : String) : Option Binding :=
  (t.search scope name).bind t.binding?

/-- What the rules know of a symbol is its kind and its type. -/
theorem binding?_eq {t : SymbolTable} {id : SymbolId} {s : Symbol} (found : t.symbol? id = some s) :
    t.binding? id = some ⟨s.kind, s.ty⟩ := by
  rw [binding?, bare?, found]
  rfl

/-- In a proper table what a search finds is there. -/
theorem exists_symbol? {t : SymbolTable} (proper : t.Proper) {scope : ScopeId} {name : String}
    {id : SymbolId} (found : t.search scope name = some id) : ∃ s, t.symbol? id = some s := by
  have visible := visible_of_search found
  clear found
  have lt : id < t.symbols.size := by
    induction visible with
    | here held bound => exact proper.known _ _ _ _ held bound
    | outer _ _ _ ih => exact ih
  exact ⟨_, Array.getElem?_eq_getElem lt⟩

/-- A name stands for nothing exactly if a search does not find it: what is found is there. -/
theorem lookup_eq_none_iff {t : SymbolTable} (proper : t.Proper) {scope : ScopeId} {name : String} :
    t.lookup scope name = none ↔ t.search scope name = none := by
  rw [lookup]
  cases found : t.search scope name with
  | none => simp
  | some id =>
    obtain ⟨s, known⟩ := exists_symbol? proper found
    simp [binding?_eq known]

/-- A search that ends as before finds what it found before. -/
theorem lookup_congr {t t' : SymbolTable} (proper : t.Proper) (grows : t.Grows t') {scope scope' : ScopeId}
    {name : String} (same : t'.search scope' name = t.search scope name) :
    t'.lookup scope' name = t.lookup scope name := by
  rw [lookup, lookup, same]
  cases found : t.search scope name with
  | none => rfl
  | some id =>
    obtain ⟨s, known⟩ := exists_symbol? proper found
    have bare : t.bare? id = some s.bare := bare?_eq_some_iff.2 ⟨s, known, rfl⟩
    show t'.binding? id = t.binding? id
    rw [binding?, binding?, grows id _ bare, bare]

/-- Under its own name a new symbol is found, and nothing changes under the others. -/
theorem lookup_insert {t : SymbolTable} (proper : t.Proper) {scope : Nat} (lt : scope < t.scopes.size)
    (s : Symbol) (name : String) :
    (t.insert scope s).2.lookup scope name =
      if name = s.name then some ⟨s.kind, s.ty⟩ else t.lookup scope name := by
  obtain ⟨first, rest, before, after⟩ := layers_insert proper lt s
  split
  · rename_i same
    have found : (t.insert scope s).2.search scope name = some t.symbols.size := by
      rw [search_eq, after, same, List.findSome?_cons, Catalogue.find?_insert_self]
    rw [lookup, found]
    show (t.insert scope s).2.binding? _ = _
    rw [binding?, bare?_insert, if_pos rfl]
    rfl
  · rename_i different
    refine lookup_congr proper (grows_insert t scope s) ?_
    rw [search_eq, search_eq, before, after, List.findSome?_cons, List.findSome?_cons,
      Catalogue.find?_insert_of_ne _ _ different]

/-- Seen from a scope, a new symbol in the scope around it is found unless the scope has its name. -/
theorem lookup_insert_outer {t : SymbolTable} (proper : t.Proper) {inner scope : Nat} {around : Scope}
    (found : t.scopes[inner]? = some around) (parent : around.parent = some scope) (s : Symbol)
    (name : String) :
    (t.insert scope s).2.lookup inner name =
      if name ∈ around.names.keys then t.lookup inner name else (t.insert scope s).2.lookup scope name := by
  obtain ⟨before, after⟩ := layers_insert_outer proper found parent s
  split
  · rename_i own
    refine lookup_congr proper (grows_insert t scope s) ?_
    rw [search_eq, search_eq, before, after, List.findSome?_cons, List.findSome?_cons]
    cases held : around.names.find? name with
    | none => exact absurd own ((Catalogue.find?_eq_none_iff _).1 held)
    | some id => rfl
  · rename_i other
    rw [lookup, lookup, search_eq, search_eq, after, List.findSome?_cons,
      (Catalogue.find?_eq_none_iff _).2 other]

end SymbolTable

/-- An environment holds exactly what can be seen from a scope of a table. -/
structure Agrees (env : Env) (t : SymbolTable) (scope : Nat) : Prop where
  proper : t.Proper
  lt : scope < t.scopes.size
  find?_eq : ∀ name, env.find? name = t.lookup scope name

namespace Agrees

variable {env : Env} {t t' : SymbolTable} {scope inner : Nat} {c c' : Checker}

/-- A name is fresh for the rules exactly if a search in the table does not find it. -/
theorem find?_eq_none_iff (h : Agrees env t scope) {name : String} :
    env.find? name = none ↔ t.search scope name = none := by
  rw [h.find?_eq, SymbolTable.lookup_eq_none_iff h.proper]

/-- Flags do not count. -/
theorem alike (h : Agrees env t scope) (h' : t.Alike t') : Agrees env t' scope := by
  have frame : t.Frame t' scope := .of_alike h' h.proper
  refine ⟨frame.proper, Nat.lt_of_lt_of_le h.lt frame.size_le, fun name => (h.find?_eq name).trans ?_⟩
  refine (SymbolTable.lookup_congr h.proper frame.grows ?_).symm
  rw [SymbolTable.search_eq, SymbolTable.search_eq, h'.layers_eq]

/-- What happens in a scope does not show in those around it. -/
theorem outer (h : Agrees env t scope) (frame : t.Frame t' inner) (lt : scope < inner) :
    Agrees env t' scope := by
  refine ⟨frame.proper, Nat.lt_of_lt_of_le h.lt frame.size_le, fun name => (h.find?_eq name).trans ?_⟩
  refine (SymbolTable.lookup_congr h.proper frame.grows ?_).symm
  rw [SymbolTable.search_eq, SymbolTable.search_eq, frame.layers_eq h.proper h.lt lt]

/-- A new scope sees what the one around it sees. -/
theorem newScope (h : Agrees env c.table scope) :
    Agrees env (c.newScope scope).2.table (c.newScope scope).1 := by
  have frame : c.table.Frame (c.newScope scope).2.table scope :=
    SymbolTable.frame_newScope h.proper h.lt scope
  refine ⟨frame.proper, c.lt_size_newScope scope, fun name => (h.find?_eq name).trans ?_⟩
  refine (SymbolTable.lookup_congr h.proper frame.grows ?_).symm
  have layers : (c.newScope scope).2.table.layers (c.newScope scope).1 = .empty :: c.table.layers scope :=
    SymbolTable.layers_newScope h.proper h.lt
  rw [SymbolTable.search_eq, SymbolTable.search_eq, layers, List.findSome?_cons, Catalogue.find?_empty]

/-- A definition enters its name. -/
theorem insert (h : Agrees env t scope) (s : Symbol) :
    Agrees (env.insert s.name ⟨s.kind, s.ty⟩) (t.insert scope s).2 scope := by
  have frame := SymbolTable.frame_insert h.proper scope s
  refine ⟨frame.proper, Nat.lt_of_lt_of_le h.lt frame.size_le, fun name => ?_⟩
  rw [Catalogue.find?_insert, SymbolTable.lookup_insert h.proper h.lt, h.find?_eq]

/-- A name that is not visible can be defined. -/
theorem define (h : Agrees env c.table scope) {s : Symbol} (fresh : env.find? s.name = none) :
    ∃ id c', c.define scope s = .ok (id, c') ∧ Agrees (env.insert s.name ⟨s.kind, s.ty⟩) c'.table scope :=
  ⟨_, _, Checker.define_eq_ok_iff.2 ⟨h.find?_eq_none_iff.1 fresh, rfl, rfl⟩, h.insert s⟩

/-- A visible name cannot be defined. -/
theorem define_error (h : Agrees env c.table scope) {s : Symbol} (seen : env.find? s.name ≠ none) :
    ∃ e, c.define scope s = .error e := by
  cases defined : c.define scope s with
  | error e => exact ⟨e, rfl⟩
  | ok entered => exact absurd (h.find?_eq_none_iff.2 (Checker.define_eq_ok_iff.1 defined).1) seen

/-- A written type stands for a type in a scope exactly if it does so in the environment. -/
theorem resolve_eq_ok_iff (h : Agrees env c.table scope) {written : TypeExpr} {ty : Ty} :
    c.resolve scope written = .ok ty ↔ written.Denotes env ty := by
  have visible : ∀ s, (c.table.search scope written.name).bind c.table.symbol? = some s →
      env.find? written.name = some ⟨s.kind, s.ty⟩ := by
    intro s found
    obtain ⟨id, searched, known⟩ := Option.bind_eq_some_iff.1 found
    rw [h.find?_eq, SymbolTable.lookup, searched]
    exact SymbolTable.binding?_eq known
  unfold Checker.resolve
  cases found : (c.table.search scope written.name).bind c.table.symbol? with
  | none =>
    have absent : env.find? written.name = none := by
      refine h.find?_eq_none_iff.2 ?_
      cases searched : c.table.search scope written.name with
      | none => rfl
      | some id =>
        obtain ⟨s, known⟩ := SymbolTable.exists_symbol? h.proper searched
        rw [searched] at found
        cases known.symm.trans found
    exact ⟨nofun, fun ⟨named⟩ => nomatch absent.symm.trans named⟩
  | some s =>
    have held := visible s found
    by_cases isType : s.kind = .typeName
    · simp only [if_pos isType]
      rw [isType] at held
      constructor
      · intro same
        cases same
        exact .intro held
      · rintro ⟨named⟩
        cases held.symm.trans named
        rfl
    · simp only [if_neg isType]
      refine ⟨nofun, fun ⟨named⟩ => ?_⟩
      exact absurd (congrArg Binding.kind (Option.some.inj (held.symm.trans named))) isType

end Agrees

/-! ## Adequate answers -/

namespace Checked

variable {α β γ δ : Type}

/-- An answer that is accepted with a value exactly if a judgement allows this value and some environment,
and the table then agrees with the environment. -/
structure Adequate (answer : Checked α β) (scope : Nat) (J : β → Env → Prop) : Prop where
  sound : ∀ {tree : α} {c : Checker} {value : β}, answer = .accept tree c value →
    ∃ env, J value env ∧ Agrees env c.table scope
  complete : ∀ {value : β} {env : Env}, J value env →
    ∃ tree c, answer = .accept tree c value ∧ Agrees env c.table scope

/-- An answer that is accepted with a value exactly if a judgement holds of the value, and leaves the
environment as it is. -/
def Decides (answer : Checked α β) (env : Env) (scope : Nat) (J : β → Prop) : Prop :=
  answer.Adequate scope fun value env' => J value ∧ env' = env

variable {scope : Nat} {env : Env}

/-- A judgement may be stated in other words. -/
theorem Adequate.congr {answer : Checked α β} {J J' : β → Env → Prop} (h : answer.Adequate scope J)
    (same : ∀ value env, J value env ↔ J' value env) : answer.Adequate scope J' where
  sound accepted := by
    obtain ⟨env, judged, agrees⟩ := h.sound accepted
    exact ⟨env, (same _ _).1 judged, agrees⟩
  complete judged := h.complete ((same _ _).2 judged)

/-- To reject is adequate where no rule applies. -/
theorem adequate_reject {tree : α} {c : Checker} {e : CheckError} {J : β → Env → Prop}
    (never : ∀ value env, ¬ J value env) : (reject tree c e : Checked α β).Adequate scope J where
  sound accepted := absurd accepted reject_ne_accept
  complete judged := absurd judged (never _ _)

/-- To accept with a value decides that it is this value. -/
theorem decides_accept {tree : α} {c : Checker} {value : β} (agrees : Agrees env c.table scope) :
    (accept tree c value).Decides env scope (value = ·) where
  sound accepted := by
    obtain ⟨-, rfl, rfl⟩ := accept_inj.1 accepted
    exact ⟨env, ⟨rfl, rfl⟩, agrees⟩
  complete := by
    rintro _ _ ⟨rfl, rfl⟩
    exact ⟨tree, c, rfl, agrees⟩

/-- Adequate parts in sequence; the first may be checked in another scope. -/
theorem Adequate.andThen {inner : Nat} {part : Checked α β} {rebuild : α → γ}
    {next : α → β → Checker → Checked γ δ} {J : β → Env → Prop} {K : β → Env → δ → Env → Prop}
    (first : part.Adequate inner J)
    (second : ∀ {tree : α} {c : Checker} {value : β} {env : Env}, part = .accept tree c value →
      J value env → Agrees env c.table inner → (next tree value c).Adequate scope (K value env)) :
    (part.andThen rebuild next).Adequate scope
      fun value' env' => ∃ value env, J value env ∧ K value env value' env' where
  sound accepted := by
    obtain ⟨tree, c, value, hpart, hnext⟩ := andThen_eq_accept.1 accepted
    obtain ⟨env, judged, agrees⟩ := first.sound hpart
    obtain ⟨env', judged', agrees'⟩ := (second hpart judged agrees).sound hnext
    exact ⟨env', ⟨value, env, judged, judged'⟩, agrees'⟩
  complete := by
    rintro value' env' ⟨value, env, judged, judged'⟩
    obtain ⟨tree, c, hpart, agrees⟩ := first.complete judged
    obtain ⟨tree', c', hnext, agrees'⟩ := (second hpart judged agrees).complete judged'
    exact ⟨tree', c', andThen_eq_accept.2 ⟨tree, c, value, hpart, hnext⟩, agrees'⟩

/-- A part that leaves the environment, and one after it. -/
theorem Decides.andThen {part : Checked α β} {rebuild : α → γ} {next : α → β → Checker → Checked γ δ}
    {J : β → Prop} {K : β → δ → Env → Prop} (first : part.Decides env scope J)
    (second : ∀ {tree : α} {c : Checker} {value : β}, part = .accept tree c value →
      J value → Agrees env c.table scope → (next tree value c).Adequate scope (K value)) :
    (part.andThen rebuild next).Adequate scope
      fun value' env' => ∃ value, J value ∧ K value value' env' := by
  have second' : ∀ {tree : α} {c : Checker} {value : β} {env' : Env}, part = .accept tree c value →
      J value ∧ env' = env → Agrees env' c.table scope → (next tree value c).Adequate scope (K value) := by
    rintro tree c value _ hpart ⟨judged, rfl⟩ agrees
    exact second hpart judged agrees
  refine (Adequate.andThen first second').congr fun value' env' => ?_
  constructor
  · rintro ⟨value, _, ⟨judged, -⟩, judged'⟩
    exact ⟨value, judged, judged'⟩
  · rintro ⟨value, judged, judged'⟩
    exact ⟨value, env, ⟨judged, rfl⟩, judged'⟩

end Checked

/-! ## Expressions -/

theorem Ty.isUnqualified_iff {ty : Ty} : ty.isUnqualified = true ↔ ∃ p, ty = ⟨p, []⟩ := by
  obtain ⟨p, qualifiers⟩ := ty
  simp [Ty.isUnqualified]

/-- The type that checking finds for a literal is the one that the rules give it. -/
theorem Literal.hasType_iff {value : Literal} {ty : Ty} : value.HasType ty ↔ value.ty = ty := by
  constructor
  · rintro ⟨⟩ <;> rfl
  · rintro rfl
    cases value <;> constructor

/-- An operator gives a type on an unqualified operand exactly if its class takes the operand. -/
theorem UnaryOp.gives_iff {op : UnaryOp} {p : Primitive} {ty : Ty} :
    op.Gives ⟨p, []⟩ ty ↔ p ∈ op.operatorClass.accepted ∧ ty = ⟨p, []⟩ := by
  constructor
  · intro gives
    cases gives with
    | sign isSign taken =>
      simp only [List.mem_cons, List.not_mem_nil, or_false] at isSign
      obtain rfl | rfl := isSign <;> exact ⟨taken, rfl⟩
    | complement | negation => exact ⟨.head _, rfl⟩
  · rintro ⟨accepted, rfl⟩
    cases op with
    | plus | neg => exact .sign (by decide) accepted
    | bitNot =>
      obtain rfl := List.mem_singleton.1 accepted
      exact .complement
    | not =>
      obtain rfl := List.mem_singleton.1 accepted
      exact .negation

/-- Checking takes an operand where the rules do, and finds the type that they give. -/
theorem UnaryOp.result?_eq_some_iff {op : UnaryOp} {operand ty : Ty} :
    op.result? operand = some ty ↔ op.Gives operand ty := by
  obtain ⟨p, qualifiers⟩ := operand
  cases qualifiers with
  | nil =>
    rw [gives_iff]
    simp [result?, Ty.isUnqualified, OperatorClass.accepts, eq_comm]
  | cons q qs =>
    refine iff_of_false (fun h => ?_) (fun gives => ?_)
    · cases h
    · cases gives

/-- An operator gives a type on two operands of one type exactly if its class takes them: then a comparison gives
`bool`, and every other operator the type of the operands. -/
theorem BinaryOp.gives_iff {op : BinaryOp} {p : Primitive} {ty : Ty} :
    op.Gives ⟨p, []⟩ ty ↔
      p ∈ op.operatorClass.accepted ∧ ty = if op.operatorClass.isComparison then .bool else ⟨p, []⟩ := by
  constructor
  · intro gives
    cases gives with
    | arithmetic isOp taken | ordering isOp taken =>
      simp only [List.mem_cons, List.not_mem_nil, or_false] at isOp
      obtain rfl | rfl | rfl | rfl := isOp <;> exact ⟨taken, rfl⟩
    | integral isOp =>
      simp only [List.mem_cons, List.not_mem_nil, or_false] at isOp
      obtain rfl | rfl | rfl | rfl | rfl | rfl := isOp <;> exact ⟨.head _, rfl⟩
    | equality isOp taken =>
      have accepted : p ∈ OperatorClass.equality.accepted := by
        cases p <;> first | decide | exact absurd rfl taken
      simp only [List.mem_cons, List.not_mem_nil, or_false] at isOp
      obtain rfl | rfl := isOp <;> exact ⟨accepted, rfl⟩
    | logical isOp =>
      simp only [List.mem_cons, List.not_mem_nil, or_false] at isOp
      obtain rfl | rfl := isOp <;> exact ⟨.head _, rfl⟩
  · rintro ⟨accepted, rfl⟩
    cases op with
    | add | sub | mul | div => exact .arithmetic (by decide) accepted
    | mod | bitAnd | bitOr | bitXor | shiftLeft | shiftRight =>
      obtain rfl := List.mem_singleton.1 accepted
      exact .integral (by decide)
    | eq | notEq =>
      refine .equality (by decide) ?_
      rintro rfl
      revert accepted
      decide
    | lt | gt | ltEq | gtEq => exact .ordering (by decide) accepted
    | and | or =>
      obtain rfl := List.mem_singleton.1 accepted
      exact .logical (by decide)

/-- Checking takes two operands where the rules do, and finds the type that they give. -/
theorem BinaryOp.result?_eq_some_iff {op : BinaryOp} {left right ty : Ty} :
    op.result? left right = some ty ↔ left = right ∧ op.Gives left ty := by
  rw [result?]
  constructor
  · intro h
    split at h
    · rename_i taken
      simp only [Bool.and_eq_true, decide_eq_true_eq, OperatorClass.accepts, List.contains_iff_mem] at taken
      obtain ⟨⟨unqualified, rfl⟩, accepted⟩ := taken
      obtain ⟨p, rfl⟩ := Ty.isUnqualified_iff.1 unqualified
      cases h
      exact ⟨rfl, gives_iff.2 ⟨accepted, rfl⟩⟩
    · cases h
  · rintro ⟨rfl, gives⟩
    obtain ⟨p, rfl⟩ : ∃ p, left = ⟨p, []⟩ := by
      cases gives <;> exact ⟨_, rfl⟩
    obtain ⟨accepted, rfl⟩ := gives_iff.1 gives
    simp [Ty.isUnqualified, OperatorClass.accepts, accepted]

namespace Expr

variable {env : Env} {t : Option Ty} {ty : Ty}

/-- A name has the type of what it stands for, and no other. -/
theorem hasType_name_iff {spelling : String} {symbol : Option SymbolId} :
    (Expr.name spelling symbol t).HasType env ty ↔ (env.find? spelling).map Binding.ty = some ty := by
  rw [Option.map_eq_some_iff]
  constructor
  · rintro ⟨⟩
    exact ⟨_, ‹_›, rfl⟩
  · rintro ⟨b, found, rfl⟩
    exact .name found

/-- The rule for operators before their operand, in the words of the checker. -/
theorem hasType_unary_iff {op : UnaryOp} {operand : Expr} :
    (Expr.unary op operand t).HasType env ty ↔
      ∃ operandTy, operand.HasType env operandTy ∧ op.result? operandTy = some ty := by
  simp only [UnaryOp.result?_eq_some_iff]
  constructor
  · rintro ⟨⟩
    exact ⟨_, ‹_›, ‹_›⟩
  · rintro ⟨operandTy, typed, gives⟩
    exact .unary typed gives

/-- The rule for operators between operands, in the words of the checker: where one of them gives a type the operands
are of the same type, so the rule's one type and the checker's two come to the same. -/
theorem hasType_binary_iff {op : BinaryOp} {left right : Expr} :
    (Expr.binary op left right t).HasType env ty ↔
      ∃ leftTy, left.HasType env leftTy ∧
        ∃ rightTy, right.HasType env rightTy ∧ op.result? leftTy rightTy = some ty := by
  simp only [BinaryOp.result?_eq_some_iff]
  constructor
  · intro typed
    cases typed with
    | binary hleft hright gives => exact ⟨_, hleft, _, hright, rfl, gives⟩
  · rintro ⟨leftTy, hleft, _, hright, rfl, gives⟩
    exact .binary hleft hright gives

/-- The rule for elements, with the parts in the order in which they are checked. -/
theorem hasType_index_iff {base position : Expr} :
    (Expr.index base position t).HasType env ty ↔
      ∃ baseTy, base.HasType env baseTy ∧
        ∃ positionTy, position.HasType env positionTy ∧ positionTy = .int ∧ baseTy.element? = some ty := by
  constructor
  · rintro ⟨⟩
    exact ⟨_, ‹_›, _, ‹_›, rfl, rfl⟩
  · rintro ⟨⟨p, qualifiers⟩, hbase, _, hposition, rfl, element⟩
    cases qualifiers with
    | nil => cases element
    | cons q qs =>
      cases element
      exact .index hbase hposition

/-- Checking stores into what the rules let be stored into. -/
theorem isLvalue_iff {x : Expr} : x.isLvalue = true ↔ x.IsPlace := by
  constructor
  · intro lvalue
    cases x with
    | name => exact .name
    | index => exact .index
    | literal | unary | binary | call => cases lvalue
  · rintro ⟨⟩ <;> rfl

/-- Checking an expression does not change what kind of expression it is. -/
theorem Passes.form {scope : ScopeId} {c c' : Checker} {x x' : Expr} (h : x.Passes scope c x' ty c') :
    x'.isLvalue = x.isLvalue ∧ Checker.isBinary x' = Checker.isBinary x := by
  cases h <;> exact ⟨rfl, rfl⟩

end Expr

namespace Checker

open Checked (Adequate Decides adequate_reject decides_accept)

variable {env : Env} {scope : Nat}

/-- An expression is accepted with a type exactly if it has the type. -/
theorem checkExpr_decides {x : Expr} {c : Checker} (agrees : Agrees env c.table scope) :
    (checkExpr scope x c).Decides env scope (x.HasType env) := by
  induction x using Expr.shallowInduction generalizing c with
  | literal value _ =>
    refine (decides_accept agrees).congr fun ty _ => and_congr_left fun _ => ?_
    constructor
    · intro same
      exact .literal (Literal.hasType_iff.2 same)
    · rintro ⟨typed⟩
      exact Literal.hasType_iff.1 typed
  | name spelling symbol t =>
    rw [checkExpr]
    cases found : c.table.search scope spelling with
    | none =>
      refine adequate_reject fun ty _ judged => ?_
      rw [Expr.hasType_name_iff, agrees.find?_eq_none_iff.2 found] at judged
      cases judged.1
    | some id =>
      obtain ⟨s, known⟩ := SymbolTable.exists_symbol? agrees.proper found
      have seen : env.find? spelling = some ⟨s.kind, s.ty⟩ := by
        rw [agrees.find?_eq, SymbolTable.lookup, found]
        exact SymbolTable.binding?_eq known
      -- That the name is used is a flag, which no rule knows.
      have marked : Agrees env (c.markUsed id).table scope :=
        agrees.alike (SymbolTable.alike_modifySymbol _ _ fun _ => rfl)
      simp only [known]
      refine (decides_accept marked).congr fun ty _ => and_congr_left fun _ => ?_
      rw [Expr.hasType_name_iff, seen, Option.map_some, Option.some_inj]
  | unary op operand t ih =>
    refine ((ih agrees).andThen (K := fun operandTy ty env' => op.result? operandTy = some ty ∧ env' = env)
      fun {_ _ operandTy} _ _ agrees₁ => ?_).congr fun ty env' => ?_
    · cases result : op.result? operandTy with
      | none =>
        refine adequate_reject fun _ _ judged => ?_
        cases judged.1
      | some ty =>
        exact (decides_accept agrees₁).congr fun _ _ => and_congr_left fun _ => Option.some_inj.symm
    · simp only [Expr.hasType_unary_iff, ← and_assoc, exists_and_right]
  | binary op left right t ihl ihr =>
    refine ((ihl agrees).andThen fun {_ _ leftTy} _ _ agrees₁ => (ihr agrees₁).andThen
      (K := fun rightTy ty env' => op.result? leftTy rightTy = some ty ∧ env' = env)
      fun {_ _ rightTy} _ _ agrees₂ => ?_).congr fun ty env' => ?_
    · cases result : op.result? leftTy rightTy with
      | none =>
        refine adequate_reject fun _ _ judged => ?_
        cases judged.1
      | some ty =>
        exact (decides_accept agrees₂).congr fun _ _ => and_congr_left fun _ => Option.some_inj.symm
    · simp only [Expr.hasType_binary_iff, ← and_assoc, exists_and_right]
  | index base position t ihb ihp =>
    refine ((ihb agrees).andThen fun {_ _ baseTy} _ _ agrees₁ => (ihp agrees₁).andThen
      (K := fun positionTy ty env' => (positionTy = .int ∧ baseTy.element? = some ty) ∧ env' = env)
      fun {_ _ positionTy} _ _ agrees₂ => ?_).congr fun ty env' => ?_
    · by_cases isInt : positionTy = .int
      · rw [if_neg (not_not_intro isInt)]
        cases element : baseTy.element? with
        | none =>
          refine adequate_reject fun _ _ judged => ?_
          cases judged.1.2
        | some ty =>
          refine (decides_accept agrees₂).congr fun _ _ => and_congr_left fun _ => ?_
          rw [Option.some_inj, and_iff_right isInt]
      · rw [if_pos isInt]
        exact adequate_reject fun _ _ judged => isInt judged.1.1
    · simp only [Expr.hasType_index_iff, ← and_assoc, exists_and_right]
  | call callee arguments t =>
    refine adequate_reject fun _ _ judged => ?_
    cases judged.1

/-! ## Parts of statements -/

/-- A condition is accepted exactly if it is a truth value. -/
theorem checkCondition_decides {condition : Expr} {c : Checker} (agrees : Agrees env c.table scope) :
    (checkCondition scope condition c).Decides env scope fun _ => condition.HasType env .bool := by
  refine ((checkExpr_decides agrees).andThen (K := fun ty _ env' => ty = .bool ∧ env' = env)
    fun {_ _ ty} _ _ agrees₁ => ?_).congr fun _ env' => ?_
  · by_cases isBool : ty = .bool
    · rw [if_pos isBool]
      exact (decides_accept agrees₁).congr fun _ _ => and_congr_left fun _ => iff_of_true rfl isBool
    · rw [if_neg isBool]
      exact adequate_reject fun _ _ judged => isBool judged.1
  · constructor
    · rintro ⟨_, typed, rfl, same⟩
      exact ⟨typed, same⟩
    · rintro ⟨typed, same⟩
      exact ⟨_, typed, rfl, same⟩

/-- An initial value is accepted exactly if it has the type of its name; without one there is nothing to reject. -/
theorem checkInit_decides {ty : Ty} {name : String} {init : Option Expr} {c : Checker}
    (agrees : Agrees env c.table scope) :
    (checkInit scope ty name init c).Decides env scope
      fun initialized => (∀ x ∈ init, x.HasType env ty) ∧ init.isSome = initialized := by
  cases init with
  | none =>
    have warned : Agrees env (c.warn (.uninitialized name)).table scope := agrees
    exact (decides_accept warned).congr fun _ _ => and_congr_left fun _ => (and_iff_right nofun).symm
  | some x =>
    rw [checkInit]
    refine ((checkExpr_decides agrees).andThen
      (K := fun found initialized env' => (found = ty ∧ true = initialized) ∧ env' = env)
      fun {_ _ found} _ _ agrees₁ => ?_).congr fun initialized env' => ?_
    · by_cases same : found = ty
      · rw [if_pos same]
        exact (decides_accept agrees₁).congr fun _ _ => and_congr_left fun _ => (and_iff_right same).symm
      · rw [if_neg same]
        exact adequate_reject fun _ _ judged => same judged.1.1
    · constructor
      · rintro ⟨_, typed, ⟨rfl, isSome⟩, same⟩
        refine ⟨⟨?_, isSome⟩, same⟩
        rintro _ ⟨⟩
        exact typed
      · rintro ⟨⟨typed, isSome⟩, same⟩
        exact ⟨_, typed x rfl, ⟨rfl, isSome⟩, same⟩

/-- Declared names are accepted exactly if they are legal. By induction on the names, each of which is entered
before the next. -/
theorem checkDeclarators_adequate {ty : Ty} {ds : List Declarator} {c : Checker}
    (agrees : Agrees env c.table scope) :
    (checkDeclarators scope ty ds c).Adequate scope fun _ env' => Declarator.AllLegal ty env ds env' := by
  induction ds generalizing env c with
  | nil =>
    refine (decides_accept agrees).congr fun _ env' => ?_
    constructor
    · rintro ⟨-, rfl⟩
      exact .nil
    · rintro ⟨⟩
      exact ⟨rfl, rfl⟩
  | cons d ds ih =>
    refine ((checkInit_decides agrees).andThen (K := fun _ _ env' => env.find? d.name = none ∧
      Declarator.AllLegal ty (env.insert d.name ⟨.variable, ty⟩) ds env')
      fun {_ _ initialized} _ _ agrees₁ => ?_).congr fun _ env' => ?_
    · by_cases fresh : env.find? d.name = none
      · obtain ⟨id, c₂, defined, agrees₂⟩ :=
          agrees₁.define (s := { Symbol.forVariable d.name ty with initialized }) fresh
        simp only [defined]
        refine ((ih agrees₂).andThen fun _ _ agrees₃ => decides_accept agrees₃).congr fun _ env' => ?_
        constructor
        · rintro ⟨_, _, legal, -, rfl⟩
          exact ⟨fresh, legal⟩
        · rintro ⟨-, legal⟩
          exact ⟨(), _, legal, rfl, rfl⟩
      · obtain ⟨e, failed⟩ :=
          agrees₁.define_error (s := { Symbol.forVariable d.name ty with initialized }) fresh
        simp only [failed]
        exact adequate_reject fun _ _ judged => fresh judged.1
    · constructor
      · rintro ⟨_, ⟨typed, -⟩, fresh, legal⟩
        exact .cons typed fresh legal
      · intro legal
        cases legal with
        | cons typed fresh legal => exact ⟨_, ⟨typed, rfl⟩, fresh, legal⟩

/-- Parameters are accepted exactly if their types stand for some and their names are fresh. Only the scope of
the function changes, so that their types mean the same from first to last. -/
theorem checkParameters_adequate {inner : Nat} (lt : scope < inner) {innerEnv : Env} {ps : List Parameter}
    {c : Checker} (outside : Agrees env c.table scope) (agrees : Agrees innerEnv c.table inner) :
    (checkParameters scope inner ps c).Adequate inner fun tys env' =>
      List.Forall₂ (fun p ty => p.ty.Denotes env ty) ps tys ∧ innerEnv.Fresh (ps.map Parameter.name) ∧
        env' = innerEnv.withParameters ps tys := by
  induction ps generalizing innerEnv c with
  | nil =>
    refine (decides_accept agrees).congr fun tys env' => ?_
    constructor
    · rintro ⟨rfl, rfl⟩
      exact ⟨.nil, Env.fresh_nil _, rfl⟩
    · rintro ⟨⟨⟩, -, rfl⟩
      exact ⟨rfl, rfl⟩
  | cons p ps ih =>
    rw [checkParameters]
    cases resolved : c.resolve scope p.ty with
    | error e =>
      refine adequate_reject ?_
      rintro _ _ ⟨denotes | ⟨denotes, _⟩, -, -⟩
      cases resolved.symm.trans (outside.resolve_eq_ok_iff.2 denotes)
    | ok ty =>
      have denoted := outside.resolve_eq_ok_iff.1 resolved
      by_cases fresh : innerEnv.find? p.name = none
      · obtain ⟨id, c₁, defined, agrees₁⟩ := agrees.define (s := .forParameter p.name ty) fresh
        obtain ⟨-, -, rfl⟩ := define_eq_ok_iff.1 defined
        have outside₁ := outside.outer (SymbolTable.frame_insert agrees.proper inner (.forParameter p.name ty)) lt
        simp only [defined]
        refine ((ih outside₁ agrees₁).andThen (K := fun tys env₁ tys' env' => ty :: tys = tys' ∧ env' = env₁)
          fun _ _ agrees₂ => decides_accept agrees₂).congr fun tys env' => ?_
        constructor
        · rintro ⟨tys, _, ⟨denote, unseen, rfl⟩, rfl, rfl⟩
          exact ⟨.cons denoted denote, (Env.fresh_cons _).2 ⟨fresh, unseen⟩, rfl⟩
        · rintro ⟨denote, unseen, rfl⟩
          cases denote with
          | cons denotes denote =>
            cases resolved.symm.trans (outside.resolve_eq_ok_iff.2 denotes)
            exact ⟨_, _, ⟨denote, ((Env.fresh_cons _).1 unseen).2, rfl⟩, rfl, rfl⟩
      · obtain ⟨e, failed⟩ := agrees.define_error (s := .forParameter p.name ty) fresh
        simp only [failed]
        exact adequate_reject fun _ _ judged => fresh (judged.2.1.unseen p.name (.head _))

/-- A declaration is accepted exactly if its type stands for one that is not `void` and its names are legal. -/
theorem checkDeclare_adequate {written : TypeExpr} {ds : List Declarator} {c : Checker}
    (agrees : Agrees env c.table scope) :
    (checkDeclare scope written ds c).Adequate scope fun _ env' => Stmt.Legal env (.declare written ds) env' := by
  rw [checkDeclare]
  cases resolved : c.resolve scope written with
  | error e =>
    refine adequate_reject ?_
    rintro _ _ ⟨⟩
    cases resolved.symm.trans (agrees.resolve_eq_ok_iff.2 ‹_›)
  | ok ty =>
    have legal_iff (env' : Env) : Stmt.Legal env (.declare written ds) env' ↔
        ty.primitive ≠ .void ∧ Declarator.AllLegal ty env ds env' := by
      constructor
      · intro legal
        cases legal with
        | declare denotes notVoid legal =>
          cases resolved.symm.trans (agrees.resolve_eq_ok_iff.2 denotes)
          exact ⟨notVoid, legal⟩
      · rintro ⟨notVoid, legal⟩
        exact .declare (agrees.resolve_eq_ok_iff.1 resolved) notVoid legal
    by_cases isVoid : ty.primitive = .void
    · simp only [if_pos isVoid]
      exact adequate_reject fun _ _ legal => ((legal_iff _).1 legal).1 isVoid
    · simp only [if_neg isVoid]
      refine ((checkDeclarators_adequate agrees).andThen fun _ _ agrees₁ => decides_accept agrees₁).congr
        fun _ env' => ?_
      rw [legal_iff, and_iff_right isVoid]
      constructor
      · rintro ⟨_, _, legal, -, rfl⟩
        exact legal
      · intro legal
        exact ⟨(), _, legal, rfl, rfl⟩

/-- An assignment is accepted exactly if both sides have one type and the left is a place. What the checker asks of
the left after checking it can be asked before, since checking does not change its form. -/
theorem checkAssign_adequate {target value : Expr} {c : Checker} (agrees : Agrees env c.table scope) :
    (checkAssign scope target value c).Adequate scope fun _ env' => Stmt.Legal env (.assign target value) env' := by
  refine ((checkExpr_decides agrees).andThen fun {target' _ targetTy} htarget _ agrees₁ =>
    (checkExpr_decides agrees₁).andThen
      (K := fun valueTy _ env' => (targetTy = valueTy ∧ target.isLvalue = true) ∧ env' = env)
      fun {_ _ valueTy} _ _ agrees₂ => ?_).congr fun _ env' => ?_
  · rw [← (checkExpr_eq_accept.1 htarget).form.1]
    by_cases same : targetTy = valueTy
    · rw [if_neg (not_not_intro same)]
      cases lvalue : target'.isLvalue with
      | false => exact adequate_reject fun _ _ judged => Bool.false_ne_true judged.1.2
      | true =>
        have marked := agrees₂.alike (alike_markInitialized _ target')
        exact (decides_accept marked).congr fun _ _ => and_congr_left fun _ => iff_of_true rfl ⟨same, rfl⟩
    · rw [if_pos same]
      exact adequate_reject fun _ _ judged => same judged.1.1
  · constructor
    · rintro ⟨_, htarget, _, hvalue, ⟨rfl, lvalue⟩, rfl⟩
      exact .assign htarget hvalue (Expr.isLvalue_iff.1 lvalue)
    · intro legal
      cases legal with
      | assign htarget hvalue place =>
        exact ⟨_, htarget, _, hvalue, ⟨rfl, Expr.isLvalue_iff.2 place⟩, rfl⟩

/-- Reading is accepted exactly if it is into a place of an unqualified type. The checker asks first that it is no
operator, which a place is not anyway. -/
theorem checkInput_adequate {target : Expr} {c : Checker} (agrees : Agrees env c.table scope) :
    (checkInput scope target c).Adequate scope fun _ env' => Stmt.Legal env (.input target) env' := by
  refine ((checkExpr_decides agrees).andThen
    (K := fun ty _ env' => (ty.isUnqualified = true ∧ target.isLvalue = true) ∧ env' = env)
    fun {target' _ ty} htarget _ agrees₁ => ?_).congr fun _ env' => ?_
  · rw [← (checkExpr_eq_accept.1 htarget).form.1]
    cases binary : isBinary target' with
    | true =>
      have notLvalue : target'.isLvalue = false := by
        cases target' <;> first | rfl | cases binary
      exact adequate_reject fun _ _ judged => Bool.false_ne_true (notLvalue.symm.trans judged.1.2)
    | false =>
      cases unqualified : ty.isUnqualified with
      | false => exact adequate_reject fun _ _ judged => Bool.false_ne_true judged.1.1
      | true =>
        cases lvalue : target'.isLvalue with
        | false => exact adequate_reject fun _ _ judged => Bool.false_ne_true judged.1.2
        | true =>
          have marked := agrees₁.alike (alike_markInitialized _ target')
          exact (decides_accept marked).congr fun _ _ => and_congr_left fun _ => iff_of_true rfl ⟨rfl, rfl⟩
  · constructor
    · rintro ⟨_, typed, ⟨unqualified, lvalue⟩, rfl⟩
      obtain ⟨p, rfl⟩ := Ty.isUnqualified_iff.1 unqualified
      exact .input typed (Expr.isLvalue_iff.1 lvalue)
    · intro legal
      cases legal with
      | input typed place => exact ⟨_, typed, ⟨rfl, Expr.isLvalue_iff.2 place⟩, rfl⟩

/-- The scope of a function once its parameters and its name are entered: the name is found in the scope around
it, unless a parameter has the same. -/
theorem agrees_inside {parameters parameters' : List Parameter} {tys : List Ty} {c c₁ : Checker}
    (entered : Parameter.AllPass scope (c.newScope scope).1 (c.newScope scope).2 parameters parameters' tys c₁)
    (length : parameters.length = tys.length) (outside : Agrees env c₁.table scope)
    (inside : Agrees (env.withParameters parameters tys) c₁.table (c.newScope scope).1) (s : Symbol) :
    Agrees (Env.withParameters (env.insert s.name ⟨s.kind, s.ty⟩) parameters tys)
      (c₁.table.insert scope s).2 (c.newScope scope).1 := by
  have added : (c.newScope scope).2.table.scopes[(c.newScope scope).1]? = some { parent := some scope } :=
    (c.table.scopes_newScope scope _).trans (if_pos rfl)
  obtain ⟨own, found, parent, names⟩ := entered.names added
  have frame := SymbolTable.frame_insert inside.proper scope s
  refine ⟨frame.proper, Nat.lt_of_lt_of_le inside.lt frame.size_le, fun name => ?_⟩
  rw [SymbolTable.lookup_insert_outer inside.proper found parent]
  split
  · rename_i mem
    have parameter := ((names name).1 mem).resolve_left List.not_mem_nil
    exact (Env.find?_withParameters_of_mem length parameter).trans (inside.find?_eq name)
  · rename_i absent
    have other : name ∉ parameters.map Parameter.name := fun mem => absent ((names name).2 (.inr mem))
    exact (Env.find?_withParameters_of_not_mem other).trans ((outside.insert s).find?_eq name)

/-- A block is accepted in a scope exactly if it is legal there, and does not show in the scopes around it. -/
theorem decides_inScope {outer : Nat} {outerEnv : Env} {statements : List Stmt} {own : Option ScopeId}
    {c : Checker} (checked : (checkStmts scope statements c).Adequate scope
      fun _ env' => Stmt.AllLegal env statements env')
    (inside : Agrees env c.table scope) (outside : Agrees outerEnv c.table outer) (lt : outer < scope) :
    ((checkStmts scope statements c).inScope scope).Decides outerEnv outer
      fun _ => Block.Legal env ⟨statements, own⟩ where
  sound accepted := by
    obtain ⟨tree, hstatements, -⟩ := Checked.inScope_eq_accept.1 accepted
    obtain ⟨env', legal, -⟩ := checked.sound hstatements
    have keeps := (checkStmts_eq_accept.1 hstatements).keeps inside.proper inside.lt
    exact ⟨outerEnv, ⟨.intro legal, rfl⟩, outside.outer keeps.toFrame lt⟩
  complete := by
    rintro _ _ ⟨⟨legal⟩, rfl⟩
    obtain ⟨tree, c', hstatements, -⟩ := checked.complete legal
    have keeps := (checkStmts_eq_accept.1 hstatements).keeps inside.proper inside.lt
    exact ⟨_, c', Checked.inScope_eq_accept.2 ⟨tree, hstatements, rfl⟩, outside.outer keeps.toFrame lt⟩

/-! ## Statements -/

mutual

/-- A statement is accepted exactly if it is legal. By induction on the statement, following the order in which
its parts are checked. -/
theorem checkStmt_adequate {env : Env} {scope : Nat} : (s : Stmt) → {c : Checker} →
    Agrees env c.table scope → (checkStmt scope s c).Adequate scope fun _ env' => Stmt.Legal env s env'
  | .block body, _, agrees => by
    rw [checkStmt]
    refine ((checkBlock_decides body agrees).andThen fun _ _ agrees₁ => decides_accept agrees₁).congr
      fun _ env' => ?_
    constructor
    · rintro ⟨_, legal, -, rfl⟩
      exact .block legal
    · intro legal
      cases legal with
      | block legal => exact ⟨(), legal, rfl, rfl⟩
  | .ifThen condition body, _, agrees => by
    rw [checkStmt]
    refine ((checkCondition_decides agrees).andThen fun _ _ agrees₁ =>
      (checkBlock_decides body agrees₁).andThen fun _ _ agrees₂ => decides_accept agrees₂).congr
      fun _ env' => ?_
    constructor
    · rintro ⟨_, typed, _, legal, -, rfl⟩
      exact .ifThen typed legal
    · intro legal
      cases legal with
      | ifThen typed legal => exact ⟨(), typed, (), legal, rfl, rfl⟩
  | .ifElse condition body otherwise, _, agrees => by
    rw [checkStmt]
    refine ((checkCondition_decides agrees).andThen fun _ _ agrees₁ =>
      (checkBlock_decides body agrees₁).andThen fun _ _ agrees₂ =>
      (checkStmt_adequate otherwise agrees₂).andThen fun _ _ agrees₃ => decides_accept agrees₃).congr
      fun _ env' => ?_
    constructor
    · rintro ⟨_, typed, _, legal, _, _, legal', -, rfl⟩
      exact .ifElse typed legal legal'
    · intro legal
      cases legal with
      | ifElse typed legal legal' => exact ⟨(), typed, (), legal, (), _, legal', rfl, rfl⟩
  | .whileLoop condition body, _, agrees => by
    rw [checkStmt]
    refine ((checkCondition_decides agrees).andThen fun _ _ agrees₁ =>
      (checkBlock_decides body agrees₁).andThen fun _ _ agrees₂ => decides_accept agrees₂).congr
      fun _ env' => ?_
    constructor
    · rintro ⟨_, typed, _, legal, -, rfl⟩
      exact .whileLoop typed legal
    · intro legal
      cases legal with
      | whileLoop typed legal => exact ⟨(), typed, (), legal, rfl, rfl⟩
  | .doWhile body condition, _, agrees => by
    rw [checkStmt]
    refine ((checkBlock_decides body agrees).andThen fun _ _ agrees₁ =>
      (checkCondition_decides agrees₁).andThen fun _ _ agrees₂ => decides_accept agrees₂).congr
      fun _ env' => ?_
    constructor
    · rintro ⟨_, legal, _, typed, -, rfl⟩
      exact .doWhile legal typed
    · intro legal
      cases legal with
      | doWhile legal typed => exact ⟨(), legal, (), typed, rfl, rfl⟩
  | .forLoop init condition step body, _, agrees => by
    rw [checkStmt]
    refine ((checkStmt_adequate init agrees).andThen fun _ _ agrees₁ =>
      (checkCondition_decides agrees₁).andThen fun _ _ agrees₂ =>
      (checkStmt_adequate step agrees₂).andThen fun _ _ agrees₃ =>
      (checkBlock_decides body agrees₃).andThen fun _ _ agrees₄ => decides_accept agrees₄).congr
      fun _ env' => ?_
    constructor
    · rintro ⟨_, _, hinit, _, typed, _, _, hstep, _, legal, -, rfl⟩
      exact .forLoop hinit typed hstep legal
    · intro legal
      cases legal with
      | forLoop hinit typed hstep legal =>
        exact ⟨(), _, hinit, (), typed, (), _, hstep, (), legal, rfl, rfl⟩
  | .function name parameters result body symbol, c, agrees => by
    rw [checkStmt]
    cases resolved : c.resolve scope result with
    | error e =>
      refine adequate_reject fun _ _ legal => ?_
      cases legal with
      | function denotes => cases resolved.symm.trans (agrees.resolve_eq_ok_iff.2 denotes)
    | ok resultTy =>
      have opened : SymbolTable.Frame c.table (c.newScope scope).2.table c.table.scopes.size :=
        SymbolTable.frame_newScope agrees.proper agrees.lt _
      have outside := agrees.outer opened agrees.lt
      -- Two environments are followed: the one inside, with the parameters, and the one around, which gets the name.
      refine ((checkParameters_adequate agrees.lt outside agrees.newScope).andThen
        (K := fun tys _ _ env' => (env.find? name = none ∧
          Block.Legal (Env.withParameters (env.insert name ⟨.function, resultTy⟩) parameters tys) body) ∧
          env' = env.insert name ⟨.function, resultTy⟩)
        fun {_ c₁ tys _} entered judged inside => ?_).congr fun _ env' => ?_
      · obtain ⟨denote, -, rfl⟩ := judged
        have passes := checkParameters_eq_accept.1 entered
        have keeps := passes.keeps opened.proper (c.lt_size_newScope scope)
        have outside₁ := outside.outer keeps.toFrame agrees.lt
        by_cases fresh : env.find? name = none
        · obtain ⟨id, c₂, defined, outside₂⟩ := outside₁.define (s := .forFunction name resultTy tys) fresh
          obtain ⟨-, -, rfl⟩ := define_eq_ok_iff.1 defined
          have inside₂ := agrees_inside passes denote.length_eq outside₁ inside
            (.forFunction name resultTy tys)
          simp only [defined]
          refine ((checkBlockIn_decides body inside₂ outside₂ agrees.lt).andThen
            fun _ _ agrees₃ => decides_accept agrees₃).congr fun _ _ => ?_
          constructor
          · rintro ⟨_, legal, -, rfl⟩
            exact ⟨⟨fresh, legal⟩, rfl⟩
          · rintro ⟨⟨-, legal⟩, rfl⟩
            exact ⟨(), legal, rfl, rfl⟩
        · obtain ⟨e, failed⟩ := outside₁.define_error (s := .forFunction name resultTy tys) fresh
          simp only [failed]
          exact adequate_reject fun _ _ judged => fresh judged.1.1
      · constructor
        · rintro ⟨tys, _, ⟨denote, unseen, -⟩, ⟨fresh, legal⟩, rfl⟩
          exact .function (agrees.resolve_eq_ok_iff.1 resolved) denote unseen fresh legal
        · intro legal
          cases legal with
          | function denotes denote unseen fresh legal =>
            cases resolved.symm.trans (agrees.resolve_eq_ok_iff.2 denotes)
            exact ⟨_, _, ⟨denote, unseen, rfl⟩, ⟨fresh, legal⟩, rfl⟩
  | .declare written ds, _, agrees => checkDeclare_adequate agrees
  | .assign target value, _, agrees => checkAssign_adequate agrees
  | .eval value, _, agrees => by
    rw [checkStmt]
    refine ((checkExpr_decides agrees).andThen fun _ _ agrees₁ => decides_accept agrees₁).congr
      fun _ env' => ?_
    constructor
    · rintro ⟨_, typed, -, rfl⟩
      exact .eval typed
    · intro legal
      cases legal with
      | eval typed => exact ⟨_, typed, rfl, rfl⟩
  | .print value, _, agrees => by
    rw [checkStmt]
    refine ((checkExpr_decides agrees).andThen fun _ _ agrees₁ => decides_accept agrees₁).congr
      fun _ env' => ?_
    constructor
    · rintro ⟨_, typed, -, rfl⟩
      exact .print typed
    · intro legal
      cases legal with
      | print typed => exact ⟨_, typed, rfl, rfl⟩
  | .input target, _, agrees => checkInput_adequate agrees
  | .breakLoop, _, _ | .continueLoop, _, _ | .returnValue _, _, _ => adequate_reject nofun

theorem checkBlock_decides {env : Env} {parent : Nat} : (b : Block) → {c : Checker} →
    Agrees env c.table parent → (checkBlock parent b c).Decides env parent fun _ => Block.Legal env b
  | ⟨statements, _⟩, c, agrees => by
    have opened : SymbolTable.Frame c.table (c.newScope parent).2.table c.table.scopes.size :=
      SymbolTable.frame_newScope agrees.proper agrees.lt _
    rw [checkBlock]
    exact decides_inScope (checkStmts_adequate statements agrees.newScope) agrees.newScope
      (agrees.outer opened agrees.lt) agrees.lt

theorem checkBlockIn_decides {env outerEnv : Env} {scope outer : Nat} : (b : Block) → {c : Checker} →
    Agrees env c.table scope → Agrees outerEnv c.table outer → outer < scope →
      (checkBlockIn scope b c).Decides outerEnv outer fun _ => Block.Legal env b
  | ⟨statements, _⟩, c, inside, outside, lt => by
    rw [checkBlockIn]
    exact decides_inScope (checkStmts_adequate statements inside) inside outside lt

theorem checkStmts_adequate {env : Env} {scope : Nat} : (statements : List Stmt) → {c : Checker} →
    Agrees env c.table scope →
      (checkStmts scope statements c).Adequate scope fun _ env' => Stmt.AllLegal env statements env'
  | [], _, agrees => by
    rw [checkStmts]
    refine (decides_accept agrees).congr fun _ env' => ?_
    constructor
    · rintro ⟨-, rfl⟩
      exact .nil
    · rintro ⟨⟩
      exact ⟨rfl, rfl⟩
  | statement :: rest, _, agrees => by
    rw [checkStmts]
    refine ((checkStmt_adequate statement agrees).andThen fun _ _ agrees₁ =>
      (checkStmts_adequate rest agrees₁).andThen fun _ _ agrees₂ => decides_accept agrees₂).congr
      fun _ env' => ?_
    constructor
    · rintro ⟨_, _, first, _, _, legal, -, rfl⟩
      exact .cons first legal
    · intro legal
      cases legal with
      | cons first legal => exact ⟨(), _, first, (), _, legal, rfl, rfl⟩

end

end Checker

/-! ## Programs -/

/-- The names of the primitive types are what can be seen before a program. -/
theorem agrees_initial : Agrees Env.initial SymbolTable.initial SymbolTable.global := by
  have entered : ∀ (ps : List Primitive) (env : Env) (t : SymbolTable), Agrees env t SymbolTable.global →
      Agrees (ps.foldl (fun env p => env.insert p.name ⟨.typeName, ⟨p, []⟩⟩) env)
        (ps.foldl (fun t p => (t.insert SymbolTable.global (.forType p.name ⟨p, []⟩)).2) t)
        SymbolTable.global := by
    intro ps
    induction ps with
    | nil => exact fun _ _ agrees => agrees
    | cons p ps ih => exact fun _ _ agrees => ih _ _ (agrees.insert (.forType p.name ⟨p, []⟩))
  have nothing : Agrees .empty { scopes := #[{}], symbols := #[] } SymbolTable.global :=
    ⟨SymbolTable.blank_proper, Nat.one_pos, fun _ => rfl⟩
  exact entered Primitive.all _ _ nothing

/-- Checking accepts a program exactly if it is legal. -/
theorem Block.check_eq_ok_iff_legal (program : Block) :
    program.check.outcome = .ok () ↔ program.Legal Env.initial := by
  have decides : (program.check).Decides Env.initial SymbolTable.global fun _ => program.Legal Env.initial :=
    Checker.checkBlock_decides program agrees_initial
  constructor
  · intro accepted
    have accepted' : program.check = .accept program.check.tree program.check.checker () :=
      congrArg (Checked.mk _ _) accepted
    obtain ⟨-, ⟨legal, -⟩, -⟩ := decides.sound accepted'
    exact legal
  · intro legal
    obtain ⟨tree, c, accepted, -⟩ := decides.complete ⟨legal, rfl⟩
    rw [accepted]
    rfl

end MiniC
