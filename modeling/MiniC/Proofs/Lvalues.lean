import MiniC.Proofs.Targets

/-!
# Reading and writing

The address of an element is lowered as its value is, and then the load at the end of the code is taken away; and so it
is with the base of every element on the way. Whatever load stands at the end would be taken away, so it has to be the
element's own: not one of the code that was there before, and not one of the base or of a subscript.

`Lowering.lowerExpr_eq_load_lowerAddress`: the value of a name or an element of a type without qualifiers is lowered as
its address and one load, and nothing else changes. Subscripts are integers, and no integer has a string in it, so that
not even a number is drawn.
-/

namespace MiniC

/-- The value of a name or an element of a type without qualifiers is what its address leads to. -/
theorem Expr.Typed.code_eq {types : SymbolId → Option Ty} {x : Expr} {ty : Ty} (typed : x.Typed types ty)
    (lvalue : x.isLvalue) (plain : ty.isUnqualified) (labels : SymbolId → Option String) (number : Nat) :
    x.code labels number = x.addressCode labels number ++ [⟨.load, .none⟩] := by
  cases typed with
  | name _ => rfl
  | index _ _ _ => rw [Expr.code_index, isLoaded, Option.any_some, if_pos plain]
  | literal | unary | binary => cases lvalue

namespace Lowering

variable {types : SymbolId → Option Ty} {x : Expr} {ty : Ty} {e e' : Emission}

/-- What emits neither literals nor storage only appends code. -/
theorem Emitted.eq_append {code : (SymbolId → Option String) → List Instruction}
    {has : (SymbolId → Option String) → Prop} (h : Emitted e e' code 0 [] [] has) :
    e' = { e with code := e.code ++ (code e.table.label?).toArray } := by
  have table : e'.table = e.table := h.table_eq
  obtain ⟨-, appended⟩ := h.code_eq e.table.label? fun id label found => table ▸ found
  have code_eq : e'.code = e.code ++ (code e.table.label?).toArray := by
    apply Array.toList_inj.1
    rw [appended, Array.toList_append]
  cases e'
  cases table
  cases code_eq
  cases h.nextId_eq
  cases h.readOnly_eq
  cases h.static_eq
  rfl

/-- Names and elements have no strings in them, so that lowering their value only appends code. -/
theorem lowerExpr_eq_append (typed : x.Typed types ty) (lvalue : x.isLvalue) {u : Unit}
    (lowered : lowerExpr x e = .ok u e') :
    e' = { e with code := e.code ++ (x.code e.table.label? e.nextId).toArray } := by
  have emitted := lowerExpr_emitted typed lowered
  have none : x.numbers = 0 := typed.numbers_eq_zero (.inr lvalue)
  rw [none, Expr.literals_eq_nil none] at emitted
  exact emitted.eq_append

theorem dropTrailingLoad_push (e : Emission) (code : Array Instruction) :
    dropTrailingLoad { e with code := code.push ⟨.load, .none⟩ } = .ok () { e with code } := by
  rw [dropTrailingLoad, Array.back?_push]
  show EStateM.Result.ok () { e with code := (code.push ⟨.load, .none⟩).pop } = _
  rw [Array.pop_push]

/-- Where the value is lowered, so is the address, to the same code without the load. -/
theorem lowerAddress_of_lowerExpr (typed : x.Typed types ty) (lvalue : x.isLvalue) (plain : ty.isUnqualified)
    {u : Unit} (lowered : lowerExpr x e = .ok u e') :
    lowerAddress x e = .ok () { e with code := e.code ++ (x.addressCode e.table.label? e.nextId).toArray } ∧
      e' = { e with code := (e.code ++ (x.addressCode e.table.label? e.nextId).toArray).push ⟨.load, .none⟩ } := by
  have value : e' =
      { e with code := (e.code ++ (x.addressCode e.table.label? e.nextId).toArray).push ⟨.load, .none⟩ } := by
    rw [lowerExpr_eq_append typed lvalue lowered, typed.code_eq lvalue plain]
    simp
  refine ⟨?_, value⟩
  cases typed with
  | @name spelling id ty _ =>
    obtain ⟨label, e₁, found, -⟩ := bind_eq_ok.1 lowered
    obtain ⟨rfl, _, ⟨⟩, labelled⟩ := storageLabel_eq_ok found
    refine (bind_of_ok found).trans ?_
    simp [emit, Expr.addressCode, labelOf, labelled]
  | index _ _ _ =>
    rw [value] at lowered
    exact (bind_of_ok lowered).trans (dropTrailingLoad_push e _)
  | literal | unary | binary => cases lvalue

/-- Where the value is not lowered, the address is not either, for the same reason and with the same code so far. -/
theorem lowerAddress_of_error (lvalue : x.isLvalue) {cause : EmitError}
    (failed : lowerExpr x e = .error cause e') : lowerAddress x e = .error cause e' := by
  cases x with
  | name spelling symbol ty =>
    rcases bind_eq_error.1 failed with failed | ⟨label, e₁, -, failed⟩
    · exact bind_of_error failed
    · cases failed
  | index base position ty => exact bind_of_error failed
  | literal | unary | binary | call => cases lvalue

/-- Reading and writing use the same address. Take a name or an element that has been checked and has a type without
qualifiers. From any state of lowering, its value is lowered exactly as its address with a load after it, also if
this fails. If it succeeds, lowering the address has appended the code of the address, in which the base is an address
too and every subscript a value; lowering the value has appended the same code and the load; and all that was there
before has stayed. -/
theorem lowerExpr_eq_load_lowerAddress {scope : ScopeId} {written x : Expr} {c c' : Checker} {ty : Ty}
    (checked : Checker.checkExpr scope written c = .accept x c' ty) (lvalue : x.isLvalue)
    (plain : ty.isUnqualified) (e : Emission) :
    lowerExpr x e = (do lowerAddress x; emitOp .load) e ∧
      ∀ e', lowerExpr x e = .ok () e' → ∃ address : Array Instruction,
        lowerAddress x e = .ok () { e with code := e.code ++ address } ∧
        e' = { e with code := (e.code ++ address).push ⟨.load, .none⟩ } ∧
        address.toList = x.addressCode e.table.label? e.nextId := by
  obtain ⟨-, -, typed⟩ := Checker.checkExpr_typed checked
  constructor
  · cases lowered : lowerExpr x e with
    | ok u e' =>
      obtain ⟨address, value⟩ := lowerAddress_of_lowerExpr typed lvalue plain lowered
      rw [value, bind_of_ok address]
      rfl
    | error cause e' => rw [bind_of_error (lowerAddress_of_error lvalue lowered)]
  · intro e' lowered
    obtain ⟨address, value⟩ := lowerAddress_of_lowerExpr typed lvalue plain lowered
    exact ⟨_, address, value, rfl⟩

/-- An element through a pointer, with a subscript that is read from a matrix, after code that ends with a load: the
loads before it and in it stay, and the last one is the only difference. -/
theorem lowerExpr_eq_load_lowerAddress_pointer :
    ∃ (t : SymbolTable) (c' : Checker) (x : Expr) (e e' : Emission) (address : Array Instruction),
      t.symbols = #[{ Symbol.forVariable "p" ⟨.int, [.pointer]⟩ with label := some "v_p_0" },
        { Symbol.forVariable "m" ⟨.int, [.array 3, .array 4]⟩ with label := some "v_m_1" }] ∧
      Checker.checkExpr SymbolTable.global (.index (.name "p") (.index (.index (.name "m") (.literal (.int 1)))
        (.literal (.int 2)))) { table := t } = .accept x c' .int ∧
      x.isLvalue ∧ Ty.int.isUnqualified ∧ e.table = t ∧ e.code = #[⟨.load, .none⟩] ∧ lowerExpr x e = .ok () e' ∧
      address.toList = [.pushLabel "v_p_0", .pushLabel "v_m_1", .pushInt 1, .pushInt 16, ⟨.mul, .none⟩, ⟨.add, .none⟩,
        .pushInt 2, .pushInt 4, ⟨.mul, .none⟩, ⟨.add, .none⟩, ⟨.load, .none⟩, .pushInt 4, ⟨.mul, .none⟩,
        ⟨.add, .none⟩] ∧
      lowerAddress x e = .ok () { e with code := e.code ++ address } ∧
      e' = { e with code := (e.code ++ address).push ⟨.load, .none⟩ } := by
  generalize hx : Expr.index (.name "p" (some 0) (some ⟨.int, [.pointer]⟩))
    (.index (.index (.name "m" (some 1) (some ⟨.int, [.array 3, .array 4]⟩)) (.literal (.int 1) (some .int))
      (some ⟨.int, [.array 4]⟩)) (.literal (.int 2) (some .int)) (some .int)) (some .int) = x
  generalize ht : SymbolTable.mk #[{ names := (Catalogue.empty.insert "p" 0).insert "m" 1 }]
    #[{ Symbol.forVariable "p" ⟨.int, [.pointer]⟩ with label := some "v_p_0" },
      { Symbol.forVariable "m" ⟨.int, [.array 3, .array 4]⟩ with label := some "v_m_1" }] = t
  have checked : ∃ c', Checker.checkExpr SymbolTable.global (.index (.name "p") (.index (.index (.name "m")
      (.literal (.int 1))) (.literal (.int 2)))) { table := t } = .accept x c' .int := by
    subst hx ht
    exact ⟨_, rfl⟩
  have has : x.HasCode t.label? := by
    subst hx ht
    exact ⟨⟨_, _, rfl, rfl⟩, ⟨_, _, rfl, rfl⟩, ⟨_, _, rfl, rfl⟩, ⟨⟨_, _, rfl, rfl⟩, ⟨_, _, rfl, rfl⟩, trivial⟩, trivial⟩
  have lvalue : x.isLvalue := by
    subst hx
    rfl
  obtain ⟨c', checked⟩ := checked
  let e : Emission := { table := t, code := #[⟨.load, .none⟩], nextId := 2 }
  obtain ⟨e', lowered, -⟩ := exists_lowerExpr (Checker.checkExpr_typed checked).2.2 has e rfl
  obtain ⟨address, written, read, code⟩ := (lowerExpr_eq_load_lowerAddress checked lvalue rfl e).2 e' lowered
  refine ⟨t, c', x, e, e', address, ht ▸ rfl, checked, lvalue, rfl, rfl, rfl, lowered, code.trans ?_, written, read⟩
  subst hx ht
  rfl

end Lowering

end MiniC
