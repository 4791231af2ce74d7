import MiniC.Proofs.Code

/-!
# What lowering emits

`Lowering.lowerBlock_emitted`: whenever lowering succeeds on a typed tree whose declared symbols are
different from each other and have no storage yet, the tree has code, and lowering appends that code,
draws that many numbers, and enters those literals and that storage.

A name is lowered to the label that its symbol has at that moment. Since no symbol is given storage
twice, this is the label that it has in the end, so the code is described by the final labels: `Emitted`
speaks of all labels that agree with the table at its end.
-/

namespace MiniC

/-! ## Declared symbols and storage -/

/-- The names of a declaration are given storage in their order. -/
theorem Declarator.map_fst_allStorage (number : Nat) (ds : List Declarator) :
    (Declarator.allStorage number ds).map Prod.fst = ds.filterMap Declarator.symbol := by
  induction ds generalizing number with
  | nil => rfl
  | cons d ds ih =>
    cases hd : d.symbol with
    | none => simp [allStorage, hd, ih]
    | some id => simp [allStorage, hd, ih]

mutual

/-- What is given storage is what is declared. -/
theorem Stmt.map_fst_storage (number : Nat) :
    (s : Stmt) → (s.storage number).map Prod.fst = s.declared
  | .block body => Block.map_fst_storage _ body
  | .ifThen _ body | .whileLoop _ body | .doWhile body _ => Block.map_fst_storage _ body
  | .ifElse _ body otherwise => by
    rw [Stmt.storage, Stmt.declared, List.map_append, Block.map_fst_storage, Stmt.map_fst_storage]
  | .forLoop init _ step body => by
    rw [Stmt.storage, Stmt.declared, List.map_append, List.map_append, Stmt.map_fst_storage,
      Block.map_fst_storage, Stmt.map_fst_storage]
  | .declare _ ds => Declarator.map_fst_allStorage number ds
  | .assign .. | .eval _ | .print _ | .input _ | .function .. | .breakLoop | .continueLoop
  | .returnValue _ => rfl

theorem Block.map_fst_storage (number : Nat) :
    (b : Block) → (b.storage number).map Prod.fst = b.declared
  | ⟨statements, _⟩ => Stmt.map_fst_allStorage number statements

theorem Stmt.map_fst_allStorage (number : Nat) :
    (statements : List Stmt) →
      (Stmt.allStorage number statements).map Prod.fst = Stmt.allDeclared statements
  | [] => rfl
  | statement :: rest => by
    rw [Stmt.allStorage, Stmt.allDeclared, List.map_append, Stmt.map_fst_storage,
      Stmt.map_fst_allStorage]

end

namespace Lowering

/-! ## Parts of the code -/

/-- The labels that a table gives are among the given ones. -/
def Agrees (t : SymbolTable) (labels : SymbolId → Option String) : Prop :=
  ∀ id label, t.label? id = some label → labels id = some label

/-- Between two emissions the given code, literals and storage have been added, and the given number
of numbers has been drawn. The code is for final labels; they have to satisfy `has`. -/
structure Emitted (e e' : Emission) (code : (SymbolId → Option String) → List Instruction)
    (numbers : Nat) (literals : List (Nat × String)) (storage : List (SymbolId × Nat))
    (has : (SymbolId → Option String) → Prop) : Prop where
  code_eq : ∀ labels, Agrees e'.table labels →
    has labels ∧ e'.code.toList = e.code.toList ++ code labels
  nextId_eq : e'.nextId = e.nextId + numbers
  readOnly_eq : e'.readOnly = addLiterals e.readOnly literals
  table_eq : e'.table = storage.foldl SymbolTable.place e.table
  static_eq : e'.static = addStorage e.table.described? e.static storage
  storable : ∀ entry ∈ storage, ∃ s, e.table.described? entry.1 = some s ∧ s.Storable
  fresh : ∀ id ∈ storage.map Prod.fst, e.table.label? id = none

namespace Emitted

variable {e e' e'' : Emission} {code code' : (SymbolId → Option String) → List Instruction}
  {numbers numbers' : Nat} {literals literals' : List (Nat × String)}
  {storage storage' : List (SymbolId × Nat)} {has has' : (SymbolId → Option String) → Prop}

theorem refl (e : Emission) : Emitted e e (fun _ => []) 0 [] [] (fun _ => True) where
  code_eq _ _ := ⟨trivial, by simp⟩
  nextId_eq := rfl
  readOnly_eq := rfl
  table_eq := rfl
  static_eq := rfl
  storable := by simp
  fresh := by simp

/-- Symbols that are not given storage keep their label. -/
theorem label?_eq (h : Emitted e e' code numbers literals storage has) {id : SymbolId}
    (notMem : id ∉ storage.map Prod.fst) : e'.table.label? id = e.table.label? id := by
  rw [h.table_eq, SymbolTable.label?_places_of_notMem _ _ _ notMem]

/-- Labels that agree with the end agree with the start. -/
theorem agrees (h : Emitted e e' code numbers literals storage has)
    {labels : SymbolId → Option String} (agrees : Agrees e'.table labels) :
    Agrees e.table labels := by
  intro id label found
  by_cases mem : id ∈ storage.map Prod.fst
  · rw [h.fresh id mem] at found
    cases found
  · exact agrees id label (by rw [h.label?_eq mem, found])

/-- Storage gives labels and changes nothing else of what the table says. -/
theorem described?_eq (h : Emitted e e' code numbers literals storage has) :
    e'.table.described? = e.table.described? := by
  funext id
  rw [h.table_eq, SymbolTable.described?_places]

/-- A symbol without a label at the end had none at the start. -/
theorem unlabelled (h : Emitted e e' code numbers literals storage has) {id : SymbolId}
    (unset : e'.table.label? id = none) : e.table.label? id = none := by
  by_cases mem : id ∈ storage.map Prod.fst
  · exact h.fresh id mem
  · rw [← h.label?_eq mem, unset]

/-- One part after another. The code of the first is for the labels at its own end, and labels that agree with the end
of both agree with that too, since what has a label keeps it. -/
theorem trans (h : Emitted e e' code numbers literals storage has)
    (h' : Emitted e' e'' code' numbers' literals' storage' has') :
    Emitted e e'' (fun labels => code labels ++ code' labels) (numbers + numbers')
      (literals ++ literals') (storage ++ storage') (fun labels => has labels ∧ has' labels) where
  code_eq labels agrees := by
    obtain ⟨hhas', heq'⟩ := h'.code_eq labels agrees
    obtain ⟨hhas, heq⟩ := h.code_eq labels (h'.agrees agrees)
    exact ⟨⟨hhas, hhas'⟩, by rw [heq', heq, List.append_assoc]⟩
  nextId_eq := by rw [h'.nextId_eq, h.nextId_eq, Nat.add_assoc]
  readOnly_eq := by rw [h'.readOnly_eq, h.readOnly_eq, addLiterals, addLiterals, addLiterals,
    List.foldl_append]
  table_eq := by rw [h'.table_eq, h.table_eq, List.foldl_append]
  static_eq := by rw [h'.static_eq, h.static_eq, h.described?_eq, addStorage, addStorage, addStorage,
    List.foldl_append]
  storable entry mem := by
    rcases List.mem_append.1 mem with mem | mem
    · exact h.storable entry mem
    · exact h.described?_eq ▸ h'.storable entry mem
  fresh id mem := by
    rw [List.map_append] at mem
    rcases List.mem_append.1 mem with mem | mem
    · exact h.fresh id mem
    · exact h.unlabelled (h'.fresh id mem)

/-- The same, described differently. -/
theorem congr (h : Emitted e e' code numbers literals storage has)
    (hcode : ∀ labels, code labels = code' labels) (hnumbers : numbers = numbers')
    (hliterals : literals = literals') (hstorage : storage = storage')
    (hhas : ∀ labels, has labels → has' labels) :
    Emitted e e' code' numbers' literals' storage' has' := by
  subst hnumbers hliterals hstorage
  refine ⟨fun labels agrees => ?_, h.nextId_eq, h.readOnly_eq, h.table_eq, h.static_eq, h.storable,
    h.fresh⟩
  obtain ⟨hhas', heq⟩ := h.code_eq labels agrees
  exact ⟨hhas labels hhas', hcode labels ▸ heq⟩

end Emitted

/-! ## Steps -/

variable {e e' : Emission}

/-- One instruction. -/
theorem emitted_emit {i : Instruction} {u : Unit} (h : emit i e = .ok u e') :
    Emitted e e' (fun _ => [i]) 0 [] [] (fun _ => True) := by
  cases h
  exact ⟨fun _ _ => ⟨trivial, by simp⟩, rfl, rfl, rfl, rfl, by simp, by simp⟩

/-- One more instruction at the end. -/
theorem Emitted.trans_emit {e'' : Emission} {code : (SymbolId → Option String) → List Instruction}
    {numbers : Nat} {literals : List (Nat × String)} {storage : List (SymbolId × Nat)}
    {has : (SymbolId → Option String) → Prop} (h : Emitted e e' code numbers literals storage has)
    {i : Instruction} {u : Unit} (emitted : emit i e' = .ok u e'') :
    Emitted e e'' (fun labels => code labels ++ [i]) numbers literals storage has :=
  (h.trans (emitted_emit emitted)).congr (fun _ => rfl) rfl (List.append_nil _) (List.append_nil _)
    fun _ => And.left

/-- A number is drawn and is the next one. -/
theorem emitted_freshId {number : Nat} (h : freshId e = .ok number e') :
    number = e.nextId ∧ Emitted e e' (fun _ => []) 1 [] [] (fun _ => True) := by
  cases h
  exact ⟨rfl, fun _ _ => ⟨trivial, by simp⟩, rfl, rfl, rfl, rfl, by simp, by simp⟩

/-- A literal draws a number and is entered under its label. -/
theorem emitted_addLiteral {value label : String} (h : addLiteral value e = .ok label e') :
    label = literalLabel e.nextId ∧
      Emitted e e' (fun _ => []) 1 [(e.nextId, value)] [] (fun _ => True) := by
  cases h
  exact ⟨rfl, fun _ _ => ⟨trivial, by simp⟩, rfl, rfl, rfl, rfl, by simp, by simp⟩

/-- A label is found where the symbol has one, and finding it emits nothing. -/
theorem storageLabel_eq_ok {symbol : Option SymbolId} {name label : String}
    (h : storageLabel symbol name e = .ok label e') :
    e = e' ∧ ∃ id, symbol = some id ∧ e.table.label? id = some label := by
  obtain ⟨_, _, hget, h⟩ := bind_eq_ok.1 h
  cases hget
  cases hlabel : (symbol.bind e.table.symbol?).bind Symbol.label with
  | none =>
    simp only [hlabel] at h
    cases h
  | some found =>
    simp only [hlabel] at h
    cases h
    obtain ⟨s, hs, hl⟩ := Option.bind_eq_some_iff.1 hlabel
    obtain ⟨id, hid, hs⟩ := Option.bind_eq_some_iff.1 hs
    exact ⟨rfl, id, hid, by simp [SymbolTable.label?, hs, hl]⟩

/-- A name is lowered to the label that its symbol has in the end. -/
theorem emitted_pushLabel {id : SymbolId} {label : String} {u : Unit}
    (found : e.table.label? id = some label) (h : emit (.pushLabel label) e = .ok u e') :
    Emitted e e' (fun labels => [.pushLabel (labelOf labels (some id))]) 0 [] []
      (fun labels => labels id = some label) := by
  cases h
  refine ⟨fun labels agrees => ?_, rfl, rfl, rfl, rfl, by simp, by simp⟩
  have final : labels id = some label := agrees id label found
  exact ⟨final, by simp [labelOf, final]⟩

/-- To ask for a size emits nothing. -/
theorem liftLayout_eq_ok {α : Type} {x : Except LayoutError α} {a : α}
    (h : liftLayout x e = .ok a e') : x = .ok a ∧ e = e' := by
  cases x with
  | ok b => cases h; exact ⟨rfl, rfl⟩
  | error cause => cases h

/-- To ask for the type of an expression is to read its annotation. -/
theorem typeOf_eq_ok {x : Expr} {ty : Ty} (h : typeOf x e = .ok ty e') :
    x.ty? = some ty ∧ e = e' := by
  unfold typeOf at h
  cases hty : x.ty? with
  | none =>
    simp only [hty] at h
    cases h
  | some found =>
    simp only [hty] at h
    cases h
    exact ⟨rfl, rfl⟩

/-- Only variables and parameters have a letter for their labels. -/
theorem storageLetter_eq_ok {s : Symbol} {letter : String} (h : storageLetter s e = .ok letter e') :
    e = e' ∧ (s.kind = .variable ∨ s.kind = .parameter) ∧
      letter = if s.kind = .variable then "v" else "p" := by
  unfold storageLetter at h
  cases hk : s.kind <;> simp only [hk] at h <;> cases h
  · exact ⟨rfl, .inl rfl, rfl⟩
  · exact ⟨rfl, .inr rfl, rfl⟩

/-- Storage comes with a label of its own, which the symbol keeps. -/
theorem emitted_allocate {id : SymbolId} {label : String} (unlabelled : e.table.label? id = none)
    (h : allocate id e = .ok label e') :
    Emitted e e' (fun _ => []) 1 [] [(id, e.nextId)] (fun labels => labels id = some label) ∧
      e'.table.label? id = some label := by
  obtain ⟨_, _, hget, h⟩ := bind_eq_ok.1 h
  cases hget
  cases hs : e.table.symbol? id with
  | none =>
    simp only [hs] at h
    cases h
  | some s =>
    simp only [hs] at h
    obtain ⟨letter, _, hletter, h⟩ := bind_eq_ok.1 h
    obtain ⟨rfl, kind, rfl⟩ := storageLetter_eq_ok hletter
    obtain ⟨size, _, lifted, h⟩ := bind_eq_ok.1 h
    obtain ⟨hsize, rfl⟩ := liftLayout_eq_ok lifted
    obtain ⟨alignment, _, lifted', h⟩ := bind_eq_ok.1 h
    obtain ⟨halignment, rfl⟩ := liftLayout_eq_ok lifted'
    have described : e.table.described? id = some s.described := by
      rw [SymbolTable.described?, hs]
      rfl
    have block : s.described.storageBlock = ⟨size, alignment⟩ := by
      simp [Symbol.storageBlock, Symbol.described, hsize, halignment, Except.toOption]
    have storable : s.described.Storable := by
      refine ⟨kind, ?_, ?_⟩
      · rw [block]; exact hsize
      · rw [block]; exact halignment
    -- The table with the label is the one that the description of storage speaks of.
    have table : e.table.modifySymbol id
        (fun s' => { s' with label := some (s.storageLabel e.nextId) }) =
          e.table.place (id, e.nextId) :=
      (SymbolTable.place_eq hs e.nextId).symm
    have static : addStorage e.table.described? e.static [(id, e.nextId)] =
        e.static.insert (s.storageLabel e.nextId) ⟨size, alignment⟩ := by
      simp only [addStorage, List.foldl_cons, List.foldl_nil, described, block]
      rfl
    have found : (e.table.modifySymbol id
        (fun s' => { s' with label := some (s.storageLabel e.nextId) })).label? id =
          some (s.storageLabel e.nextId) := by
      rw [table, SymbolTable.label?_place, if_pos rfl, described]
      rfl
    cases h
    refine ⟨⟨fun labels agrees => ⟨agrees _ _ found, by simp⟩, rfl, rfl, table, static.symm, ?_, ?_⟩,
      found⟩
    · simpa using ⟨_, described, storable⟩
    · simpa using unlabelled

/-! ## Expressions -/

section Drop

variable {e'' : Emission} {code : (SymbolId → Option String) → List Instruction} {numbers : Nat}
  {literals : List (Nat × String)} {storage : List (SymbolId × Nat)}
  {has : (SymbolId → Option String) → Prop} {u : Unit}

/-- The instruction that was emitted last is the last of the code. -/
theorem Emitted.back?_eq {i : Instruction}
    (h : Emitted e e' (fun labels => code labels ++ [i]) numbers literals storage has) :
    e'.code.back? = some i := by
  obtain ⟨-, heq⟩ := h.code_eq e'.table.label? fun _ _ found => found
  rw [← Array.getLast?_toList, heq]
  simp

/-- A load at the end is taken away. -/
theorem Emitted.drop_load
    (h : Emitted e e' (fun labels => code labels ++ [⟨.load, .none⟩]) numbers literals storage has)
    (dropped : dropTrailingLoad e' = .ok u e'') :
    Emitted e e'' code numbers literals storage has := by
  rw [dropTrailingLoad, h.back?_eq] at dropped
  cases dropped
  refine ⟨fun labels agrees => ?_, h.nextId_eq, h.readOnly_eq, h.table_eq, h.static_eq, h.storable,
    h.fresh⟩
  obtain ⟨hhas, heq⟩ := h.code_eq labels agrees
  refine ⟨hhas, ?_⟩
  show e'.code.pop.toList = _
  rw [Array.toList_pop, heq, ← List.append_assoc, List.dropLast_concat]

/-- Anything else at the end stays. -/
theorem Emitted.drop_other {i : Instruction} (ne : i.op ≠ .load)
    (h : Emitted e e' (fun labels => code labels ++ [i]) numbers literals storage has)
    (dropped : dropTrailingLoad e' = .ok u e'') : e' = e'' := by
  rw [dropTrailingLoad, h.back?_eq] at dropped
  split at dropped
  · rename_i operand found
    cases found
    exact absurd rfl ne
  · cases dropped
    rfl

/-- Without its last load, the code of a name or an element computes the address. -/
theorem Emitted.drop_address {x : Expr} (lvalue : x.isLvalue) {number : Nat}
    (h : Emitted e e' (fun labels => x.code labels number) numbers literals storage has)
    (dropped : dropTrailingLoad e' = .ok u e'') :
    Emitted e e'' (fun labels => x.addressCode labels number) numbers literals storage has := by
  cases x with
  | name spelling symbol ty => exact Emitted.drop_load h dropped
  | index base position ty =>
    by_cases loaded : isLoaded ty
    · refine Emitted.drop_load (h.congr (fun labels => ?_) rfl rfl rfl fun _ => id) dropped
      rw [Expr.code_index, if_pos loaded]
    · have address : Emitted e e' (fun labels => (Expr.index base position ty).addressCode labels number)
          numbers literals storage has := by
        refine h.congr (fun labels => ?_) rfl rfl rfl fun _ => id
        rw [Expr.code_index, if_neg loaded, List.append_nil]
      have ends : Emitted e e' (fun labels => (base.addressCode labels number ++
          (position.code labels (number + base.numbers) ++ [.pushInt (strideOf ty), ⟨.mul, .none⟩])) ++
            [⟨.add, .none⟩]) numbers literals storage has := by
        refine address.congr (fun labels => ?_) rfl rfl rfl fun _ => id
        simp [Expr.addressCode]
      exact Emitted.drop_other (by decide) ends dropped ▸ address
  | literal value ty => cases lvalue
  | unary op operand ty => cases lvalue
  | binary op left right ty => cases lvalue
  | call callee arguments ty => cases lvalue

end Drop

end Lowering

/-- Operators give values of unqualified types, so what they give has no elements. -/
theorem UnaryOp.result?_isUnqualified {op : UnaryOp} {ty result : Ty}
    (h : op.result? ty = some result) : result.isUnqualified := by
  unfold UnaryOp.result? at h
  split at h
  · cases h
    simp_all
  · cases h

/-- Operators between operands give values of unqualified types. -/
theorem BinaryOp.result?_isUnqualified {op : BinaryOp} {ty ty' result : Ty}
    (h : op.result? ty ty' = some result) : result.isUnqualified := by
  unfold BinaryOp.result? at h
  split at h
  · rename_i accepted
    cases h
    rw [Bool.and_eq_true, Bool.and_eq_true] at accepted
    split
    · rfl
    · exact accepted.1.1
  · cases h

/-- What has elements has a qualifier. -/
theorem Ty.not_isUnqualified_of_element? {ty element : Ty} (h : ty.element? = some element) :
    ¬ ty.isUnqualified := by
  obtain ⟨primitive, qualifiers⟩ := ty
  cases qualifiers with
  | nil => cases h
  | cons => simp [Ty.isUnqualified]

/-- Only names and elements are of a type with qualifiers. -/
theorem Expr.Typed.isLvalue_of_element {types : SymbolId → Option Ty} {x : Expr} {ty element : Ty}
    (h : x.Typed types ty) (qualified : ty.element? = some element) : x.isLvalue := by
  cases h with
  | name _ => rfl
  | index _ _ _ => rfl
  | literal value => cases value <;> cases qualified
  | unary _ result =>
    exact absurd (UnaryOp.result?_isUnqualified result) (Ty.not_isUnqualified_of_element? qualified)
  | binary _ _ result =>
    exact absurd (BinaryOp.result?_isUnqualified result) (Ty.not_isUnqualified_of_element? qualified)

namespace Lowering

variable {e e' : Emission}

/-- A literal is one push; only that of a string draws a number. -/
theorem emitted_lowerLiteral {value : Literal} {u : Unit} (h : lowerLiteral value e = .ok u e')
    (ty : Option Ty) :
    Emitted e e' (fun _ => [Expr.literalCode e.nextId value]) (Expr.literal value ty).numbers
      ((Expr.literal value ty).literals e.nextId) [] (Expr.literal value ty).HasCode := by
  cases value with
  | int value => exact emitted_emit h
  | bool value => exact emitted_emit h
  | char value => exact emitted_emit h
  | string value =>
    obtain ⟨label, e₁, stored, h⟩ := bind_eq_ok.1 h
    obtain ⟨rfl, added⟩ := emitted_addLiteral stored
    exact (added.trans_emit h).congr (fun _ => rfl) rfl rfl rfl fun _ _ => trivial
  | float value => cases h

/-- Lowering an expression appends its code. -/
theorem lowerExpr_emitted {types : SymbolId → Option Ty} {x : Expr} {ty : Ty} (typed : x.Typed types ty)
    {u : Unit} (h : lowerExpr x e = .ok u e') :
    Emitted e e' (fun labels => x.code labels e.nextId) x.numbers (x.literals e.nextId) []
      x.HasCode := by
  induction typed generalizing e e' u with
  | literal value =>
    simp only [lowerExpr] at h
    exact (emitted_lowerLiteral h _).congr (fun _ => rfl) rfl rfl rfl fun _ => id
  | name _ =>
    simp only [lowerExpr] at h
    obtain ⟨label, e₁, found, h⟩ := bind_eq_ok.1 h
    obtain ⟨rfl, id, ⟨⟩, labelled⟩ := storageLabel_eq_ok found
    obtain ⟨_, e₁, pushed, h⟩ := bind_eq_ok.1 h
    exact ((emitted_pushLabel labelled pushed).trans_emit h).congr (fun _ => rfl) rfl rfl rfl
      fun _ has => ⟨_, label, rfl, has⟩
  | unary _ _ ih =>
    rename_i op operand _ _ _ _
    simp only [lowerExpr] at h
    obtain ⟨_, e₁, lowered, h⟩ := bind_eq_ok.1 h
    have first := ih lowered
    cases hop : unaryOpCode? op with
    | none =>
      simp only [hop] at h
      cases h
      exact first.congr (fun _ => by simp [Expr.code, hop]) rfl rfl rfl fun _ => id
    | some code =>
      simp only [hop] at h
      exact (first.trans_emit h).congr (fun _ => by simp [Expr.code, hop]) rfl rfl rfl fun _ => id
  | binary _ _ _ ihl ihr =>
    simp only [lowerExpr] at h
    obtain ⟨_, e₁, left, h⟩ := bind_eq_ok.1 h
    obtain ⟨_, e₂, right, h⟩ := bind_eq_ok.1 h
    have first := ihl left
    have second := ihr right
    rw [first.nextId_eq] at second
    exact (first.trans (second.trans_emit h)).congr (fun _ => rfl) rfl rfl rfl fun _ => id
  | index baseTyped _ qualified ihb ihp =>
    rename_i base position _ element _
    simp only [lowerExpr] at h
    obtain ⟨_, e₁, found, h⟩ := bind_eq_ok.1 h
    obtain ⟨hty, rfl⟩ := typeOf_eq_ok found
    cases hty
    obtain ⟨size, e₁, lifted, h⟩ := bind_eq_ok.1 h
    obtain ⟨hsize, rfl⟩ := liftLayout_eq_ok lifted
    obtain ⟨_, e₁, lowered, h⟩ := bind_eq_ok.1 h
    obtain ⟨_, e₂, dropped, h⟩ := bind_eq_ok.1 h
    obtain ⟨_, e₃, lowered', h⟩ := bind_eq_ok.1 h
    obtain ⟨_, e₄, pushed, h⟩ := bind_eq_ok.1 h
    obtain ⟨_, e₅, multiplied, h⟩ := bind_eq_ok.1 h
    obtain ⟨_, e₆, added, h⟩ := bind_eq_ok.1 h
    -- The base has elements, so it is a place, and its code without the last load is its address.
    have first := (ihb lowered).drop_address (baseTyped.isLvalue_of_element qualified) dropped
    have second := ihp lowered'
    rw [first.nextId_eq] at second
    have address := (((first.trans second).trans_emit pushed).trans_emit multiplied).trans_emit added
    have stride : strideOf (some element) = Int32.ofNat size := by
      simp [strideOf, hsize]
    -- An element that is an array itself stays an address.
    cases hloaded : element.isUnqualified with
    | false =>
      rw [hloaded] at h
      cases h
      refine address.congr (fun _ => ?_) rfl rfl rfl fun _ has => ⟨⟨element, size, rfl, hsize⟩, has⟩
      simp [Expr.code, isLoaded, hloaded, stride]
    | true =>
      rw [hloaded] at h
      refine (address.trans_emit h).congr (fun _ => ?_) rfl rfl rfl
        fun _ has => ⟨⟨element, size, rfl, hsize⟩, has⟩
      simp [Expr.code, isLoaded, hloaded, stride]

/-- Lowering the address of a name or an element appends its code. -/
theorem lowerAddress_emitted {types : SymbolId → Option Ty} {x : Expr} {ty : Ty}
    (typed : x.Typed types ty) (lvalue : x.isLvalue) {u : Unit} (h : lowerAddress x e = .ok u e') :
    Emitted e e' (fun labels => x.addressCode labels e.nextId) x.numbers (x.literals e.nextId) []
      x.HasCode := by
  cases x with
  | name spelling symbol ty =>
    simp only [lowerAddress] at h
    obtain ⟨label, e₁, found, pushed⟩ := bind_eq_ok.1 h
    obtain ⟨rfl, id, rfl, labelled⟩ := storageLabel_eq_ok found
    exact (emitted_pushLabel labelled pushed).congr (fun _ => rfl) rfl rfl rfl
      fun _ has => ⟨id, label, rfl, has⟩
  | index base position ty =>
    simp only [lowerAddress] at h
    obtain ⟨_, e₁, lowered, dropped⟩ := bind_eq_ok.1 h
    exact (lowerExpr_emitted typed lowered).drop_address rfl dropped
  | literal value ty => cases lvalue
  | unary op operand ty => cases lvalue
  | binary op left right ty => cases lvalue
  | call callee arguments ty => cases lvalue

/-- An expression draws its numbers where the part before it ends. -/
theorem Emitted.trans_lowerExpr {e'' : Emission} {code : (SymbolId → Option String) → List Instruction}
    {numbers : Nat} {literals : List (Nat × String)} {storage : List (SymbolId × Nat)}
    {has : (SymbolId → Option String) → Prop} (h : Emitted e e' code numbers literals storage has)
    {types : SymbolId → Option Ty} {x : Expr} {ty : Ty} (typed : x.Typed types ty) {u : Unit}
    (lowered : lowerExpr x e' = .ok u e'') :
    Emitted e e'' (fun labels => code labels ++ x.code labels (e.nextId + numbers))
      (numbers + x.numbers) (literals ++ x.literals (e.nextId + numbers)) storage
      (fun labels => has labels ∧ x.HasCode labels) := by
  have last := lowerExpr_emitted typed lowered
  rw [h.nextId_eq] at last
  exact (h.trans last).congr (fun _ => rfl) rfl rfl (List.append_nil _) fun _ => id

/-! ## Statements -/

/-- What an `if` and a `while` loop start with: a number for their labels, a mark, and a branch that
the condition decides on. -/
theorem emitted_test {types : SymbolId → Option Ty} {condition : Expr} {ty : Ty}
    (typed : condition.Typed types ty) {e₁ e₂ e₃ : Emission} {number : Nat} {start target : String}
    {u u' u'' : Unit} (drawn : freshId e = .ok number e₁) (marked : emit (.mark start) e₁ = .ok u e₂)
    (lowered : lowerExpr condition e₂ = .ok u' e₃)
    (branched : emit (.branchIfZero target) e₃ = .ok u'' e') :
    Emitted e e' (fun labels =>
        .mark start :: (condition.code labels (e.nextId + 1) ++ [.branchIfZero target]))
      (1 + condition.numbers) (condition.literals (e.nextId + 1)) [] condition.HasCode :=
  ((((emitted_freshId drawn).2.trans_emit marked).trans_lowerExpr typed lowered).trans_emit
    branched).congr (fun _ => rfl) rfl rfl rfl fun _ => And.right

/-- Integers, truth values and strings are printed, and nothing else is. -/
theorem printOpCode_eq_ok {ty : Ty} {op : OpCode} (h : printOpCode ty e = .ok op e') :
    e = e' ∧ op = printOp (some ty) ∧
      (some ty = some Ty.int ∨ some ty = some Ty.bool ∨ some ty = some ⟨.string, []⟩) := by
  unfold printOpCode at h
  split at h
  · cases h
    exact ⟨rfl, rfl, .inl rfl⟩
  · cases h
    exact ⟨rfl, rfl, .inr (.inl rfl)⟩
  · cases h
    exact ⟨rfl, rfl, .inr (.inr rfl)⟩
  · cases h

/-- Integers and strings are read, and nothing else is. -/
theorem inputOpCode_eq_ok {ty : Ty} {op : OpCode} (h : inputOpCode ty e = .ok op e') :
    e = e' ∧ op = inputOp (some ty) ∧ (some ty = some Ty.int ∨ some ty = some ⟨.string, []⟩) := by
  unfold inputOpCode at h
  split at h
  · cases h
    exact ⟨rfl, rfl, .inl rfl⟩
  · cases h
    exact ⟨rfl, rfl, .inr rfl⟩
  · cases h

/-- The declared symbols of a later part have no storage after an earlier part, if they are different
from those of the earlier part and had none before. -/
theorem Emitted.still_unlabelled {code : (SymbolId → Option String) → List Instruction} {numbers : Nat}
    {literals : List (Nat × String)} {storage : List (SymbolId × Nat)}
    {has : (SymbolId → Option String) → Prop} (h : Emitted e e' code numbers literals storage has)
    {ids : List SymbolId} (unlabelled : ∀ id ∈ ids, e.table.label? id = none)
    (different : ∀ id ∈ storage.map Prod.fst, ∀ id' ∈ ids, id ≠ id') :
    ∀ id ∈ ids, e'.table.label? id = none := by
  intro id mem
  rw [h.label?_eq fun mem' => different id mem' id mem rfl]
  exact unlabelled id mem

/-- Lowering declarations appends their code. By induction on the names; each is given storage before its initial
value is lowered, and has not been given any before since the symbols are different. -/
theorem lowerDeclarators_emitted {types : SymbolId → Option Ty} {ds : List Declarator}
    (typed : ∀ d ∈ ds, d.Typed types) (nodup : (ds.filterMap Declarator.symbol).Nodup)
    (unlabelled : ∀ id ∈ ds.filterMap Declarator.symbol, e.table.label? id = none) {u : Unit}
    (h : lowerDeclarators ds e = .ok u e') :
    Emitted e e' (fun labels => Declarator.allCode labels e.nextId ds) (Declarator.allNumbers ds)
      (Declarator.allLiterals e.nextId ds) (Declarator.allStorage e.nextId ds)
      (fun labels => ∀ d ∈ ds, d.HasCode labels) := by
  induction ds generalizing e with
  | nil =>
    cases h
    exact (Emitted.refl _).congr (fun _ => rfl) rfl rfl rfl fun _ _ => by simp
  | cons d ds ih =>
    obtain ⟨id, ty, symbol, _, initTyped⟩ := typed d (.head _)
    have typed' : ∀ d ∈ ds, d.Typed types := fun d mem => typed d (.tail _ mem)
    have declared : (d :: ds).filterMap Declarator.symbol = id :: ds.filterMap Declarator.symbol := by
      simp [symbol]
    rw [declared] at nodup unlabelled
    obtain ⟨notMem, nodup⟩ := List.nodup_cons.1 nodup
    simp only [lowerDeclarators, symbol] at h
    obtain ⟨label, e₁, allocated, h⟩ := bind_eq_ok.1 h
    obtain ⟨first, labelled⟩ := emitted_allocate (unlabelled id (.head _)) allocated
    have later := first.still_unlabelled (fun id mem => unlabelled id (.tail _ mem)) (by
      intro id₁ mem₁ id₂ mem₂ same
      rw [List.map_singleton, List.mem_singleton] at mem₁
      subst mem₁ same
      exact notMem mem₂)
    cases hinit : d.init with
    | none =>
      simp only [hinit] at h
      have rest := ih typed' nodup later h
      rw [first.nextId_eq] at rest
      refine (first.trans rest).congr (fun _ => ?_) ?_ ?_ ?_ fun labels has => ?_
      · simp [Declarator.allCode, Declarator.code, hinit]
      · simp [Declarator.allNumbers, hinit]
      · simp [Declarator.allLiterals, hinit]
      · simp [Declarator.allStorage, hinit, symbol]
      · exact List.forall_mem_cons.2 ⟨⟨⟨id, label, symbol, has.1⟩, by simp [hinit]⟩, has.2⟩
    | some init =>
      simp only [hinit] at h
      obtain ⟨_, e₂, pushed, h⟩ := bind_eq_ok.1 h
      obtain ⟨_, e₃, lowered, h⟩ := bind_eq_ok.1 h
      obtain ⟨_, e₄, stored, h⟩ := bind_eq_ok.1 h
      have second := emitted_pushLabel labelled pushed
      have middle := (second.trans_lowerExpr (initTyped init hinit) lowered).trans_emit stored
      have rest := ih typed' nodup (middle.still_unlabelled later (by simp)) h
      rw [middle.nextId_eq, first.nextId_eq] at rest
      rw [first.nextId_eq] at middle
      refine (first.trans (middle.trans rest)).congr (fun _ => ?_) ?_ ?_ ?_ fun labels has => ?_
      · simp [Declarator.allCode, Declarator.code, hinit, symbol]
      · simp [Declarator.allNumbers, hinit]
      · simp [Declarator.allLiterals, hinit]
      · simp [Declarator.allStorage, hinit, symbol]
      · refine List.forall_mem_cons.2 ⟨⟨⟨id, label, symbol, has.1⟩, fun init' same => ?_⟩, has.2.2⟩
        cases hinit.symm.trans same
        exact has.2.1.2

mutual

/-- Lowering a statement appends its code. -/
theorem lowerStmt_emitted {types : SymbolId → Option Ty} {e e' : Emission} {u : Unit} :
    {s : Stmt} → s.Typed types → s.declared.Nodup → (∀ id ∈ s.declared, e.table.label? id = none) →
      lowerStmt s e = .ok u e' →
        Emitted e e' (fun labels => s.code labels e.nextId) s.numbers (s.literals e.nextId)
          (s.storage e.nextId) s.HasCode
  | .block body, typed, nodup, unlabelled, h => by
    simp only [lowerStmt] at h
    exact lowerBlock_emitted typed nodup unlabelled h
  | .ifThen condition body, typed, nodup, unlabelled, h
  | .whileLoop condition body, typed, nodup, unlabelled, h => by
    simp only [lowerStmt] at h
    obtain ⟨_, e₁, drawn, h⟩ := bind_eq_ok.1 h
    obtain ⟨rfl, -⟩ := emitted_freshId drawn
    obtain ⟨_, e₂, marked, h⟩ := bind_eq_ok.1 h
    obtain ⟨_, e₃, lowered, h⟩ := bind_eq_ok.1 h
    obtain ⟨_, e₄, branched, h⟩ := bind_eq_ok.1 h
    obtain ⟨_, e₅, lowered', h⟩ := bind_eq_ok.1 h
    obtain ⟨_, e₆, jumped, h⟩ := bind_eq_ok.1 h
    have test := emitted_test typed.1 drawn marked lowered branched
    have inner := lowerBlock_emitted typed.2 nodup (test.still_unlabelled unlabelled (by simp)) lowered'
    simp only [test.nextId_eq, ← Nat.add_assoc] at inner
    refine (((test.trans inner).trans_emit jumped).trans_emit h).congr (fun _ => ?_)
      (by simp [Stmt.numbers, Nat.add_assoc]) rfl rfl fun _ => id
    simp only [Stmt.code, List.cons_append, List.append_assoc]
    rfl
  | .ifElse condition body otherwise, typed, nodup, unlabelled, h => by
    simp only [Stmt.declared, List.mem_append] at nodup unlabelled
    obtain ⟨nodup₁, nodup₂, different⟩ := List.nodup_append.1 nodup
    simp only [lowerStmt] at h
    obtain ⟨_, e₁, drawn, h⟩ := bind_eq_ok.1 h
    obtain ⟨rfl, -⟩ := emitted_freshId drawn
    obtain ⟨_, e₂, marked, h⟩ := bind_eq_ok.1 h
    obtain ⟨_, e₃, lowered, h⟩ := bind_eq_ok.1 h
    obtain ⟨_, e₄, branched, h⟩ := bind_eq_ok.1 h
    obtain ⟨_, e₅, lowered', h⟩ := bind_eq_ok.1 h
    obtain ⟨_, e₆, jumped, h⟩ := bind_eq_ok.1 h
    obtain ⟨_, e₇, marked', h⟩ := bind_eq_ok.1 h
    obtain ⟨_, e₈, lowered'', h⟩ := bind_eq_ok.1 h
    obtain ⟨_, e₉, jumped', h⟩ := bind_eq_ok.1 h
    have test := emitted_test typed.1 drawn marked lowered branched
    have inner := lowerBlock_emitted typed.2.1 nodup₁
      (test.still_unlabelled (fun id mem => unlabelled id (.inl mem)) (by simp)) lowered'
    simp only [test.nextId_eq, ← Nat.add_assoc] at inner
    have part := ((test.trans inner).trans_emit jumped).trans_emit marked'
    have last := lowerStmt_emitted typed.2.2 nodup₂ (part.still_unlabelled
      (fun id mem => unlabelled id (.inr mem))
      (by simpa [Block.map_fst_storage] using different)) lowered''
    simp only [part.nextId_eq, ← Nat.add_assoc] at last
    refine (((part.trans last).trans_emit jumped').trans_emit h).congr (fun _ => ?_)
      (by simp [Stmt.numbers, Nat.add_assoc]) (by simp [Stmt.literals]) (by simp [Stmt.storage])
      fun _ has => ⟨has.1.1, has.1.2, has.2⟩
    simp only [Stmt.code, List.cons_append, List.append_assoc]
    rfl
  | .doWhile body condition, typed, nodup, unlabelled, h => by
    simp only [lowerStmt] at h
    obtain ⟨_, e₁, drawn, h⟩ := bind_eq_ok.1 h
    obtain ⟨rfl, number⟩ := emitted_freshId drawn
    obtain ⟨_, e₂, marked, h⟩ := bind_eq_ok.1 h
    obtain ⟨_, e₃, lowered, h⟩ := bind_eq_ok.1 h
    obtain ⟨_, e₄, lowered', h⟩ := bind_eq_ok.1 h
    obtain ⟨_, e₅, branched, h⟩ := bind_eq_ok.1 h
    obtain ⟨_, e₆, jumped, h⟩ := bind_eq_ok.1 h
    have head := number.trans_emit marked
    have inner := lowerBlock_emitted typed.1 nodup (head.still_unlabelled unlabelled (by simp)) lowered
    rw [head.nextId_eq] at inner
    -- The condition stands behind the body, and draws its numbers there.
    have part := (head.trans inner).trans_lowerExpr typed.2 lowered'
    refine (((part.trans_emit branched).trans_emit jumped).trans_emit h).congr (fun _ => ?_)
      (by simp [Stmt.numbers, Nat.add_assoc]) (by simp [Stmt.literals, Nat.add_assoc]) rfl
      fun _ has => ⟨has.2, has.1.2⟩
    simp only [Stmt.code, Nat.add_assoc, List.append_assoc]
    rfl
  | .forLoop init condition step body, typed, nodup, unlabelled, h => by
    obtain ⟨typed₁, typed₂, typed₃, typed₄⟩ := typed
    simp only [Stmt.declared, List.mem_append] at nodup unlabelled
    obtain ⟨nodup₁, nodup₂, different⟩ := List.nodup_append.1 nodup
    obtain ⟨nodup₂, nodup₃, different'⟩ := List.nodup_append.1 nodup₂
    simp only [lowerStmt] at h
    obtain ⟨_, e₁, drawn, h⟩ := bind_eq_ok.1 h
    obtain ⟨rfl, number⟩ := emitted_freshId drawn
    obtain ⟨_, e₂, marked, h⟩ := bind_eq_ok.1 h
    obtain ⟨_, e₃, lowered₁, h⟩ := bind_eq_ok.1 h
    obtain ⟨_, e₄, lowered₂, h⟩ := bind_eq_ok.1 h
    obtain ⟨_, e₅, branched, h⟩ := bind_eq_ok.1 h
    obtain ⟨_, e₆, marked', h⟩ := bind_eq_ok.1 h
    obtain ⟨_, e₇, lowered₃, h⟩ := bind_eq_ok.1 h
    obtain ⟨_, e₈, branched', h⟩ := bind_eq_ok.1 h
    obtain ⟨_, e₉, marked'', h⟩ := bind_eq_ok.1 h
    obtain ⟨_, e₁₀, lowered₄, h⟩ := bind_eq_ok.1 h
    obtain ⟨_, e₁₁, lowered₅, h⟩ := bind_eq_ok.1 h
    obtain ⟨_, e₁₂, jumped, h⟩ := bind_eq_ok.1 h
    have head := number.trans_emit marked
    have first := lowerStmt_emitted typed₁ nodup₁
      (head.still_unlabelled (fun id mem => unlabelled id (.inl mem)) (by simp)) lowered₁
    rw [head.nextId_eq] at first
    -- the condition is lowered twice: before the first turn and before every later one
    have test := (((head.trans first).trans_lowerExpr typed₂ lowered₂).trans_emit branched).trans_emit
      marked'
    have test' := ((test.trans_lowerExpr typed₂ lowered₃).trans_emit branched').trans_emit marked''
    have inner := lowerBlock_emitted typed₄ nodup₂ (test'.still_unlabelled
      (fun id mem => unlabelled id (.inr (.inl mem)))
      (by simpa [Stmt.map_fst_storage] using
        fun id mem id' mem' => different id mem id' (List.mem_append_left _ mem'))) lowered₄
    rw [test'.nextId_eq] at inner
    have turn := test'.trans inner
    -- The step is lowered after the body, so its symbols differ from those of the start and of the body.
    have last := lowerStmt_emitted typed₃ nodup₃ (turn.still_unlabelled
      (fun id mem => unlabelled id (.inr (.inr mem))) (by
        intro id mem id' mem'
        simp only [List.map_append, Stmt.map_fst_storage, Block.map_fst_storage, List.nil_append] at mem
        rcases List.mem_append.1 mem with mem | mem
        · exact different id mem id' (List.mem_append_right _ mem')
        · exact different' id mem id' mem')) lowered₅
    rw [turn.nextId_eq] at last
    refine (((turn.trans last).trans_emit jumped).trans_emit h).congr (fun _ => ?_)
      (by simp [Stmt.numbers, Nat.add_assoc]) (by simp [Stmt.literals, Nat.add_assoc])
      (by simp [Stmt.storage, Nat.add_assoc]) fun _ has => ⟨has.1.1.1.1.2, has.1.1.1.2, has.1.2, has.2⟩
    simp only [Stmt.code, Nat.add_assoc, List.append_assoc]
    rfl
  | .function .., _, _, _, h => by
    simp only [lowerStmt] at h
    cases h
  | .declare _ ds, typed, nodup, unlabelled, h => by
    simp only [lowerStmt] at h
    exact lowerDeclarators_emitted typed nodup unlabelled h
  | .assign target value, ⟨lvalue, ty, typed, typed'⟩, _, _, h => by
    simp only [lowerStmt] at h
    obtain ⟨_, e₁, lowered, h⟩ := bind_eq_ok.1 h
    obtain ⟨_, e₂, lowered', h⟩ := bind_eq_ok.1 h
    have part := (lowerAddress_emitted typed lvalue lowered).trans_lowerExpr typed' lowered'
    exact (part.trans_emit h).congr (fun _ => List.append_assoc _ _ _) rfl rfl rfl fun _ => id
  | .eval _, ⟨_, typed⟩, _, _, h => by
    simp only [lowerStmt] at h
    exact lowerExpr_emitted typed h
  | .print value, ⟨ty, typed⟩, _, _, h => by
    simp only [lowerStmt] at h
    obtain ⟨_, e₁, lowered, h⟩ := bind_eq_ok.1 h
    obtain ⟨_, e₂, found, h⟩ := bind_eq_ok.1 h
    obtain ⟨hty, rfl⟩ := typeOf_eq_ok found
    obtain ⟨op, e₂, chosen, h⟩ := bind_eq_ok.1 h
    obtain ⟨rfl, rfl, printable⟩ := printOpCode_eq_ok chosen
    refine ((lowerExpr_emitted typed lowered).trans_emit h).congr (fun _ => ?_) rfl rfl rfl
      fun _ has => ⟨has, hty ▸ printable⟩
    rw [Stmt.code, hty]
  | .input target, ⟨lvalue, ty, typed, _⟩, _, _, h => by
    simp only [lowerStmt] at h
    obtain ⟨_, e₁, lowered, h⟩ := bind_eq_ok.1 h
    obtain ⟨_, e₂, found, h⟩ := bind_eq_ok.1 h
    obtain ⟨hty, rfl⟩ := typeOf_eq_ok found
    obtain ⟨op, e₂, chosen, h⟩ := bind_eq_ok.1 h
    obtain ⟨rfl, rfl, readable⟩ := inputOpCode_eq_ok chosen
    obtain ⟨_, e₂, read, h⟩ := bind_eq_ok.1 h
    refine (((lowerAddress_emitted typed lvalue lowered).trans_emit read).trans_emit h).congr
      (fun _ => ?_) rfl rfl rfl fun _ has => ⟨has, hty ▸ readable⟩
    rw [Stmt.code, hty, List.append_assoc]
    rfl
  | .breakLoop, typed, _, _, _ => typed.elim
  | .continueLoop, typed, _, _, _ => typed.elim
  | .returnValue _, typed, _, _, _ => typed.elim

/-- Lowering a block appends its code. -/
theorem lowerBlock_emitted {types : SymbolId → Option Ty} {e e' : Emission} {u : Unit} :
    {b : Block} → b.Typed types → b.declared.Nodup → (∀ id ∈ b.declared, e.table.label? id = none) →
      lowerBlock b e = .ok u e' →
        Emitted e e' (fun labels => b.code labels e.nextId) b.numbers (b.literals e.nextId)
          (b.storage e.nextId) b.HasCode
  | ⟨_, _⟩, typed, nodup, unlabelled, h => by
    simp only [lowerBlock] at h
    exact lowerStmts_emitted typed nodup unlabelled h

/-- Lowering statements appends their code. -/
theorem lowerStmts_emitted {types : SymbolId → Option Ty} {e e' : Emission} {u : Unit} :
    {statements : List Stmt} → Stmt.AllTyped types statements → (Stmt.allDeclared statements).Nodup →
      (∀ id ∈ Stmt.allDeclared statements, e.table.label? id = none) →
        lowerStmts statements e = .ok u e' →
          Emitted e e' (fun labels => Stmt.allCode labels e.nextId statements)
            (Stmt.allNumbers statements) (Stmt.allLiterals e.nextId statements)
              (Stmt.allStorage e.nextId statements) (fun labels => Stmt.AllHaveCode labels statements)
  | [], _, _, _, h => by
    simp only [lowerStmts] at h
    cases h
    exact .refl e
  | statement :: rest, typed, nodup, unlabelled, h => by
    simp only [Stmt.allDeclared, List.mem_append] at nodup unlabelled
    obtain ⟨nodup₁, nodup₂, different⟩ := List.nodup_append.1 nodup
    simp only [lowerStmts] at h
    obtain ⟨_, e₁, lowered, h⟩ := bind_eq_ok.1 h
    have first := lowerStmt_emitted typed.1 nodup₁ (fun id mem => unlabelled id (.inl mem)) lowered
    have second := lowerStmts_emitted typed.2 nodup₂ (first.still_unlabelled
      (fun id mem => unlabelled id (.inr mem))
      (by simpa [Stmt.map_fst_storage] using different)) h
    rw [first.nextId_eq] at second
    exact (first.trans second).congr (fun _ => rfl) rfl rfl rfl fun _ has => has

end

end Lowering

/-! ## Programs -/

/-- The labels that symbols have once a block is lowered. -/
def Block.labels (tree : Block) (table : SymbolTable) : SymbolId → Option String :=
  ((tree.storage 0).foldl SymbolTable.place table).label?

/-- The program of a block over the symbols of a table. -/
def Block.program (tree : Block) (table : SymbolTable) : Program where
  code := tree.code (tree.labels table) 0
  readOnly := addLiterals .empty (tree.literals 0)
  static := addStorage table.described? .empty (tree.storage 0)

/-- A checked source that has a program. -/
structure CheckedSource.Lowers (checked : CheckedSource) : Prop where
  valid : checked.Valid
  hasCode : checked.tree.HasCode (checked.tree.labels checked.table)
  storable : ∀ entry ∈ checked.tree.storage 0,
    ∃ s, checked.table.described? entry.1 = some s ∧ s.Storable

namespace CheckedSource

/-- The program of a checked source. -/
def program (checked : CheckedSource) : Program :=
  checked.tree.program checked.table

/-- The labels that the symbols of a checked source have in its program. -/
def labels (checked : CheckedSource) : SymbolId → Option String :=
  checked.tree.labels checked.table

end CheckedSource

/-- After checking no symbol has a label yet. -/
theorem SymbolTable.Sound.label?_eq_none {t : SymbolTable} (sound : t.Sound) (id : SymbolId) :
    t.label? id = none := by
  cases hs : t.symbol? id with
  | none => simp [label?, hs]
  | some s =>
    have bare : t.bare? id = some s.bare := bare?_eq_some_iff.2 ⟨s, hs, rfl⟩
    have unlabelled : s.label = none := sound.unlabelled id s.bare bare
    simp [label?, hs, unlabelled]

/-- Where lowering a checked source succeeds, it makes the program of its tree and records the labels of
its symbols. -/
theorem CheckedSource.lower_eq_ok {checked : CheckedSource} (valid : checked.Valid) {p : Program}
    {table : SymbolTable} (h : checked.tree.lower checked.table = (.ok p, table)) :
    checked.Lowers ∧ p = checked.program ∧ table.label? = checked.labels := by
  unfold Block.lower at h
  split at h
  · rename_i e lowered
    obtain ⟨⟨⟩, rfl⟩ := Prod.mk.inj h
    have emitted := Lowering.lowerBlock_emitted valid.typed valid.nodup
      (fun id _ => valid.sound.label?_eq_none id) lowered
    obtain ⟨hasCode, code⟩ := emitted.code_eq checked.labels fun id label found => by
      rw [emitted.table_eq] at found
      exact found
    refine ⟨⟨valid, hasCode, emitted.storable⟩, ?_, ?_⟩
    · simp only [Emission.program, emitted.readOnly_eq, emitted.static_eq, code]
      rfl
    · rw [emitted.table_eq]
      rfl
  · cases (Prod.mk.inj h).1

/-- A source with a program is checked, and its program is that of the checked tree. -/
theorem Source.lower_eq_ok {source : String} {options : Options} {p : Program}
    (h : Source.lower source options = .ok p) :
    ∃ checked table, Source.check source options = .ok checked ∧
      checked.tree.lower checked.table = (.ok p, table) ∧ checked.Lowers ∧ p = checked.program ∧
      table.label? = checked.labels := by
  obtain ⟨⟨p', warnings⟩, h, last⟩ := except_bind_eq_ok.1 h
  cases last
  obtain ⟨checked, hcheck, h⟩ := except_bind_eq_ok.1 h
  obtain ⟨p, hlower, last⟩ := except_bind_eq_ok.1 h
  cases last
  have lowered : checked.tree.lower checked.table = (.ok p, (checked.tree.lower checked.table).2) :=
    Prod.ext (mapError_eq_ok.1 hlower) rfl
  exact ⟨checked, _, hcheck, lowered, CheckedSource.lower_eq_ok (Source.check_valid hcheck) lowered⟩

end MiniC
