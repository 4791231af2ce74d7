import MiniC.Proofs.Frames
import MiniC.Proofs.Lines
import MiniC.Proofs.Obstacles
import MiniC.Proofs.RowMajor

/-!
# What is stored into

The target of an assignment and of an input is a variable, or an element of one. `Expr.Typed.address_eq` says
how its address is made of its subscripts, and `Lowering.exists_lowerAddress` that lowering emits code for
it. `Action.Sound.exists_store` follows an assignment or an input along a path through its code: the address of
the target is computed, and then a single slot is written.
-/

namespace MiniC

/-! ## Subscripts -/

namespace Expr

/-- The variable that an element is an element of. -/
def root? : Expr → Option SymbolId
  | .name _ symbol _ => symbol
  | .index base _ _ => base.root?
  | .literal .. | .unary .. | .binary .. | .call .. => none

/-- The values of the subscripts of an element, outermost first. -/
def subscripts (place : Placement) (memory : Array Int32) : Expr → Except Fault (List Int32)
  | .index base position _ => do
    let outer ← base.subscripts place memory
    let i ← position.value place memory 0
    pure (outer ++ [i])
  | .name .. | .literal .. | .unary .. | .binary .. | .call .. => .ok []

/-- The distances that the subscripts are multiplied with. -/
def strides : Expr → List Int32
  | .index base _ ty => base.strides ++ [strideOf ty]
  | .name .. | .literal .. | .unary .. | .binary .. | .call .. => []

/-- What has a variable can be stored into. -/
theorem isLvalue_of_root {x : Expr} {id : SymbolId} (root : x.root? = some id) : x.isLvalue := by
  cases x with
  | name | index => rfl
  | literal | unary | binary | call => cases root

/-- Only strings draw numbers in an expression, so without numbers there are none. -/
theorem literals_eq_nil {x : Expr} (h : x.numbers = 0) (number : Nat) : x.literals number = [] := by
  induction x using Expr.shallowInduction generalizing number with
  | literal value ty =>
    cases value with
    | string value => cases h
    | int | bool | char | float => rfl
  | name | call => rfl
  | unary op operand ty ih => exact ih h number
  | binary op left right ty ih ih' | index left right ty ih ih' =>
    obtain ⟨none, none'⟩ := Nat.add_eq_zero_iff.1 h
    rw [Expr.literals, ih none, ih' none']
    rfl

/-- An expression without strings does not depend on the number of the next literal. -/
theorem eq_of_numbers {x : Expr} (h : x.numbers = 0) (place : Placement) (memory : Array Int32)
    (number number' : Nat) :
    x.value place memory number = x.value place memory number' ∧
      x.address place memory number = x.address place memory number' := by
  induction x using Expr.shallowInduction generalizing number number' with
  | literal value ty =>
    cases value with
    | string value => cases h
    | int | bool | char | float => exact ⟨rfl, rfl⟩
  | name | call => exact ⟨rfl, rfl⟩
  | unary op operand ty ih =>
    obtain ⟨value, -⟩ := ih h number number'
    exact ⟨by rw [Expr.value, Expr.value, value], rfl⟩
  | binary op left right ty ihl ihr =>
    obtain ⟨hl, hr⟩ := Nat.add_eq_zero_iff.1 h
    obtain ⟨value, -⟩ := ihl hl number number'
    obtain ⟨value', -⟩ := ihr hr (number + left.numbers) (number' + left.numbers)
    exact ⟨by rw [Expr.value, Expr.value, value, value'], rfl⟩
  | index base position ty ihb ihp =>
    obtain ⟨hb, hp⟩ := Nat.add_eq_zero_iff.1 h
    obtain ⟨-, address⟩ := ihb hb number number'
    obtain ⟨value, -⟩ := ihp hp (number + base.numbers) (number' + base.numbers)
    exact ⟨by rw [Expr.value, Expr.value, address, value], by rw [Expr.address, Expr.address, address, value]⟩

end Expr

/-- Operators that give an integer take integers. -/
theorem BinaryOp.eq_int_of_result? {op : BinaryOp} {ty ty' : Ty} (h : op.result? ty ty' = some .int) :
    ty = .int ∧ ty' = .int := by
  unfold BinaryOp.result? at h
  split at h
  · rename_i accepted
    simp only [Bool.and_eq_true, decide_eq_true_eq] at accepted
    obtain ⟨⟨-, rfl⟩, -⟩ := accepted
    split at h
    · cases h
    · cases h
      exact ⟨rfl, rfl⟩
  · cases h

/-- There are no strings in an integer, and none in what can be stored into. By induction on the types. -/
theorem Expr.Typed.numbers_eq_zero {types : SymbolId → Option Ty} {x : Expr} {ty : Ty}
    (typed : x.Typed types ty) (h : ty = .int ∨ x.isLvalue) : x.numbers = 0 := by
  induction typed with
  | literal value =>
    rcases h with h | h
    · cases value <;> first | rfl | cases h
    · cases h
  | name _ => rfl
  | unary _ result ih =>
    rcases h with rfl | h
    · exact ih (.inl (UnaryOp.eq_of_result? result))
    · cases h
  | binary _ _ result ihl ihr =>
    rcases h with rfl | h
    · obtain ⟨left, right⟩ := BinaryOp.eq_int_of_result? result
      exact Nat.add_eq_zero_iff.2 ⟨ihl (.inl left), ihr (.inl right)⟩
    · cases h
  | index base _ element ihb ihp =>
    exact Nat.add_eq_zero_iff.2 ⟨ihb (.inr (base.isLvalue_of_element element)), ihp (.inl rfl)⟩

section Roots

variable {types : SymbolId → Option Ty} {x : Expr} {ty : Ty} {id : SymbolId} {place : Placement}
  {memory : Array Int32}

/-- The type of an element is a part of the type of its variable, and the subscripts are multiplied with the
sizes of the parts. -/
theorem Expr.Typed.exists_root (typed : x.Typed types ty) (root : x.root? = some id) :
    ∃ whole, types id = some whole ∧ ty = whole.part x.strides.length ∧
      x.strides = (List.range x.strides.length).map fun k => strideOf (some (whole.part (k + 1))) := by
  induction typed with
  | @name spelling symbol ty found =>
    cases root
    exact ⟨ty, found, rfl, rfl⟩
  | @index base position ty element _ _ qualified ihb _ =>
    obtain ⟨whole, found, rfl, strides⟩ := ihb root
    have inner : element = whole.part (base.strides.length + 1) := Ty.element?_part qualified
    have length : (Expr.index base position (some element)).strides.length = base.strides.length + 1 := by
      simp [Expr.strides]
    refine ⟨whole, found, by rw [length, inner], ?_⟩
    rw [length, List.range_succ, List.map_append, ← strides, Expr.strides, inner]
    rfl
  | literal | unary | binary => cases root

/-- There is a distance for every subscript. -/
theorem Expr.length_subscripts {values : List Int32} (found : x.subscripts place memory = .ok values) :
    values.length = x.strides.length := by
  induction x using Expr.shallowInduction generalizing values with
  | index base position ty ihb _ =>
    obtain ⟨outer, first, found⟩ := except_bind_eq_ok.1 found
    obtain ⟨i, -, found⟩ := except_bind_eq_ok.1 found
    cases found
    simp [Expr.strides, ihb first]
  | literal | name | unary | binary | call =>
    cases found
    rfl

/-- Further subscripts go on from the address that the first ones come to. -/
theorem wrappedAddress_append (start : Int32) (terms terms' : List (Int32 × Int32)) :
    wrappedAddress start (terms ++ terms') = wrappedAddress (wrappedAddress start terms) terms' :=
  List.foldl_append

/-- The address of an element is made of its subscripts. -/
theorem Expr.Typed.address_eq (typed : x.Typed types ty) (root : x.root? = some id) (number : Nat) :
    x.address place memory number = x.subscripts place memory >>= fun values =>
      .ok (wrappedAddress (place.variableAt id) (values.zip x.strides)) := by
  induction typed generalizing number with
  | name found =>
    cases root
    rfl
  | @index base position ty element _ positionTyped _ ihb _ =>
    have value : position.value place memory (number + base.numbers) = position.value place memory 0 :=
      (Expr.eq_of_numbers (positionTyped.numbers_eq_zero (.inl rfl)) place memory _ _).1
    rw [Expr.address, ihb root, value, Expr.subscripts, Expr.strides]
    cases first : base.subscripts place memory with
    | error cause => rfl
    | ok outer =>
      cases position.value place memory 0 with
      | error cause => rfl
      | ok i =>
        show Except.ok _ = Except.ok _
        rw [List.zip_append (Expr.length_subscripts first), wrappedAddress_append]
        rfl
  | literal | unary | binary => cases root

/-- The distances of a part of an array, as numbers. -/
theorem zip_strides {whole : Ty} {dims indices : List Nat} (array : whole.IsArray dims)
    (positive : 0 < dims.prod) {size : Nat} (sized : whole.size = .ok size)
    (short : indices.length ≤ dims.length) :
    (indices.map Int32.ofNat).zip
        ((List.range indices.length).map fun k => strideOf (some (whole.part (k + 1)))) =
      terms dims indices := by
  apply List.ext_getElem
  · simp [terms, length_strides, short]
  · intro k lt lt'
    have inside : k < indices.length := by
      simp only [List.length_zip, List.length_map] at lt
      omega
    have stride : (strides dims)[k]? = some (Ty.wordSize * (dims.drop (k + 1)).prod) :=
      getElem?_strides (Nat.lt_of_lt_of_le inside short)
    obtain ⟨_, stride⟩ := List.getElem?_eq_some_iff.1 stride
    simp only [terms, List.getElem_zip, List.getElem_map, List.getElem_range, stride,
      array.strideOf_part positive sized]

end Roots

/-! ## Code that lowering emits -/

namespace Lowering

variable {types : SymbolId → Option Ty} {x : Expr} {ty : Ty} {labels : SymbolId → Option String}

/-- A symbol that has a label is found under it. -/
theorem storageLabel_of_label? {e : Emission} {id : SymbolId} {label : String}
    (labelled : e.table.label? id = some label) (name : String) :
    storageLabel (some id) name e = .ok label e := by
  have found : ((some id).bind e.table.symbol?).bind Symbol.label = some label := labelled
  refine (bind_of_ok get_apply).trans ?_
  rw [found]
  rfl

/-- An expression that has code is lowered. By induction on the types. -/
theorem exists_lowerExpr (typed : x.Typed types ty) (has : x.HasCode labels) (e : Emission)
    (same : e.table.label? = labels) : ∃ e', lowerExpr x e = .ok () e' ∧ e'.table = e.table := by
  induction typed generalizing e with
  | literal value =>
    cases value with
    | float value => exact has.elim
    | int | bool | char | string => exact ⟨_, rfl, rfl⟩
  | @name spelling id ty found =>
    obtain ⟨_, label, ⟨⟩, labelled⟩ := has
    rw [← same] at labelled
    exact ⟨_, bind_of_ok (storageLabel_of_label? labelled spelling), rfl⟩
  | @unary op operand ty result _ _ ih =>
    obtain ⟨e₁, lowered, table⟩ := ih has e same
    rw [lowerExpr, bind_of_ok lowered]
    cases unaryOpCode? op with
    | none => exact ⟨_, rfl, table⟩
    | some code => exact ⟨_, rfl, table⟩
  | binary _ _ _ ihl ihr =>
    obtain ⟨e₁, lowered, table⟩ := ihl has.1 e same
    obtain ⟨e₂, lowered', table'⟩ := ihr has.2 e₁ (table ▸ same)
    rw [lowerExpr, bind_of_ok lowered, bind_of_ok lowered']
    exact ⟨_, rfl, table'.trans table⟩
  | @index base position ty element _ _ _ ihb ihp =>
    obtain ⟨⟨_, size, ⟨⟩, sized⟩, hasBase, hasPosition⟩ := has
    obtain ⟨e₁, lowered, table⟩ := ihb hasBase e same
    obtain ⟨e₂, dropped, table₂⟩ := dropTrailingLoad_eq e₁
    obtain ⟨e₃, lowered', table₃⟩ := ihp hasPosition e₂ (table₂ ▸ table ▸ same)
    have annotated : typeOf (.index base position (some element)) e = .ok element e := rfl
    have layout : liftLayout element.size e = .ok size e := by
      rw [sized]
      rfl
    rw [lowerExpr, bind_of_ok annotated, bind_of_ok layout, bind_of_ok lowered, bind_of_ok dropped,
      bind_of_ok lowered']
    have table₄ : e₃.table = e.table := table₃.trans (table₂.trans table)
    show ∃ e', (if element.isUnqualified then emitOp .load else pure () : Lowering Unit) _ = .ok () e' ∧ _
    by_cases loaded : element.isUnqualified
    · rw [if_pos loaded]
      exact ⟨_, rfl, table₄⟩
    · rw [if_neg loaded]
      exact ⟨_, rfl, table₄⟩

/-- The address of a name or an element that has code is lowered. -/
theorem exists_lowerAddress (typed : x.Typed types ty) (lvalue : x.isLvalue) (has : x.HasCode labels)
    (e : Emission) (same : e.table.label? = labels) : ∃ e', lowerAddress x e = .ok () e' := by
  cases x with
  | name spelling symbol ty =>
    obtain ⟨id, label, rfl, labelled⟩ := has
    rw [← same] at labelled
    exact ⟨_, bind_of_ok (storageLabel_of_label? labelled spelling)⟩
  | index base position ty =>
    obtain ⟨e₁, lowered, -⟩ := exists_lowerExpr typed has e same
    obtain ⟨e₂, dropped, -⟩ := dropTrailingLoad_eq e₁
    exact ⟨e₂, (bind_of_ok lowered).trans dropped⟩
  | literal | unary | binary | call => cases lvalue

end Lowering

/-! ## Stores -/

section Slots

variable {memory memory' : Array Int32} {value : Int32} {slot : Nat}

/-- The slot that an address of 32 bits leads to. -/
def wrapSlot (slot : Nat) : Nat :=
  (Int32.ofNat slot).toInt.toNat

/-- A slot within 31 bits is its own address. -/
theorem wrapSlot_eq (small : slot < 2147483648) : wrapSlot slot = slot := by
  rw [wrapSlot, Int32.toInt_ofNat_of_lt small, Int.toNat_natCast]

/-- An address that is accepted has its highest bit clear and lies in memory. -/
theorem slotOf_eq_ok {located : Nat} (found : slotOf memory (.ofNat slot) = .ok located) :
    located = wrapSlot slot ∧ 0 ≤ (Int32.ofNat slot).toInt ∧ wrapSlot slot < memory.size := by
  unfold slotOf at found
  split at found
  · rename_i inside
    cases found
    exact ⟨rfl, inside.1, (Int.toNat_lt inside.1).2 inside.2⟩
  · cases found

/-- A read gives the value of the slot that its address leads to. -/
theorem getElem?_of_readSlot (read : readSlot memory (.ofNat slot) = .ok value) :
    memory[wrapSlot slot]? = some value := by
  obtain ⟨located, found, read⟩ := except_bind_eq_ok.1 read
  obtain ⟨rfl, -, inside⟩ := slotOf_eq_ok found
  cases read
  simp [inside]

/-- A write changes its own slot and no other. -/
theorem getElem?_of_writeSlot (written : writeSlot memory (.ofNat slot) value = .ok memory') :
    memory'[wrapSlot slot]? = some value ∧ ∀ k, k ≠ wrapSlot slot → memory'[k]? = memory[k]? := by
  obtain ⟨located, found, written⟩ := except_bind_eq_ok.1 written
  obtain ⟨rfl, -, inside⟩ := slotOf_eq_ok found
  cases written
  exact ⟨by simp [inside], fun k other => Array.getElem?_setIfInBounds_ne other.symm⟩

/-- A write is exact, unless its slot takes more than 32 bits: an address with the highest bit set is refused. -/
theorem lt_of_writeSlot (small : slot < 4294967296)
    (written : writeSlot memory (.ofNat slot) value = .ok memory') : slot < 2147483648 := by
  obtain ⟨located, found, -⟩ := except_bind_eq_ok.1 written
  obtain ⟨-, nonneg, -⟩ := slotOf_eq_ok found
  rw [Int32.toInt_ofNat', Int.bmod_def] at nonneg
  simp only [Int32.size] at nonneg
  split at nonneg
  · omega
  · omega

end Slots

/-- What a piece of code stores into. -/
def Action.target? : Action → Option Expr
  | .assign _ target _ | .input _ target => some target
  | .border | .mark _ | .jump _ | .test .. | .eval .. | .print .. => none

namespace Machine

/-- A state, apart from its place. -/
def State.situation (s : State) : Situation :=
  ⟨s.stack.values, s.memory, s.console⟩

theorem State.stateAt_situation (s : State) : s.situation.stateAt s.pc = s := by
  obtain ⟨pc, ⟨values, height, height_eq⟩, memory, console⟩ := s
  subst height_eq
  rfl

/-- A store at the end of straight code. -/
theorem writeSlot_of_line {m : Machine} {s : Situation} {pc : Nat} {address value : Int32} {final : State}
    (went : m.line [⟨.store, .none⟩] (((s.push address).push value).stateAt pc) = .ok () final) :
    writeSlot s.memory address value = .ok final.memory := by
  rw [line_cons, loadedInstruction_plain] at went
  obtain ⟨_, s', stored, last⟩ := bind_eq_ok.1 went
  cases last
  have stored : freeStep ⟨.store, 0⟩ (((s.push address).push value).stateAt (pc + 1)) = .ok _ final := stored
  rw [freeStep_store] at stored
  cases written : writeSlot s.memory address value with
  | error cause =>
    rw [written] at stored
    cases stored
  | ok memory =>
    rw [written] at stored
    cases stored
    rfl

end Machine

section Stores

variable {v : Vocabulary} {p : Program} {capacity : Nat} {s s' : Machine.State} {places : List Nat}
  {number : Nat} {target value : Expr}

/-- The code of a sound expression pushes its value, and that of its address the address. -/
theorem Expr.Sound.yields {x : Expr} {ty : Ty} {m : Machine} (sound : x.Sound v number ty)
    (provides : m.Provides v.labels v.literals) :
    (∀ s, m.Yields (x.code v.labels number) s s (x.value (m.placement v.labels) s.memory number)) ∧
      (x.isLvalue → ∀ s, m.Yields (x.addressCode v.labels number) s s
        (x.address (m.placement v.labels) s.memory number)) :=
  Expr.yields provides sound.typed sound.hasCode sound.literals

/-- An assignment computes the address of its target, then the value, and writes it there. -/
theorem Action.assign_of_path (provides : (p.machine capacity).Provides v.labels v.literals)
    (sound : (Action.assign number target value).Sound v)
    (holds : p.Holds s.pc ((Action.assign number target value).code v.labels))
    (path : (p.machine capacity).Path s places s')
    (length : places.length = ((Action.assign number target value).code v.labels).length) :
    ∃ address stored,
      target.address ((p.machine capacity).placement v.labels) s.memory number = .ok address ∧
      value.value ((p.machine capacity).placement v.labels) s.memory (number + target.numbers) = .ok stored ∧
      writeSlot s.memory address stored = .ok s'.memory := by
  obtain ⟨lvalue, ty, targetSound, valueSound⟩ := sound
  have straight : IsStraight ((Action.assign number target value).code v.labels) :=
    isStraight_append.2 ⟨(target.isStraight _ _).2,
      isStraight_append.2 ⟨(value.isStraight _ _).1, isStraight_one rfl⟩⟩
  have went := path.line holds straight length
  rw [← s.stateAt_situation] at went
  obtain ⟨address, found, went⟩ := ((targetSound.yields provides).2 lvalue s.situation).exists_of_line went
  obtain ⟨stored, found', went⟩ :=
    ((valueSound.yields provides).1 (s.situation.push address)).exists_of_line went
  exact ⟨address, stored, found, found', Machine.writeSlot_of_line went⟩

/-- An input computes the address of its target, and writes what was read there. -/
theorem Action.input_of_path (provides : (p.machine capacity).Provides v.labels v.literals)
    (sound : (Action.input number target).Sound v)
    (holds : p.Holds s.pc ((Action.input number target).code v.labels))
    (path : (p.machine capacity).Path s places s')
    (length : places.length = ((Action.input number target).code v.labels).length) :
    ∃ address stored,
      target.address ((p.machine capacity).placement v.labels) s.memory number = .ok address ∧
      writeSlot s.memory address stored = .ok s'.memory := by
  obtain ⟨lvalue, targetSound⟩ := sound
  have code : (Action.input number target).code v.labels =
      target.addressCode v.labels number ++ [⟨.inputInt, .none⟩, ⟨.store, .none⟩] := by
    rw [Action.code, targetSound.typed.ty?_eq]
    rfl
  rw [code] at holds length
  have straight : IsStraight (target.addressCode v.labels number ++ [⟨.inputInt, .none⟩, ⟨.store, .none⟩]) :=
    isStraight_append.2 ⟨(target.isStraight _ _).2, List.forall_mem_cons.2 ⟨rfl, isStraight_one rfl⟩⟩
  have went := path.line holds straight length
  rw [← s.stateAt_situation] at went
  obtain ⟨address, found, went⟩ := ((targetSound.yields provides).2 lvalue s.situation).exists_of_line went
  rw [Machine.line_cons, Machine.loadedInstruction_plain] at went
  obtain ⟨_, s₁, read, went⟩ := bind_eq_ok.1 went
  have read : Machine.freeStep ⟨.inputInt, 0⟩ ((s.situation.push address).stateAt _) = .ok _ s₁ := read
  rw [Machine.freeStep_inputInt] at read
  cases console : s.console.readInt with
  | error cause rest =>
    rw [show (s.situation.push address).console.readInt = .error cause rest from console] at read
    cases read
  | ok stored rest =>
    rw [show (s.situation.push address).console.readInt = .ok stored rest from console] at read
    cases read
    have went : (p.machine capacity).line [⟨.store, .none⟩]
        (((({ s.situation with console := rest } : Situation).push address).push stored).stateAt _) = .ok () s' :=
      went
    exact ⟨address, stored, found, Machine.writeSlot_of_line went⟩

/-- Whatever stores into a target writes a single slot, at the address of the target. -/
theorem Action.Sound.exists_store {action : Action} (sound : action.Sound v)
    (provides : (p.machine capacity).Provides v.labels v.literals) (stores : action.target? = some target)
    (holds : p.Holds s.pc (action.code v.labels)) (path : (p.machine capacity).Path s places s')
    (length : places.length = (action.code v.labels).length) :
    ∃ number ty address stored, target.Sound v number ty ∧
      target.address ((p.machine capacity).placement v.labels) s.memory number = .ok address ∧
      writeSlot s.memory address stored = .ok s'.memory := by
  cases action with
  | assign number target' value =>
    cases stores
    obtain ⟨address, stored, found, -, written⟩ := Action.assign_of_path provides sound holds path length
    obtain ⟨-, ty, targetSound, -⟩ := sound
    exact ⟨number, ty, address, stored, targetSound, found, written⟩
  | input number target' =>
    cases stores
    obtain ⟨address, stored, found, written⟩ := Action.input_of_path provides sound holds path length
    exact ⟨number, _, address, stored, sound.2, found, written⟩
  | border | mark | jump | test | eval | print => cases stores

end Stores

end MiniC
