import Mathlib.Data.List.Induction
import MiniC.Proofs.Targets
import MiniC.Proofs.TruthValues

/-!
# Elements of arrays

A part of a variable is what some indices lead to, the first ones of its dimensions: with all of them it is an
element, with none the whole variable. `CheckedSource.PartAt` says at which slot a part starts. Parts of which none
contains the other are apart, and every part is apart from the literals, because the blocks that they lie in are
(`Lowers.parts_apart`, `Lowers.part_apart_literal`).

The code of an index expression comes to that slot (`Lowers.address_of_part`), so a store into a part that is in
range changes nothing outside it (`Lowers.changesOnly_of_path`). `Source.lower_elements_apart` puts this together
for every program that comes from a source.
-/

namespace MiniC

/-! ## Parts of variables -/

namespace CheckedSource

/-- The part of a variable with the given first indices starts at a slot. The type of the variable is an
array, or a single value, without pointers; with an index for each dimension the part is an element. -/
structure PartAt (checked : CheckedSource) (labels : SymbolId → Option String) (m : Machine) (id : SymbolId)
    (dims indices : List Nat) (slot : Nat) : Prop where
  declared : id ∈ checked.tree.declared
  array : ∃ ty, checked.table.typeOf? id = some ty ∧ ty.IsArray dims
  within : InRange indices dims
  place : ∃ label offset, labels id = some label ∧ m.dataOffset? label = some offset ∧
    slot = offset + Ty.wordSize * rowMajor dims indices

/-- The dimensions are those of the variable. -/
theorem PartAt.dims_eq {checked : CheckedSource} {labels : SymbolId → Option String} {m : Machine}
    {id : SymbolId} {dims dims' indices indices' : List Nat} {slot slot' : Nat}
    (part : checked.PartAt labels m id dims indices slot)
    (part' : checked.PartAt labels m id dims' indices' slot') : dims = dims' := by
  obtain ⟨ty, typed, array⟩ := part.array
  obtain ⟨ty', typed', array'⟩ := part'.array
  cases typed.symm.trans typed'
  exact List.map_injective_iff.2 (fun _ _ same => Qualifier.array.inj same) (array.symm.trans array')

/-- The storage of an array: a block of its own, with a word for each element. -/
structure Stored (checked : CheckedSource) (capacity : Nat) (id : SymbolId) (dims : List Nat)
    (label : String) (block : StaticBlock) (offset : Nat) : Prop where
  labelled : checked.labels id = some label
  held : (label, block) ∈ checked.program.static.entries
  found : (checked.program.machine capacity).dataOffset? label = some offset
  size : block.size = Ty.wordSize * dims.prod
  positive : 0 < dims.prod
  aligned : Ty.wordSize ∣ offset
  inside : offset + block.size ≤ (checked.program.machine capacity).memory.size
  sized : ∃ ty, checked.table.typeOf? id = some ty ∧ ty.IsArray dims ∧ ty.size = .ok block.size

namespace Lowers

variable {checked : CheckedSource} (h : checked.Lowers) {capacity : Nat} {id id' : SymbolId}
  {dims dims' indices indices' : List Nat} {slot slot' : Nat}

include h

/-- Every array that is declared has storage. -/
theorem exists_stored (capacity : Nat) (declared : id ∈ checked.tree.declared) {ty : Ty}
    (typed : checked.table.typeOf? id = some ty) (array : ty.IsArray dims) :
    ∃ label block offset, checked.Stored capacity id dims label block offset := by
  obtain ⟨label, labelled⟩ := h.exists_label declared
  obtain ⟨s, typed', storable, word, held⟩ := h.storage_of_label labelled
  cases typed.symm.trans typed'
  have mem : DataBlock.ofStatic (label, s.storageBlock) ∈ checked.program.blocks :=
    List.mem_append_right _ (List.mem_map.2 ⟨_, held, rfl⟩)
  obtain ⟨offset, found, aligned, inside⟩ := h.wellLabelled.exists_dataOffset? capacity mem
  have size := array.size_eq storable.size
  refine ⟨label, s.storageBlock, offset, labelled, held, found, size, ?_, ?_, inside,
    s.ty, typed, array, storable.size⟩
  · rw [size] at word
    exact Nat.pos_of_mul_pos_left (Nat.lt_of_lt_of_le (by decide : 0 < Ty.wordSize) word)
  · rwa [show (DataBlock.ofStatic (label, s.storageBlock)).alignment = Ty.wordSize from
      Ty.alignment_eq storable.alignment] at aligned

/-- The storage that a part lies in. -/
theorem stored_of_part (part : checked.PartAt checked.labels (checked.program.machine capacity) id dims indices slot) :
    ∃ label block offset, checked.Stored capacity id dims label block offset ∧
      slot = offset + Ty.wordSize * rowMajor dims indices := by
  obtain ⟨ty, typed, array⟩ := part.array
  obtain ⟨label, block, offset, stored⟩ := h.exists_stored capacity part.declared typed array
  obtain ⟨label', offset', labelled, found, rfl⟩ := part.place
  cases stored.labelled.symm.trans labelled
  cases stored.found.symm.trans found
  exact ⟨label, block, offset, stored, rfl⟩

omit h in
/-- A part lies in the storage of its variable. -/
theorem part_inside {label : String} {block : StaticBlock} {offset : Nat}
    (stored : checked.Stored capacity id dims label block offset) (within : InRange indices dims) :
    offset + Ty.wordSize * rowMajor dims indices + Ty.wordSize * (dims.drop indices.length).prod ≤
      offset + block.size := by
  have ends := Nat.mul_le_mul_left Ty.wordSize within.rowMajor_add_le
  rw [Nat.mul_add, ← stored.size] at ends
  omega

/-- A part is apart from every other variable. -/
theorem part_apart_variable
    (part : checked.PartAt checked.labels (checked.program.machine capacity) id dims indices slot)
    (other : id' ≠ id) {label' : String} {block' : StaticBlock} {offset' : Nat}
    (labelled' : checked.labels id' = some label') (held' : (label', block') ∈ checked.program.static.entries)
    (found' : (checked.program.machine capacity).dataOffset? label' = some offset') :
    slot + Ty.wordSize * (dims.drop indices.length).prod ≤ offset' ∨ offset' + block'.size ≤ slot := by
  obtain ⟨label, block, offset, stored, rfl⟩ := h.stored_of_part part
  have inside := part_inside stored part.within
  have different : label ≠ label' := by
    rintro rfl
    exact other (h.labels_inj labelled' stored.labelled)
  have mem : ∀ {entry}, entry ∈ checked.program.static.entries →
      DataBlock.ofStatic entry ∈ checked.program.blocks :=
    fun held => List.mem_append_right _ (List.mem_map.2 ⟨_, held, rfl⟩)
  have apart := h.wellLabelled.dataOffset?_disjoint (mem stored.held) (mem held') different stored.found found'
  simp only [DataBlock.ofStatic] at apart
  omega

/-- A part is apart from every literal. -/
theorem part_apart_literal
    (part : checked.PartAt checked.labels (checked.program.machine capacity) id dims indices slot)
    {label' : String} {block' : ReadOnlyBlock} {offset' : Nat}
    (held' : (label', block') ∈ checked.program.readOnly.entries)
    (found' : (checked.program.machine capacity).dataOffset? label' = some offset') :
    slot + Ty.wordSize * (dims.drop indices.length).prod ≤ offset' ∨ offset' + block'.size ≤ slot := by
  obtain ⟨label, block, offset, stored, rfl⟩ := h.stored_of_part part
  have inside := part_inside stored part.within
  have different : label ≠ label' := by
    rintro rfl
    exact h.firstLetter_ne stored.labelled (firstLetter_of_readOnly (List.mem_map.2 ⟨_, held', rfl⟩))
  have mem : DataBlock.ofStatic (label, block) ∈ checked.program.blocks :=
    List.mem_append_right _ (List.mem_map.2 ⟨_, stored.held, rfl⟩)
  have apart := h.wellLabelled.dataOffset?_disjoint mem (literal_block held').2 different stored.found found'
  simp only [DataBlock.ofStatic, DataBlock.ofReadOnly] at apart
  omega

/-- Two parts of which none contains the other are apart. -/
theorem parts_apart (part : checked.PartAt checked.labels (checked.program.machine capacity) id dims indices slot)
    (part' : checked.PartAt checked.labels (checked.program.machine capacity) id' dims' indices' slot')
    (other : ¬(id' = id ∧ (indices <+: indices' ∨ indices' <+: indices))) :
    slot + Ty.wordSize * (dims.drop indices.length).prod ≤ slot' ∨
      slot' + Ty.wordSize * (dims'.drop indices'.length).prod ≤ slot := by
  obtain ⟨label', block', offset', stored', rfl⟩ := h.stored_of_part part'
  by_cases same : id' = id
  · subst same
    simp only [true_and, not_or] at other
    obtain ⟨label, block, offset, stored, rfl⟩ := h.stored_of_part part
    cases stored.labelled.symm.trans stored'.labelled
    cases stored.found.symm.trans stored'.found
    cases part.dims_eq part'
    rcases part.within.apart part'.within other.1 other.2 with first | second
    · have scaled := Nat.mul_le_mul_left Ty.wordSize first
      rw [Nat.mul_add] at scaled
      omega
    · have scaled := Nat.mul_le_mul_left Ty.wordSize second
      rw [Nat.mul_add] at scaled
      omega
  · have inside := part_inside stored' part'.within
    have apart := h.part_apart_variable part same stored'.labelled stored'.held stored'.found
    omega

/-- Two elements are apart. -/
theorem elements_apart (part : checked.PartAt checked.labels (checked.program.machine capacity) id dims indices slot)
    (full : indices.length = dims.length)
    (part' : checked.PartAt checked.labels (checked.program.machine capacity) id' dims' indices' slot')
    (full' : indices'.length = dims'.length) (different : (id, indices) ≠ (id', indices')) :
    slot + Ty.wordSize ≤ slot' ∨ slot' + Ty.wordSize ≤ slot := by
  have outside : ¬(id' = id ∧ (indices <+: indices' ∨ indices' <+: indices)) := by
    rintro ⟨rfl, contained⟩
    have length : indices.length = indices'.length := by rw [full, full', part.dims_eq part']
    rcases contained with inner | outer
    · exact different (by rw [inner.eq_of_length length])
    · exact different (by rw [outer.eq_of_length length.symm])
  have apart := h.parts_apart part part' outside
  rwa [full, full', List.drop_length, List.drop_length, List.prod_nil, Nat.mul_one] at apart

section Address

variable (part : checked.PartAt checked.labels (checked.program.machine capacity) id dims indices slot) {x : Expr}
  {ty : Ty} (typed : x.Typed checked.table.typeOf? ty) (root : x.root? = some id) {memory : Array Int32}
  (values : x.subscripts ((checked.program.machine capacity).placement checked.labels) memory =
    .ok (indices.map .ofNat))

include part typed root values

/-- The address of a part is computed from the start of its variable, with the distances of its dimensions. -/
theorem terms_of_part : ∃ label block offset, checked.Stored capacity id dims label block offset ∧
    slot = offset + Ty.wordSize * rowMajor dims indices ∧
    ((checked.program.machine capacity).placement checked.labels).variableAt id = .ofNat offset ∧
    (indices.map Int32.ofNat).zip x.strides = terms dims indices := by
  obtain ⟨label, block, offset, stored, same⟩ := h.stored_of_part part
  obtain ⟨whole, found, array, sized⟩ := stored.sized
  obtain ⟨_, found', -, strides⟩ := typed.exists_root root
  cases found.symm.trans found'
  have length : x.strides.length = indices.length := by
    rw [← Expr.length_subscripts values, List.length_map]
  refine ⟨label, block, offset, stored, same, by simp [Machine.placement, stored.labelled, stored.found], ?_⟩
  rw [strides, length]
  exact zip_strides array stored.positive sized part.within.length_le

/-- The address of a part, as the machine computes it, is its slot, up to what does not fit into 32 bits. -/
theorem address_of_part (number : Nat) :
    x.address ((checked.program.machine capacity).placement checked.labels) memory number =
      .ok (.ofNat slot) := by
  obtain ⟨_, _, offset, -, rfl, start, zipped⟩ := h.terms_of_part part typed root values
  rw [typed.address_eq root, values, start]
  refine congrArg Except.ok ?_
  rw [zipped, part.within.wrappedAddress_eq]

/-- In a memory of 31 bits nothing is lost on the way to the address of a part. -/
theorem exact_of_part (fits : (checked.program.machine capacity).memory.size ≤ 2147483647) :
    Exact (((checked.program.machine capacity).placement checked.labels).variableAt id)
      ((indices.map .ofNat).zip x.strides) := by
  obtain ⟨_, _, offset, stored, -, start, zipped⟩ := h.terms_of_part part typed root values
  rw [start, zipped]
  refine part.within.exact stored.positive ?_
  rw [← stored.size]
  exact Nat.le_trans stored.inside fits

end Address

omit h in
/-- There is an expression for every part, with constants for its indices. By induction on the indices, the
last one first. -/
theorem exists_constantPart {label : String} {block : StaticBlock} {offset : Nat}
    (stored : checked.Stored capacity id dims label block offset) (within : InRange indices dims) :
    ∃ (x : Expr) (ty : Ty), x.Typed checked.table.typeOf? ty ∧ x.root? = some id ∧
      x.HasCode checked.labels ∧ ∀ place memory, x.subscripts place memory = .ok (indices.map .ofNat) := by
  obtain ⟨whole, found, array, sized⟩ := stored.sized
  suffices ∃ x : Expr, x.Typed checked.table.typeOf? (whole.part indices.length) ∧ x.root? = some id ∧
      x.HasCode checked.labels ∧ ∀ place memory, x.subscripts place memory = .ok (indices.map .ofNat) by
    obtain ⟨x, typed, rest⟩ := this
    exact ⟨x, _, typed, rest⟩
  induction indices using List.reverseRecOn with
  | nil =>
    exact ⟨.name label (some id) (some whole), .name found, rfl, ⟨id, label, rfl, stored.labelled⟩,
      fun _ _ => rfl⟩
  | append_singleton indices i ih =>
    obtain ⟨first, last⟩ := within.of_append
    obtain ⟨x, typed, root, has, values⟩ := ih first
    have lt : indices.length < dims.length := by
      have le := within.length_le
      rw [List.length_append, List.length_singleton] at le
      exact le
    refine ⟨.index x (.literal (.int (.ofNat i)) (some .int)) (some (whole.part (indices.length + 1))), ?_, root,
      ⟨⟨_, _, rfl, array.size_part stored.positive sized _⟩, has, trivial⟩, fun place memory => ?_⟩
    · rw [List.length_append, List.length_singleton]
      exact .index typed (.literal (.int _)) (array.element?_part lt)
    · rw [Expr.subscripts, values, List.map_append]
      rfl

end Lowers

/-- What is true of a part of a variable: it lies in the variable's own block, it is aligned, lowering emits
code for it at constant indices, and whatever code lowering emits for it computes its slot, without a product
or a sum that leaves 32 bits. -/
structure PartSound (checked : CheckedSource) (table : SymbolTable) (p : Program) (m : Machine) (id : SymbolId)
    (dims indices : List Nat) (slot : Nat) : Prop where
  inside : ∃ label block offset, table.label? id = some label ∧ (label, block) ∈ p.static.entries ∧
    m.dataOffset? label = some offset ∧ slot = offset + Ty.wordSize * rowMajor dims indices ∧
    slot + Ty.wordSize * (dims.drop indices.length).prod ≤ offset + block.size ∧
    offset + block.size ≤ m.memory.size
  aligned : Ty.wordSize ∣ slot
  lowered : ∃ (x : Expr) (ty : Ty), x.Typed checked.table.typeOf? ty ∧ x.root? = some id ∧
    (∀ place memory, x.subscripts place memory = .ok (indices.map .ofNat)) ∧
    ∀ e : Emission, e.table.label? = table.label? → ∃ e', Lowering.lowerAddress x e = .ok () e'
  emitted : ∀ (x : Expr) (ty : Ty) (e e' : Emission), x.Typed checked.table.typeOf? ty → x.root? = some id →
    e.table.label? = table.label? → Lowering.lowerAddress x e = .ok () e' →
      ∃ code, e'.code.toList = e.code.toList ++ code ∧ ∀ (s : Situation) (pc : Nat),
        x.subscripts (m.placement table.label?) s.memory = .ok (indices.map .ofNat) →
          Exact ((m.placement table.label?).variableAt id) ((indices.map .ofNat).zip x.strides) ∧
          m.line code (s.stateAt pc) = .ok () ((s.push (.ofNat slot)).stateAt (pc + code.length))

/-- Nothing outside a part of a variable has changed: no other variable, of whatever type, no element outside
the part, and no literal. -/
structure ChangesOnly (checked : CheckedSource) (labels : SymbolId → Option String) (p : Program) (m : Machine)
    (id : SymbolId) (indices : List Nat) (memory memory' : Array Int32) : Prop where
  others : ∀ id' label block offset, id' ≠ id → labels id' = some label →
    (label, block) ∈ p.static.entries → m.dataOffset? label = some offset →
      ∀ k < block.size, memory'[offset + k]? = memory[offset + k]?
  elements : ∀ id' dims' indices' slot', checked.PartAt labels m id' dims' indices' slot' →
    indices'.length = dims'.length → ¬(id' = id ∧ indices <+: indices') →
      ∀ k < Ty.wordSize, memory'[slot' + k]? = memory[slot' + k]?
  literals : ∀ label block offset, (label, block) ∈ p.readOnly.entries → m.dataOffset? label = some offset →
    ∀ k < block.size, memory'[offset + k]? = memory[offset + k]?

namespace Lowers

variable {checked : CheckedSource} (h : checked.Lowers) {capacity : Nat} {id : SymbolId}
  {dims indices : List Nat} {slot : Nat}
  (fits : (checked.program.machine capacity).memory.size ≤ 2147483647)
  (part : checked.PartAt checked.labels (checked.program.machine capacity) id dims indices slot)

include h fits part

/-- Everything that is said of a part of an array, from the layout of the program and the indices being in range. -/
theorem partSound {table : SymbolTable} (labels : table.label? = checked.labels) :
    checked.PartSound table checked.program (checked.program.machine capacity) id dims indices slot where
  inside := by
    obtain ⟨label, block, offset, stored, same⟩ := h.stored_of_part part
    refine ⟨label, block, offset, labels ▸ stored.labelled, stored.held, stored.found, same, ?_, stored.inside⟩
    rw [same]
    exact part_inside stored part.within
  aligned := by
    obtain ⟨label, block, offset, stored, rfl⟩ := h.stored_of_part part
    exact Nat.dvd_add stored.aligned (Nat.dvd_mul_right _ _)
  lowered := by
    obtain ⟨label, block, offset, stored, -⟩ := h.stored_of_part part
    obtain ⟨x, ty, typed, root, has, values⟩ := exists_constantPart stored part.within
    refine ⟨x, ty, typed, root, values, fun e same => ?_⟩
    exact Lowering.exists_lowerAddress typed (Expr.isLvalue_of_root root) has e (same.trans labels)
  emitted x ty e e' typed root same lowered := by
    have lvalue := Expr.isLvalue_of_root root
    have emitted := Lowering.lowerAddress_emitted typed lvalue lowered
    have agrees : Lowering.Agrees e'.table checked.labels := by
      intro id label found
      rw [emitted.table_eq] at found
      rw [← labels, ← same]
      exact found
    obtain ⟨has, code⟩ := emitted.code_eq checked.labels agrees
    refine ⟨x.addressCode checked.labels e.nextId, code, fun s pc values => ?_⟩
    rw [labels] at values ⊢
    have address := h.address_of_part part typed root values e.nextId
    have empty := Expr.literals_eq_nil (typed.numbers_eq_zero (.inr lvalue)) e.nextId
    have provides := Machine.provides_of_supplied h.supplied capacity
    have yields := (Expr.yields provides typed has (empty ▸ List.nil_subset _)).2 lvalue s
    rw [address] at yields
    exact ⟨h.exact_of_part part typed root values fits, yields pc⟩

/-- A write to the first slot of a part changes nothing outside the part. -/
theorem changesOnly_of_write {memory memory' : Array Int32} {value : Int32}
    (written : writeSlot memory (.ofNat slot) value = .ok memory') :
    checked.ChangesOnly checked.labels checked.program (checked.program.machine capacity) id indices memory
      memory' := by
  obtain ⟨label, block, offset, stored, same⟩ := h.stored_of_part part
  have inside := part_inside stored part.within
  have word : Ty.wordSize ≤ Ty.wordSize * (dims.drop indices.length).prod :=
    Nat.le_mul_of_pos_right _ (prod_drop_le stored.positive _).2
  rw [← same] at inside
  simp only [Ty.wordSize] at word inside
  have small : slot < 2147483648 := by
    have room := stored.inside
    omega
  -- A slot within 31 bits is not wrapped, so it is the part's own.
  have only := (getElem?_of_writeSlot written).2
  rw [wrapSlot_eq small] at only
  refine ⟨?_, ?_, ?_⟩
  · intro id' label' block' offset' other labelled' held' found' k lt
    have apart := h.part_apart_variable part other labelled' held' found'
    simp only [Ty.wordSize] at apart
    exact only _ (by omega)
  · intro id' dims' indices' slot' part' full other k lt
    have outside : ¬(id' = id ∧ (indices <+: indices' ∨ indices' <+: indices)) := by
      rintro ⟨rfl, inner | outer⟩
      · exact other ⟨rfl, inner⟩
      · -- No more indices than those of an element are in range.
        have long : indices.length ≤ indices'.length := by
          rw [full, ← part.dims_eq part']
          exact part.within.length_le
        exact other ⟨rfl, outer.eq_of_length_le long ▸ List.prefix_refl _⟩
    have apart := h.parts_apart part part' outside
    simp only [Ty.wordSize] at apart lt
    rw [full, List.drop_length, List.prod_nil] at apart
    exact only _ (by omega)
  · intro label' block' offset' held' found' k lt
    have apart := h.part_apart_literal part held' found'
    simp only [Ty.wordSize] at apart
    exact only _ (by omega)

/-- An assignment to a part, or an input into it, changes nothing outside the part. -/
theorem changesOnly_of_path {action : Action} (mem : action ∈ checked.tree.course 0) {target : Expr}
    (stores : action.target? = some target) (root : target.root? = some id) {s s' : Machine.State}
    {places : List Nat} (holds : checked.program.Holds s.pc (action.code checked.labels))
    (path : (checked.program.machine capacity).Path s places s')
    (length : places.length = (action.code checked.labels).length)
    (values : target.subscripts ((checked.program.machine capacity).placement checked.labels) s.memory =
      .ok (indices.map .ofNat)) :
    checked.ChangesOnly checked.labels checked.program (checked.program.machine capacity) id indices s.memory
      s'.memory := by
  have sound := h.sound_course (fun _ => trivial) action mem
  obtain ⟨number, ty, address, stored, targetSound, found, written⟩ :=
    sound.exists_store (Machine.provides_of_supplied h.supplied capacity) stores holds path length
  have computed := h.address_of_part part targetSound.typed root values number
  cases computed.symm.trans found
  exact h.changesOnly_of_write fits part written

end Lowers

/-- A piece of the course of a tree has its code in the program. -/
theorem holds_of_course {checked : CheckedSource} {before after : List Action} {action : Action}
    (split : checked.tree.course 0 = before ++ action :: after) :
    checked.program.Holds (before.flatMap (Action.code checked.labels)).length
      (action.code checked.labels) := by
  refine ⟨_, after.flatMap (Action.code checked.labels), ?_, rfl⟩
  have code : checked.program.code = (checked.tree.course 0).flatMap (Action.code checked.labels) :=
    checked.tree.code_course checked.labels 0
  rw [code, split, List.flatMap_append, List.flatMap_cons]

end CheckedSource

/-- Elements of arrays do not alias and do not leave their block. The program of a source loads into every
machine, and if its memory has at most 2³¹ - 1 slots, then every variable without pointers in its type has a slot
for all indices in range: the exact one in row-major order, in the block of the variable and aligned, and the one
that the emitted code computes (`PartSound`). Different elements have different slots, and none is a slot of a
literal. So an assignment or an input whose target is in range changes nothing but its target. -/
theorem Source.lower_elements_apart {source : String} {options : Options} {p : Program}
    (lowered : Source.lower source options = .ok p) :
    ∃ (checked : CheckedSource) (table : SymbolTable),
      Source.check source options = .ok checked ∧
      checked.tree.lower checked.table = (.ok p, table) ∧
      ∀ blank : Machine, ∃ m, Machine.load p blank = .ok () m ∧ (m.memory.size ≤ 2147483647 →
        (∀ id ∈ checked.tree.declared, ∀ ty dims indices, checked.table.typeOf? id = some ty →
          ty.IsArray dims → InRange indices dims →
            ∃ slot, checked.PartAt table.label? m id dims indices slot ∧
              checked.PartSound table p m id dims indices slot) ∧
        (∀ id dims indices slot id' dims' indices' slot',
          checked.PartAt table.label? m id dims indices slot → indices.length = dims.length →
          checked.PartAt table.label? m id' dims' indices' slot' → indices'.length = dims'.length →
            (id, indices) ≠ (id', indices') → slot ≠ slot') ∧
        (∀ id dims indices slot label block offset, checked.PartAt table.label? m id dims indices slot →
          (label, block) ∈ p.readOnly.entries → m.dataOffset? label = some offset →
            ∀ k < block.size, slot ≠ offset + k) ∧
        ∀ before action after target id, checked.tree.course 0 = before ++ action :: after →
          action.target? = some target → target.root? = some id → ∀ s places s' dims indices slot,
            s.pc = (before.flatMap (Action.code table.label?)).length → m.Path s places s' →
            places.length = (action.code table.label?).length →
            target.subscripts (m.placement table.label?) s.memory = .ok (indices.map .ofNat) →
            checked.PartAt table.label? m id dims indices slot →
              checked.ChangesOnly table.label? p m id indices s.memory s'.memory) := by
  obtain ⟨checked, table, hcheck, hlower, h, rfl, labels⟩ := Source.lower_eq_ok lowered
  refine ⟨checked, table, hcheck, hlower, fun blank => ⟨checked.program.machine blank.capacity,
    Machine.load_eq_ok_iff.2 ⟨h.wellLabelled, rfl⟩, fun fits => ?_⟩⟩
  rw [labels]
  refine ⟨?_, ?_, ?_, ?_⟩
  · intro id declared ty dims indices typed array within
    obtain ⟨label, block, offset, stored⟩ := h.exists_stored blank.capacity declared typed array
    have part : checked.PartAt checked.labels (checked.program.machine blank.capacity) id dims indices _ :=
      ⟨declared, ⟨ty, typed, array⟩, within, label, offset, stored.labelled, stored.found, rfl⟩
    exact ⟨_, part, h.partSound fits part labels⟩
  · intro id dims indices slot id' dims' indices' slot' part full part' full' different
    have apart := h.elements_apart part full part' full' different
    simp only [Ty.wordSize] at apart
    omega
  · intro id dims indices slot label block offset part held found k lt same
    obtain ⟨_, _, _, stored, -⟩ := h.stored_of_part part
    have positive : 0 < (dims.drop indices.length).prod := (prod_drop_le stored.positive _).2
    have apart := h.part_apart_literal part held found
    simp only [Ty.wordSize] at apart
    omega
  · intro before action after target id split stores root s places s' dims indices slot pc path length values part
    have mem : action ∈ checked.tree.course 0 := by
      rw [split]
      exact List.mem_append_right _ (.head _)
    have holds : checked.program.Holds s.pc (action.code checked.labels) :=
      pc ▸ CheckedSource.holds_of_course split
    exact h.changesOnly_of_path fits part mem stores root holds path length values

set_option maxRecDepth 100000 in
/-- A matrix beside another variable and a literal: its elements at 1, 2 and at 0, 1 have slots of their own. -/
theorem Source.lower_elements_apart_matrix :
    ∃ (source : String) (p : Program) (checked : CheckedSource) (table : SymbolTable) (m : Machine)
      (id : SymbolId) (slot slot' : Nat),
      source = "\x7b int[2][3] m; int i = 1; m[i][2] = 7; print \"done\"; \x7d" ∧
      Source.lower source = .ok p ∧ Source.check source = .ok checked ∧
      checked.tree.lower checked.table = (.ok p, table) ∧ Machine.load p {} = .ok () m ∧
      m.memory.size ≤ 2147483647 ∧ checked.PartAt table.label? m id [2, 3] [1, 2] slot ∧
      checked.PartSound table p m id [2, 3] [1, 2] slot ∧
      checked.PartAt table.label? m id [2, 3] [0, 1] slot' ∧ slot ≠ slot' := by
  generalize hsource : "\x7b int[2][3] m; int i = 1; m[i][2] = 7; print \"done\"; \x7d" = source
  have fits : (Source.lower source).toOption.any (fun p => (p.machine 1024).memory.size ≤ 2147483647) = true := by
    subst hsource
    decide +kernel
  have matrix : (Source.check source).toOption.any (fun checked => checked.tree.declared.any fun id =>
      checked.table.typeOf? id == some ⟨.int, [.array 2, .array 3]⟩) = true := by
    subst hsource
    decide +kernel
  refine ⟨source, ?_⟩
  cases lowered : Source.lower source with
  | error e => simp [lowered, Except.toOption] at fits
  | ok p =>
    obtain ⟨checked, table, hcheck, hlower, loads⟩ := Source.lower_elements_apart lowered
    obtain ⟨m, loaded, elements⟩ := loads {}
    obtain rfl := (Machine.load_eq_ok_iff.1 loaded).2
    simp only [lowered, Except.toOption, Option.any_some, decide_eq_true_eq] at fits
    simp only [hcheck, Except.toOption, Option.any_some, List.any_eq_true, beq_iff_eq] at matrix
    obtain ⟨id, declared, typed⟩ := matrix
    obtain ⟨placed, apart, -⟩ := elements fits
    obtain ⟨slot, part, sound⟩ := placed id declared _ [2, 3] [1, 2] typed rfl
      (.cons (by decide) (.cons (by decide) (.nil [])))
    obtain ⟨slot', part', -⟩ := placed id declared _ [2, 3] [0, 1] typed rfl
      (.cons (by decide) (.cons (by decide) (.nil [])))
    exact ⟨p, checked, table, _, id, slot, slot', rfl, rfl, hcheck, hlower, loaded, fits, part, sound, part',
      apart _ _ _ _ _ _ _ _ part rfl part' rfl (by simp)⟩

end MiniC
