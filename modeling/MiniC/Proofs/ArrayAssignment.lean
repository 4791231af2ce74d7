import MiniC.Proofs.Elements

/-!
# Assignment of arrays

An array is assigned like a number: its code computes one address and one word, and stores the word there.
So of all elements only the first one is written. What is written to it is the first element of a variable
(`Expr.arrayWord?`); but for an element that is itself an array, whose code leaves an address, it is the address.

`Source.lower_array_copy_iff` says of every assignment and every initial value when this comes to a copy.
-/

namespace MiniC

/-- The word that the code of an array leaves, if the array starts at the given slot. -/
def Expr.arrayWord? (memory : Array Int32) (slot : Nat) : Expr → Option Int32
  | .index .. => some (.ofNat slot)
  | .name .. | .literal .. | .unary .. | .binary .. | .call .. => memory[wrapSlot slot]?

namespace CheckedSource

/-- Two slots hold corresponding elements of two parts of variables: the same indices lead to them from the
starts of the parts. -/
def Corresponding (checked : CheckedSource) (labels : SymbolId → Option String) (m : Machine)
    (id : SymbolId) (dims indices : List Nat) (id' : SymbolId) (dims' indices' : List Nat)
    (slot slot' : Nat) : Prop :=
  ∃ rest, (indices ++ rest).length = dims.length ∧ checked.PartAt labels m id dims (indices ++ rest) slot ∧
    checked.PartAt labels m id' dims' (indices' ++ rest) slot'

section Parts

variable {checked : CheckedSource} {labels : SymbolId → Option String} {m : Machine} {id id' : SymbolId}
  {dims dims' indices indices' rest : List Nat} {start start' slot slot' : Nat}

/-- A part of a part is found from the start of the part. -/
theorem PartAt.slot_append (part : checked.PartAt labels m id dims indices start)
    (inner : checked.PartAt labels m id dims (indices ++ rest) slot) :
    slot = start + Ty.wordSize * rowMajor (dims.drop indices.length) rest := by
  obtain ⟨label, offset, labelled, found, rfl⟩ := part.place
  obtain ⟨label', offset', labelled', found', rfl⟩ := inner.place
  cases labelled.symm.trans labelled'
  cases found.symm.trans found'
  rw [part.within.rowMajor_append, Nat.mul_add, Nat.add_assoc]

theorem PartAt.append (part : checked.PartAt labels m id dims indices start)
    (within : InRange rest (dims.drop indices.length)) :
    checked.PartAt labels m id dims (indices ++ rest)
      (start + Ty.wordSize * rowMajor (dims.drop indices.length) rest) := by
  obtain ⟨label, offset, labelled, found, rfl⟩ := part.place
  refine ⟨part.declared, part.array, part.within.append within, label, offset, labelled, found, ?_⟩
  rw [part.within.rowMajor_append, Nat.mul_add, Nat.add_assoc]

/-- Corresponding elements are equally far from the starts of their parts. -/
theorem Corresponding.distance (part : checked.PartAt labels m id dims indices start)
    (part' : checked.PartAt labels m id' dims' indices' start')
    (same : dims'.drop indices'.length = dims.drop indices.length)
    (h : checked.Corresponding labels m id dims indices id' dims' indices' slot slot') :
    ∃ distance, slot = start + distance ∧ slot' = start' + distance := by
  obtain ⟨rest, -, inner, inner'⟩ := h
  refine ⟨_, part.slot_append inner, ?_⟩
  rw [← same]
  exact part'.slot_append inner'

/-- The starts of two parts hold their first elements. -/
theorem Corresponding.first (part : checked.PartAt labels m id dims indices start)
    (part' : checked.PartAt labels m id' dims' indices' start')
    (same : dims'.drop indices'.length = dims.drop indices.length)
    (positive : 0 < (dims.drop indices.length).prod) :
    checked.Corresponding labels m id dims indices id' dims' indices' start start' := by
  have within := InRange.zeros positive
  have first := part.append within
  have first' := part'.append (same ▸ within)
  rw [rowMajor_zeros, Nat.mul_zero, Nat.add_zero] at first
  rw [same, rowMajor_zeros, Nat.mul_zero, Nat.add_zero] at first'
  refine ⟨_, ?_, first, first'⟩
  have le := part.within.length_le
  rw [List.length_append, List.length_replicate, List.length_drop]
  omega

/-- Where one word was written to the start of a part, the part is a copy if the word was the right one and the
other elements were so already. -/
theorem copy_iff {memory memory' : Array Int32} (part : checked.PartAt labels m id dims indices start)
    (part' : checked.PartAt labels m id' dims' indices' start')
    (same : dims'.drop indices'.length = dims.drop indices.length)
    (positive : 0 < (dims.drop indices.length).prod)
    (others : ∀ k, k ≠ start → memory'[k]? = memory[k]?) :
    (∀ slot slot', checked.Corresponding labels m id dims indices id' dims' indices' slot slot' →
        memory'[slot]? = memory[slot']?) ↔
      memory'[start]? = memory[start']? ∧
        ∀ slot slot', checked.Corresponding labels m id dims indices id' dims' indices' slot slot' →
          slot ≠ start → memory[slot]? = memory[slot']? := by
  constructor
  · intro copied
    refine ⟨copied _ _ (.first part part' same positive), fun slot slot' corresponding other => ?_⟩
    rw [← others slot other]
    exact copied slot slot' corresponding
  · intro ⟨first, later⟩ slot slot' corresponding
    by_cases initial : slot = start
    · obtain ⟨distance, slot_eq, rfl⟩ := corresponding.distance part part' same
      have none : distance = 0 := by omega
      rw [initial, first, none, Nat.add_zero]
    · rw [others slot initial]
      exact later slot slot' corresponding initial

end Parts

namespace Lowers

variable {checked : CheckedSource} (h : checked.Lowers) {capacity : Nat} {id id' : SymbolId}
  {dims dims' indices indices' : List Nat} {start start' : Nat}
  (part : checked.PartAt checked.labels (checked.program.machine capacity) id dims indices start)
  (part' : checked.PartAt checked.labels (checked.program.machine capacity) id' dims' indices' start')

include part in
/-- The type of a part. -/
theorem isArray_of_part {x : Expr} {ty : Ty} (typed : x.Typed checked.table.typeOf? ty)
    (root : x.root? = some id) {memory : Array Int32}
    (values : x.subscripts ((checked.program.machine capacity).placement checked.labels) memory =
      .ok (indices.map .ofNat)) :
    ty.IsArray (dims.drop indices.length) := by
  obtain ⟨whole, found, array⟩ := part.array
  obtain ⟨_, found', rfl, -⟩ := typed.exists_root root
  cases found.symm.trans found'
  rw [← Expr.length_subscripts values, List.length_map]
  exact array.part indices.length

include h part

/-- A part is not empty, and its slot is one of memory. -/
theorem part_nonempty :
    start < (checked.program.machine capacity).memory.size ∧ 0 < (dims.drop indices.length).prod := by
  obtain ⟨label, block, offset, stored, rfl⟩ := h.stored_of_part part
  have inside := part_inside stored part.within
  have room := stored.inside
  have positive := (prod_drop_le stored.positive indices.length).2
  simp only [Ty.wordSize] at inside ⊢
  exact ⟨by omega, positive⟩

/-- The word that the code of an array leaves. -/
theorem arrayWord?_of_value {x : Expr} {ty : Ty} (typed : x.Typed checked.table.typeOf? ty)
    (root : x.root? = some id) (inner : indices.length < dims.length) {memory : Array Int32}
    (values : x.subscripts ((checked.program.machine capacity).placement checked.labels) memory =
      .ok (indices.map .ofNat)) {number : Nat} {word : Int32}
    (computed : x.value ((checked.program.machine capacity).placement checked.labels) memory number = .ok word) :
    x.arrayWord? memory start = some word := by
  have address := h.address_of_part part typed root values number
  cases x with
  | name spelling symbol ty =>
    rw [Expr.value, Except.ok.inj address] at computed
    exact getElem?_of_readSlot computed
  | index base position given =>
    -- What is left after the indices has a dimension, so the code does not end with a load.
    have qualified : isLoaded given = false := by
      have qualifiers : ty.qualifiers = (dims.drop indices.length).map .array :=
        isArray_of_part part typed root values
      rw [List.drop_eq_getElem_cons inner, List.map_cons] at qualifiers
      cases typed with
      | index _ _ _ => simp [isLoaded, Ty.isUnqualified, qualifiers]
    rw [Expr.value_index, address, qualified] at computed
    exact congrArg some (Except.ok.inj computed)
  | literal | unary | binary | call => cases root

include part'

/-- An assignment of an array writes one word to the start of its target, and nothing else. -/
theorem assign_of_parts {number : Nat} {target value : Expr}
    (mem : Action.assign number target value ∈ checked.tree.course 0) (root : target.root? = some id)
    (root' : value.root? = some id') (inner : indices.length < dims.length) {s s' : Machine.State}
    {places : List Nat} (holds : checked.program.Holds s.pc ((Action.assign number target value).code checked.labels))
    (path : (checked.program.machine capacity).Path s places s')
    (length : places.length = ((Action.assign number target value).code checked.labels).length)
    (values : target.subscripts ((checked.program.machine capacity).placement checked.labels) s.memory =
      .ok (indices.map .ofNat))
    (values' : value.subscripts ((checked.program.machine capacity).placement checked.labels) s.memory =
      .ok (indices'.map .ofNat)) :
    dims'.drop indices'.length = dims.drop indices.length ∧
      s'.memory[wrapSlot start]? = value.arrayWord? s.memory start' ∧
      (∀ k, k ≠ wrapSlot start → s'.memory[k]? = s.memory[k]?) ∧
      ((checked.program.machine capacity).memory.size ≤ 4294967296 → wrapSlot start = start) := by
  have sound := h.sound_course (fun _ => trivial) _ mem
  obtain ⟨address, word, found, computed, written⟩ :=
    Action.assign_of_path (Machine.provides_of_supplied h.supplied capacity) sound holds path length
  obtain ⟨-, ty, targetSound, valueSound⟩ := sound
  have array := isArray_of_part part targetSound.typed root values
  have array' := isArray_of_part part' valueSound.typed root' values'
  have same : dims'.drop indices'.length = dims.drop indices.length :=
    List.map_injective_iff.2 (fun _ _ same => Qualifier.array.inj same) (array'.symm.trans array)
  have inner' : indices'.length < dims'.length := by
    have lengths := congrArg List.length same
    simp only [List.length_drop] at lengths
    omega
  cases found.symm.trans (h.address_of_part part targetSound.typed root values number)
  obtain ⟨first, others⟩ := getElem?_of_writeSlot written
  have stored := h.arrayWord?_of_value part' valueSound.typed root' inner' values' computed
  refine ⟨same, first.trans stored.symm, others, fun fits => wrapSlot_eq (lt_of_writeSlot ?_ written)⟩
  exact Nat.lt_of_lt_of_le (h.part_nonempty part).1 fits

end Lowers

end CheckedSource

/-- Assignment of arrays. Whatever array a piece of code assigns or gives as an initial value, with its indices in
range, a single slot is written, where the address of the target leads: with the first element of a variable, or
with the address of an array that is an element. In a memory of 32 bits this slot is the first element of the target.
So the target has become a copy exactly if that word was the first element, and all other elements were those of the
value already. -/
theorem Source.lower_array_copy_iff {source : String} {options : Options} {p : Program}
    (lowered : Source.lower source options = .ok p) :
    ∃ (checked : CheckedSource) (table : SymbolTable),
      Source.check source options = .ok checked ∧
      checked.tree.lower checked.table = (.ok p, table) ∧
      ∀ blank : Machine, ∃ m, Machine.load p blank = .ok () m ∧
        ∀ before number target value after id id',
          checked.tree.course 0 = before ++ .assign number target value :: after →
          target.root? = some id → value.root? = some id' →
          ∀ s places s' dims indices start dims' indices' start',
            s.pc = (before.flatMap (Action.code table.label?)).length → m.Path s places s' →
            places.length = ((Action.assign number target value).code table.label?).length →
            target.subscripts (m.placement table.label?) s.memory = .ok (indices.map .ofNat) →
            value.subscripts (m.placement table.label?) s.memory = .ok (indices'.map .ofNat) →
            checked.PartAt table.label? m id dims indices start →
            checked.PartAt table.label? m id' dims' indices' start' → indices.length < dims.length →
              dims'.drop indices'.length = dims.drop indices.length ∧
              s'.memory[wrapSlot start]? = value.arrayWord? s.memory start' ∧
              (∀ k, k ≠ wrapSlot start → s'.memory[k]? = s.memory[k]?) ∧
              (m.memory.size ≤ 4294967296 → wrapSlot start = start ∧
                ((∀ slot slot',
                    checked.Corresponding table.label? m id dims indices id' dims' indices' slot slot' →
                      s'.memory[slot]? = s.memory[slot']?) ↔
                  value.arrayWord? s.memory start' = s.memory[start']? ∧ ∀ slot slot',
                    checked.Corresponding table.label? m id dims indices id' dims' indices' slot slot' →
                      slot ≠ start → s.memory[slot]? = s.memory[slot']?)) := by
  obtain ⟨checked, table, hcheck, hlower, h, rfl, labels⟩ := Source.lower_eq_ok lowered
  refine ⟨checked, table, hcheck, hlower, fun blank => ⟨checked.program.machine blank.capacity,
    Machine.load_eq_ok_iff.2 ⟨h.wellLabelled, rfl⟩, ?_⟩⟩
  rw [labels]
  intro before number target value after id id' split root root' s places s' dims indices start dims' indices' start'
    pc path length values values' part part' inner
  have mem : Action.assign number target value ∈ checked.tree.course 0 := by
    rw [split]
    exact List.mem_append_right _ (.head _)
  have holds : checked.program.Holds s.pc ((Action.assign number target value).code checked.labels) :=
    pc ▸ CheckedSource.holds_of_course split
  obtain ⟨same, first, others, exact⟩ :=
    h.assign_of_parts part part' mem root root' inner holds path length values values'
  refine ⟨same, first, others, fun fits => ⟨exact fits, ?_⟩⟩
  -- From here on the slot that is written is the first one of the part.
  rw [exact fits] at first others
  rw [← first]
  exact CheckedSource.copy_iff part part' same (h.part_nonempty part).2 others

/-- The action assigns a variable to another. -/
def Action.isCopyOf (id id' : SymbolId) : Action → Bool
  | .assign _ (.name _ symbol _) (.name _ symbol' _) => symbol == some id && symbol' == some id'
  | _ => false

set_option maxRecDepth 100000 in
/-- An array of two elements is assigned, and the second ones differ: the first one is copied, but not the array. -/
theorem Source.lower_array_copy_iff_pair :
    ∃ (source : String) (p : Program) (checked : CheckedSource) (table : SymbolTable) (m : Machine)
      (before after : List Action) (number : Nat) (target value : Expr) (s s' : Machine.State)
      (places : List Nat),
      source = "\x7b int[2] a; int[2] b; b[1] = 5; a = b; print a[1]; print b[1]; \x7d" ∧
      Source.lower source = .ok p ∧ Source.check source = .ok checked ∧ Machine.load p {} = .ok () m ∧
      m.memory.size ≤ 4294967296 ∧ checked.tree.course 0 = before ++ .assign number target value :: after ∧
      target.root? = some 6 ∧ value.root? = some 7 ∧
      s.pc = (before.flatMap (Action.code table.label?)).length ∧ m.Path s places s' ∧
      places.length = ((Action.assign number target value).code table.label?).length ∧
      checked.PartAt table.label? m 6 [2] [] 0 ∧ checked.PartAt table.label? m 7 [2] [] 8 ∧
      s'.memory[0]? = s.memory[8]? ∧
      ¬∀ slot slot', checked.Corresponding table.label? m 6 [2] [] 7 [2] [] slot slot' →
        s'.memory[slot]? = s.memory[slot']? := by
  generalize hsource : "\x7b int[2] a; int[2] b; b[1] = 5; a = b; print a[1]; print b[1]; \x7d" = source
  have runs : (Source.lower source).toOption.any (fun p =>
      ((p.machine 1024).advance 7 ((p.machine 1024).start {})).any fun s =>
        ((p.machine 1024).advance 4 s).any fun _ =>
          (p.machine 1024).memory.size ≤ 4294967296 ∧ (p.machine 1024).dataOffset? "v_a_0" = some 0 ∧
            (p.machine 1024).dataOffset? "v_b_1" = some 8 ∧ s.pc = 7 ∧ s.memory[4]? = some 0 ∧
            s.memory[12]? = some 5) = true := by
    subst hsource
    decide +kernel
  have shape : (Source.check source).toOption.any (fun checked =>
      (checked.tree.course 0)[5]?.any (Action.isCopyOf 6 7) ∧ 6 ∈ checked.tree.declared ∧
        7 ∈ checked.tree.declared ∧ checked.table.typeOf? 6 = some ⟨.int, [.array 2]⟩ ∧
        checked.table.typeOf? 7 = some ⟨.int, [.array 2]⟩ ∧
        (checked.tree.lower checked.table).2.label? 6 = some "v_a_0" ∧
        (checked.tree.lower checked.table).2.label? 7 = some "v_b_1" ∧
        (((checked.tree.course 0).take 5).flatMap
          (Action.code (checked.tree.lower checked.table).2.label?)).length = 7) = true := by
    subst hsource
    decide +kernel
  refine ⟨source, ?_⟩
  cases lowered : Source.lower source with
  | error e => simp [lowered, Except.toOption] at runs
  | ok p =>
    obtain ⟨checked, table, hcheck, hlower, loads⟩ := Source.lower_array_copy_iff lowered
    obtain ⟨m, loaded, copies⟩ := loads {}
    obtain rfl := (Machine.load_eq_ok_iff.1 loaded).2
    simp only [lowered, Except.toOption, Option.any_some, Option.any_eq_true, decide_eq_true_eq] at runs
    simp only [hcheck, hlower, Except.toOption, Option.any_some, Option.any_eq_true, decide_eq_true_eq] at shape
    obtain ⟨s, reached, s', went, fits, found, found', pc, second, second'⟩ := runs
    obtain ⟨⟨action, placed, copy⟩, declared, declared', typed, typed', labelled, labelled', length⟩ := shape
    obtain ⟨places, path, count⟩ := Machine.exists_path_of_advance went
    have part : checked.PartAt table.label? (p.machine 1024) 6 [2] [] 0 :=
      ⟨declared, ⟨_, typed, rfl⟩, .nil _, _, _, labelled, found, rfl⟩
    have part' : checked.PartAt table.label? (p.machine 1024) 7 [2] [] 8 :=
      ⟨declared', ⟨_, typed', rfl⟩, .nil _, _, _, labelled', found', rfl⟩
    have within : InRange [1] [2] := .cons (by decide) (.nil [])
    have corresponding : checked.Corresponding table.label? (p.machine 1024) 6 [2] [] 7 [2] [] 4 12 :=
      ⟨[1], rfl, part.append within, part'.append within⟩
    obtain ⟨lt, found⟩ := List.getElem?_eq_some_iff.1 placed
    have split : checked.tree.course 0 =
        (checked.tree.course 0).take 5 ++ action :: (checked.tree.course 0).drop 6 := by
      rw [← found, List.cons_getElem_drop_succ, List.take_append_drop]
    unfold Action.isCopyOf at copy
    split at copy
    · rename_i number spelling symbol given spelling' symbol' given'
      simp only [Bool.and_eq_true, beq_iff_eq] at copy
      obtain ⟨rfl, rfl⟩ := copy
      obtain ⟨-, first, -, exact⟩ := copies _ _ _ _ _ 6 7 split rfl rfl s places s' [2] [] 0 [2] [] 8
        (pc.trans length.symm) path count rfl rfl part part' (by decide)
      have complete := (exact fits).2
      refine ⟨p, checked, table, _, _, _, _, _, _, s, s', places, rfl, rfl, hcheck, loaded, fits, split, rfl, rfl,
        pc.trans length.symm, path, count, part, part', first, fun copied => ?_⟩
      have agree := (complete.1 copied).2 4 12 corresponding (by decide)
      rw [second, second'] at agree
      cases agree
    · cases copy

set_option maxRecDepth 100000 in
/-- After the assignment of an array the second elements still differ. -/
theorem Source.compile_array_copy_partial :
    (Source.compile "\x7b int[2] a; int[2] b; b[1] = 5; a = b; print a[1]; print b[1]; \x7d" {} 200 {}).map
      (fun answer => (answer.1.toOption.isSome, answer.2.printed)) = some (true, #["0", "5"]) := by
  decide +kernel

end MiniC
