import MiniC.Proofs.Lines
import MiniC.Proofs.Neutrality

/-!
# Truth values stay truth values

The machine knows no types, but the code of a source without index expressions keeps them: a variable of
type `bool` holds 0 or 1 in every state of every run, every condition that is tested is 0 or 1, and every
string that is printed is a literal, as it was in the source. `Source.lower_bool_sound` puts this together.

The frames of `MiniC.Proofs.Discipline` carry the types of the values on the stack. What is added here is
memory (`CheckedSource.MemoryTyped`): it starts typed, because variables start as zero, and it stays typed, because a
store goes to the first slot of a variable, where no other variable and no literal lies.
-/

namespace MiniC

/-- What a literal is in memory: its bytes and a zero. -/
def literalSlots (value : String) : List Int32 :=
  (Text.utf8 value).map (fun byte => Int32.ofNat byte.toNat) ++ [0]

/-- The given slots are in memory, from an address on. -/
def HeldAt (slots : List Int32) (memory : Array Int32) (offset : Nat) : Prop :=
  ∀ k < slots.length, memory[offset + k]? = slots[k]?

/-- The variables of type `bool` that the source declares are in memory, and hold 0 or 1. -/
def CheckedSource.BoolsHold (checked : CheckedSource) (labels : SymbolId → Option String) (m : Machine)
    (memory : Array Int32) : Prop :=
  ∀ id ∈ checked.tree.declared, checked.table.typeOf? id = some .bool →
    ∃ label offset, labels id = some label ∧ m.dataOffset? label = some offset ∧
      (memory[offset]? = some 0 ∨ memory[offset]? = some 1)

/-- The literals of the program are as they were loaded. -/
def Machine.LiteralsHold (m : Machine) (p : Program) (memory : Array Int32) : Prop :=
  ∀ label block offset, (label, block) ∈ p.readOnly.entries → m.dataOffset? label = some offset →
    HeldAt (literalSlots block.value) memory offset

theorem toList_blockSlots_literal (value : String) :
    (Machine.blockSlots (literalBlock value).size (Text.utf8 value)).toList = literalSlots value := by
  have all : (Text.utf8 value).take ((Text.utf8 value).length + 1) = Text.utf8 value :=
    List.take_of_length_le (by omega)
  simp [Machine.blockSlots, literalBlock, literalSlots, all, -List.map_take]

theorem length_literalSlots (value : String) :
    (literalSlots value).length = (literalBlock value).size := by
  simp [literalSlots, literalBlock]

/-! ## Storage in memory -/

namespace CheckedSource.Lowers

variable {checked : CheckedSource} (h : checked.Lowers) {capacity : Nat}

include h

/-- The storage of a symbol as a block of the program. -/
theorem exists_block {id : SymbolId} {label : String} (labelled : checked.labels id = some label) :
    ∃ b ∈ checked.program.blocks, b.label = label ∧ b.contents = [] ∧ Ty.wordSize ≤ b.size ∧
      b.alignment = Ty.wordSize ∧ ∃ ty, checked.table.typeOf? id = some ty ∧ ty.size = .ok b.size := by
  obtain ⟨s, found, storable, word, held⟩ := h.storage_of_label labelled
  exact ⟨.ofStatic (label, s.storageBlock), List.mem_append_right _ (List.mem_map.2 ⟨_, held, rfl⟩), rfl,
    rfl, word, Ty.alignment_eq storable.alignment, s.ty, found, storable.size⟩

omit h in
/-- A literal as a block of the program. -/
theorem literal_block {label : String} {block : ReadOnlyBlock}
    (held : (label, block) ∈ checked.program.readOnly.entries) :
    (∃ value, block = literalBlock value) ∧ DataBlock.ofReadOnly (label, block) ∈ checked.program.blocks :=
  ⟨exists_literal_of_readOnly held, List.mem_append_left _ (List.mem_map.2 ⟨_, held, rfl⟩)⟩

/-- The label of a variable is not that of a literal. -/
theorem firstLetter_ne {id : SymbolId} {label : String} (labelled : checked.labels id = some label) :
    firstLetter label ≠ some '_' := by
  obtain ⟨number, s, -, -, rfl⟩ := h.labels_eq_some labelled
  rcases firstLetter_storageLabel s number with first | first
  · rw [first]
    decide
  · rw [first]
    decide

/-- Every variable that is declared has a label. -/
theorem exists_label {id : SymbolId} (declared : id ∈ checked.tree.declared) :
    ∃ label, checked.labels id = some label := by
  rw [← Block.map_fst_storage 0] at declared
  obtain ⟨⟨_, number⟩, mem, rfl⟩ := List.mem_map.1 declared
  obtain ⟨s, described, -⟩ := h.storable_of_mem mem
  refine ⟨s.storageLabel number, ?_⟩
  unfold CheckedSource.labels Block.labels
  rw [SymbolTable.label?_places_of_mem _ _ h.nodup_storage mem, described]
  rfl

/-- Two symbols do not share a slot. -/
theorem storage_apart {id id' : SymbolId} {label label' : String} {offset offset' : Nat}
    (labelled : checked.labels id = some label) (labelled' : checked.labels id' = some label')
    (different : label ≠ label')
    (found : (checked.program.machine capacity).dataOffset? label = some offset)
    (found' : (checked.program.machine capacity).dataOffset? label' = some offset') : offset ≠ offset' := by
  obtain ⟨b, mem, rfl, -, word, -⟩ := h.exists_block labelled
  obtain ⟨b', mem', rfl, -, word', -⟩ := h.exists_block labelled'
  have apart := h.wellLabelled.dataOffset?_disjoint mem mem' different found found'
  simp only [Ty.wordSize] at word word'
  omega

/-- A variable does not share a slot with a literal. -/
theorem literal_apart {id : SymbolId} {label label' : String} {block : ReadOnlyBlock} {offset offset' : Nat}
    (labelled : checked.labels id = some label) (held : (label', block) ∈ checked.program.readOnly.entries)
    (found : (checked.program.machine capacity).dataOffset? label = some offset)
    (found' : (checked.program.machine capacity).dataOffset? label' = some offset') {k : Nat}
    (inside : k < (literalSlots block.value).length) : offset ≠ offset' + k := by
  have different : label ≠ label' := by
    rintro rfl
    exact h.firstLetter_ne labelled (firstLetter_of_readOnly (List.mem_map.2 ⟨_, held, rfl⟩))
  obtain ⟨b, mem, rfl, -, word, -⟩ := h.exists_block labelled
  obtain ⟨⟨value, rfl⟩, mem'⟩ := literal_block held
  have apart := h.wellLabelled.dataOffset?_disjoint mem mem' different found found'
  rw [length_literalSlots] at inside
  simp only [Ty.wordSize] at word
  simp only [DataBlock.ofReadOnly] at apart
  have inside : k < (literalBlock value).size := inside
  omega

/-- The address of a variable is that of its first slot, if every address fits into an argument. -/
theorem toNat_address (fits : (checked.program.machine capacity).memory.size ≤ 2147483647) {id : SymbolId}
    {label : String} (labelled : checked.labels id = some label) {address : Int32}
    (means : (Word.address label).Means (checked.program.machine capacity) address) :
    ∃ offset, (checked.program.machine capacity).dataOffset? label = some offset ∧
      address.toInt.toNat = offset := by
  obtain ⟨offset, found, inside⟩ := h.exists_variableOffset labelled capacity
  have low : offset < 2147483648 := by omega
  refine ⟨offset, found, ?_⟩
  rw [Word.Means, found] at means
  rw [means, Option.getD_some, Int32.toInt_ofNat_of_lt low, Int.toNat_natCast]

end CheckedSource.Lowers

/-! ## Typed memory -/

/-- Memory has the size that it was loaded with, variables of type `bool` hold 0 or 1, and literals are as they
were loaded. -/
structure CheckedSource.MemoryTyped (checked : CheckedSource) (capacity : Nat) (memory : Array Int32) :
    Prop where
  size : memory.size = (checked.program.machine capacity).memory.size
  bools : ∀ id label offset, checked.table.typeOf? id = some .bool → checked.labels id = some label →
    (checked.program.machine capacity).dataOffset? label = some offset →
      memory[offset]? = some 0 ∨ memory[offset]? = some 1
  literals : (checked.program.machine capacity).LiteralsHold checked.program memory

namespace CheckedSource.Lowers

variable {checked : CheckedSource} (h : checked.Lowers) {capacity : Nat}

include h

/-- A program is loaded with typed memory. -/
theorem memoryTyped_image : checked.MemoryTyped capacity (checked.program.machine capacity).image where
  size := rfl
  bools id label offset bool labelled found := by
    obtain ⟨b, mem, rfl, contents, word, -⟩ := h.exists_block labelled
    simp only [Ty.wordSize] at word
    have first := h.wellLabelled.getElem?_memory mem found (show 0 < b.size by omega)
    rw [Nat.add_zero, contents] at first
    refine .inl (first.trans ?_)
    simp [Machine.blockSlots, Array.getElem?_replicate]
    omega
  literals label block offset held found := by
    obtain ⟨⟨value, rfl⟩, mem⟩ := literal_block held
    intro k inside
    rw [length_literalSlots] at inside
    rw [← toList_blockSlots_literal, Array.getElem?_toList]
    exact h.wellLabelled.getElem?_memory mem found inside

theorem boolsHold {memory : Array Int32} (typed : checked.MemoryTyped capacity memory) :
    checked.BoolsHold checked.labels (checked.program.machine capacity) memory := by
  intro id declared bool
  obtain ⟨label, labelled⟩ := h.exists_label declared
  obtain ⟨b, mem, rfl, -⟩ := h.exists_block labelled
  obtain ⟨offset, found, -⟩ := h.wellLabelled.exists_dataOffset? capacity mem
  exact ⟨b.label, offset, labelled, found, typed.bools id b.label offset bool labelled found⟩

/-- A variable of type `bool` is loaded as 0 or 1. -/
theorem memoryTyped_load (fits : (checked.program.machine capacity).memory.size ≤ 2147483647)
    {memory : Array Int32} (typed : checked.MemoryTyped capacity memory) {label : String} {address : Int32}
    (bool : ∃ id, checked.labels id = some label ∧ checked.table.typeOf? id = some .bool)
    (means : (Word.address label).Means (checked.program.machine capacity) address) :
    memory.getD address.toInt.toNat 0 = 0 ∨ memory.getD address.toInt.toNat 0 = 1 := by
  obtain ⟨id, labelled, bool⟩ := bool
  obtain ⟨offset, found, slot⟩ := h.toNat_address fits labelled means
  rw [slot, Array.getD_eq_getD_getElem?]
  rcases typed.bools id label offset bool labelled found with value | value
  · rw [value]
    exact .inl rfl
  · rw [value]
    exact .inr rfl

/-- Memory stays typed when a variable is given a value that suits it. -/
theorem memoryTyped_store (fits : (checked.program.machine capacity).memory.size ≤ 2147483647)
    {memory : Array Int32} (typed : checked.MemoryTyped capacity memory) {label : String}
    {address value : Int32} (stored : ∃ id, checked.labels id = some label)
    (means : (Word.address label).Means (checked.program.machine capacity) address)
    (truth : (∃ id, checked.labels id = some label ∧ checked.table.typeOf? id = some .bool) →
      value = 0 ∨ value = 1) :
    checked.MemoryTyped capacity (memory.setIfInBounds address.toInt.toNat value) := by
  obtain ⟨id, labelled⟩ := stored
  obtain ⟨offset, found, slot⟩ := h.toNat_address fits labelled means
  rw [slot]
  refine ⟨Array.size_setIfInBounds.trans typed.size, fun id' label' offset' bool labelled' found' => ?_,
    fun label' block offset' held found' k inside => ?_⟩
  · have before := typed.bools id' label' offset' bool labelled' found'
    rw [Array.getElem?_setIfInBounds]
    by_cases same : label = label'
    · subst same
      cases found.symm.trans found'
      have inside : offset < memory.size := by
        rcases before with before | before
        · exact (Array.getElem?_eq_some_iff.1 before).1
        · exact (Array.getElem?_eq_some_iff.1 before).1
      rw [if_pos rfl, if_pos inside]
      exact (truth ⟨id', labelled', bool⟩).imp (congrArg some) (congrArg some)
    · rw [if_neg (h.storage_apart labelled labelled' same found found')]
      exact before
  · rw [Array.getElem?_setIfInBounds, if_neg (h.literal_apart labelled held found found' inside)]
    exact typed.literals label' block offset' held found' k inside

/-- The frames of a checked source without index expressions, where memory is typed. -/
def typedDiscipline (plain : ¬checked.tree.HasIndex)
    (fits : (checked.program.machine capacity).memory.size ≤ 2147483647)
    (short : checked.program.code.length ≤ 4294967296) : Discipline where
  vocabulary := h.vocabulary False
  program := checked.program
  capacity := capacity
  limit := checked.tree.depth
  cells := checked.tree.cells checked.labels
  Intact := checked.MemoryTyped capacity
  code_eq := code_cells
  flows := flows_course (h.sound_course plain) fun _ mem => Block.depth_le mem
  labelled := h.wellLabelled
  short := short
  resolves _ label known := by
    have provides := Machine.provides_of_supplied h.supplied capacity
    rcases known with ⟨id, labelled⟩ | ⟨entry, mem, rfl⟩
    · exact provides.storage id label labelled
    · exact provides.literal entry mem
  loads _ := fun typed bool means => h.memoryTyped_load fits typed bool means
  stores _ := fun typed stored means truth => h.memoryTyped_store fits typed stored means truth

end CheckedSource.Lowers

/-! ## Operands -/

section Operands

variable {v : Vocabulary} {σ μ : Frame} {i : Instruction}

/-- A branch takes a truth value, and there is nothing else in its frame. -/
theorem Moves.of_branch (h : Moves v σ i μ) (branch : i.op = .branchEqualZero ∨ i.op = .branchNotZero) :
    ∃ w, σ = [w] ∧ (¬v.indexed → w = .truth) := by
  cases h with
  | branchIfZero name truth => exact ⟨_, rfl, truth⟩
  | branchIfNotZero name truth => exact ⟨_, rfl, truth⟩
  | @unary σ op code w found => cases op <;> cases found <;> simp at branch
  | binary op b a => cases op <;> simp [Lowering.binaryOpCode] at branch
  | pushInt | pushTruth | pushLabel | load | loadBool | store | mark | jump | printInt | printStr
  | inputInt =>
    rcases branch with branch | branch
    · cases branch
    · cases branch

/-- A string that is printed is a literal. -/
theorem Moves.of_printStr (h : Moves v σ i μ) (print : i.op = .printStr) :
    ∃ w τ, σ = w :: τ ∧ (¬v.indexed → ∃ label, w = .address label ∧ v.IsLiteral label) := by
  cases h with
  | printStr literal => exact ⟨_, _, rfl, literal⟩
  | @unary σ op code w found => cases op <;> cases found <;> cases print
  | binary op b a => cases op <;> cases print
  | pushInt | pushTruth | pushLabel | load | loadBool | store | mark | jump | branchIfZero
  | branchIfNotZero | printInt | inputInt => cases print

end Operands

/-! ## Runs -/

/-- What is true of a state of a run: variables of type `bool` hold 0 or 1, a branch that comes next takes
0 or 1 from the stack, and a string that is printed next is a literal that is as it was in the source. -/
structure CheckedSource.StateTyped (checked : CheckedSource) (p : Program) (labels : SymbolId → Option String)
    (m : Machine) (s : Machine.State) : Prop where
  bools : checked.BoolsHold labels m s.memory
  branches : ∀ i, m.code[s.pc]? = some i → i.op = .branchEqualZero ∨ i.op = .branchNotZero →
    ∃ value rest, s.stack.values = value :: rest ∧ (value = 0 ∨ value = 1)
  prints : ∀ i, m.code[s.pc]? = some i → i.op = .printStr →
    ∃ label block offset rest, (label, block) ∈ p.readOnly.entries ∧ m.dataOffset? label = some offset ∧
      s.stack.values = .ofNat offset :: rest ∧ HeldAt (literalSlots block.value) s.memory offset

namespace CheckedSource.Lowers

variable {checked : CheckedSource} (h : checked.Lowers) {capacity : Nat}
  (plain : ¬checked.tree.HasIndex) (fits : (checked.program.machine capacity).memory.size ≤ 2147483647)
  (short : checked.program.code.length ≤ 4294967296)

include h plain fits short

theorem typed_start (console : Console) :
    (h.typedDiscipline plain fits short).Situated []
      ((checked.program.machine capacity).start console) where
  frame := ⟨[], [], rfl, .nil, (h.typedDiscipline plain fits short).flows⟩
  intact _ := h.memoryTyped_image

/-- Every state of a run is typed. -/
theorem stateTyped {kept : List Int32} {s : Machine.State}
    (situated : (h.typedDiscipline plain fits short).Situated kept s) :
    checked.StateTyped checked.program checked.labels (checked.program.machine capacity) s where
  bools := h.boolsHold (situated.intact not_false)
  branches i found branch := by
    obtain ⟨cell, values, σ, μ, -, rfl, stack, holds, moves, -⟩ := situated.exists_moves found
    obtain ⟨w, rfl, truth⟩ := moves.of_branch branch
    cases truth not_false
    cases holds with
    | cons first _ => exact ⟨_, _, stack, first not_false⟩
  prints i found print := by
    obtain ⟨cell, values, σ, μ, -, rfl, stack, holds, moves, -⟩ := situated.exists_moves found
    obtain ⟨w, τ, rfl, literal⟩ := moves.of_printStr print
    obtain ⟨label, rfl, entry, mem, rfl⟩ := literal not_false
    obtain ⟨value, held⟩ := block_of_literal mem
    obtain ⟨-, block⟩ := literal_block held
    obtain ⟨offset, located, -⟩ := h.wellLabelled.exists_dataOffset? capacity block
    cases holds with
    | @cons address _ values _ first _ =>
      have means : address = Int32.ofNat offset := by
        have first : address = .ofNat (((checked.program.machine capacity).dataOffset?
          (literalLabel entry.1)).getD 0) := first not_false
        rw [first, show (checked.program.machine capacity).dataOffset? (literalLabel entry.1) = some offset
          from located, Option.getD_some]
      exact ⟨_, _, offset, values ++ kept, held, located, means ▸ stack,
        (situated.intact not_false).literals _ _ offset held located⟩

theorem stateTyped_of_path {console : Console} {places : List Nat} {s : Machine.State}
    (path : (checked.program.machine capacity).Path
      ((checked.program.machine capacity).start console) places s) :
    checked.StateTyped checked.program checked.labels (checked.program.machine capacity) s := by
  obtain ⟨kept, situated, -⟩ := (h.typed_start plain fits short console).path path
  exact h.stateTyped plain fits short situated

end CheckedSource.Lowers

/-- A machine that stops leaves memory as it is. -/
theorem CheckedSource.StateTyped.boolsHold_of_stops {checked : CheckedSource} {p : Program}
    {labels : SymbolId → Option String} {m : Machine} {s : Machine.State} (h : checked.StateTyped p labels m s)
    {ended : Machine.Ended} (stops : m.Stops s ended) : checked.BoolsHold labels m ended.final.memory := by
  cases stops with
  | done past => exact h.bools
  | fault found failed =>
    obtain ⟨memory, -⟩ := Machine.step_eq_error failed
    rw [memory]
    exact h.bools

/-- Storage of type `bool` is sound. The program of a source without index expressions loads into every
machine; if its memory has at most 2³¹ - 1 slots, then in every state of every run the variables of type
`bool` hold 0 or 1, what a branch takes is 0 or 1, and what is printed as a string is the address of a
literal whose bytes and final zero are still there. The variables hold 0 or 1 also where a run stops, with a
fault or without. The bound on the code is that within which the place of a mark can be told from a lower
one by the 32 bits of an argument. -/
theorem Source.lower_bool_sound {source : String} {options : Options} {p : Program}
    (lowered : Source.lower source options = .ok p) (short : p.code.length ≤ 4294967296) :
    ∃ (tree : Block) (checked : CheckedSource) (table : SymbolTable),
      Source.parse source (!options.stripComments) = .ok tree ∧
      Source.check source options = .ok checked ∧
      checked.tree.lower checked.table = (.ok p, table) ∧
      ∀ blank : Machine, ∃ m, Machine.load p blank = .ok () m ∧
        (¬tree.HasIndex → m.memory.size ≤ 2147483647 → ∀ console : Console,
          (∀ places s, m.Path (m.start console) places s → checked.StateTyped p table.label? m s) ∧
          (∀ places s ended, m.Path (m.start console) places s → m.Stops s ended →
            checked.BoolsHold table.label? m ended.final.memory) ∧
          ∀ fuel ended, m.run fuel console = some ended →
            checked.BoolsHold table.label? m ended.final.memory) := by
  obtain ⟨checked, table, hcheck, hlower, h, rfl, labels⟩ := Source.lower_eq_ok lowered
  obtain ⟨tree, hparse, erased⟩ := Source.erase_check hcheck
  have index : checked.tree.HasIndex = tree.HasIndex := by
    rw [← checked.tree.hasIndex_erase, erased, tree.hasIndex_erase]
  refine ⟨tree, checked, table, hparse, hcheck, hlower, fun blank => ⟨checked.program.machine blank.capacity,
    Machine.load_eq_ok_iff.2 ⟨h.wellLabelled, rfl⟩, fun plain fits console => ?_⟩⟩
  rw [← index] at plain
  rw [labels]
  have typed : ∀ places s, (checked.program.machine blank.capacity).Path
      ((checked.program.machine blank.capacity).start console) places s →
        checked.StateTyped checked.program checked.labels (checked.program.machine blank.capacity) s :=
    fun _ _ path => h.stateTyped_of_path plain fits short path
  refine ⟨typed, fun places s ended path stops => (typed places s path).boolsHold_of_stops stops, ?_⟩
  intro fuel ended ran
  obtain ⟨places, last, path, stops⟩ := Machine.exists_path_of_runFrom ran
  exact (typed places last path).boolsHold_of_stops stops

set_option maxRecDepth 100000 in
/-- A loop over a variable of type `bool` that prints a literal: the run ends with a fault, and the variable
holds 0 or 1 there. -/
theorem Source.lower_bool_sound_fault :
    ∃ (source : String) (p : Program) (tree : Block) (checked : CheckedSource) (table : SymbolTable)
      (m : Machine) (ended : Machine.Ended),
      source = "\x7b bool b = true; int z = 0; while (b) \x7b print \"on\"; b = z == 1; \x7d print 1 / z; \x7d" ∧
      Source.lower source = .ok p ∧ p.code.length ≤ 4294967296 ∧ Source.parse source false = .ok tree ∧
      ¬tree.HasIndex ∧ Source.check source = .ok checked ∧
      (∃ id ∈ checked.tree.declared, checked.table.typeOf? id = some .bool) ∧
      Machine.load p {} = .ok () m ∧ m.memory.size ≤ 2147483647 ∧ m.run 200 {} = some ended ∧
      ended.outcome = .error .divisionByZero ∧ checked.BoolsHold table.label? m ended.final.memory := by
  generalize hsource :
    "\x7b bool b = true; int z = 0; while (b) \x7b print \"on\"; b = z == 1; \x7d print 1 / z; \x7d" = source
  have runs : (Source.lower source).toOption.any (fun p =>
      ((p.machine 1024).run 200 {}).any fun ended =>
        decide ((p.machine 1024).memory.size ≤ 2147483647 ∧ p.code.length ≤ 4294967296) &&
          ended.outcome.casesOn (motive := fun _ => Bool) (· == .divisionByZero) fun _ => false) = true := by
    subst hsource
    decide +kernel
  have plain : (Source.parse source false).toOption.any (fun tree => ¬tree.HasIndex) = true := by
    subst hsource
    decide +kernel
  have bool : (Source.check source).toOption.any (fun checked =>
      checked.tree.declared.any fun id => checked.table.typeOf? id == some .bool) = true := by
    subst hsource
    decide +kernel
  refine ⟨source, ?_⟩
  cases lowered : Source.lower source with
  | error e => simp [lowered, Except.toOption] at runs
  | ok p =>
    simp only [lowered, Except.toOption, Option.any_some, Option.any_eq_true, Bool.and_eq_true,
      decide_eq_true_eq] at runs
    obtain ⟨ended, ran, ⟨fits, short⟩, failed⟩ := runs
    obtain ⟨tree, checked, table, hparse, hcheck, -, loads⟩ := Source.lower_bool_sound lowered short
    have hparse : Source.parse source false = .ok tree := hparse
    simp only [hparse, Except.toOption, Option.any_some, decide_eq_true_eq] at plain
    simp only [hcheck, Except.toOption, Option.any_some, List.any_eq_true, beq_iff_eq] at bool
    obtain ⟨m, loaded, typed⟩ := loads {}
    obtain rfl := (Machine.load_eq_ok_iff.1 loaded).2
    have held := (typed plain fits {}).2.2 200 ended ran
    cases outcome : ended.outcome with
    | ok value => simp [outcome] at failed
    | error cause =>
      rw [outcome] at failed
      obtain rfl := beq_iff_eq.1 failed
      exact ⟨p, tree, checked, table, _, ended, rfl, rfl, short, hparse, plain, hcheck, bool, loaded, fits, ran,
        outcome, held⟩

end MiniC
