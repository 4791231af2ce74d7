import MiniC.Machine
import MiniC.Proofs.Catalogue
import MiniC.Proofs.Results

/-!
# Which programs load, and as what

`Machine.load_eq_ok_iff`: a program loads exactly if it is well labelled, and what is loaded is then a
function of the program and the capacity, `Program.machine`. Its parts are the places of the marks
(`addMarks`), the data laid out block after block (`Machine.extend`), and the code with every name
resolved (`Machine.loadedInstruction`). The memory of all variables is made in one piece, which comes to the
same as making it block after block (`reserveStatic_eq`).

A list of blocks is split at the block of interest: what lies before it fixes its address, and what
comes after it neither moves nor overlaps it.
-/

namespace MiniC

/-! ## Well-labelled programs -/

/-- The names that the marks in a list of instructions have, in order. -/
def marks (code : List Instruction) : List String :=
  (code.filter fun i => i.op = .label).map Machine.markName

@[simp]
theorem marks_nil : marks [] = [] := rfl

@[simp]
theorem marks_append (code code' : List Instruction) : marks (code ++ code') = marks code ++ marks code' := by
  simp [marks]

theorem marks_cons_mark {i : Instruction} (h : i.op = .label) (rest : List Instruction) :
    marks (i :: rest) = Machine.markName i :: marks rest := by
  simp [marks, h]

theorem marks_cons_other {i : Instruction} (h : i.op ≠ .label) (rest : List Instruction) :
    marks (i :: rest) = marks rest := by
  simp [marks, h]

/-- A block of data to be laid out. -/
structure DataBlock where
  label : String
  size : Nat
  alignment : Nat
  contents : List UInt8

/-- A literal as a block. -/
def DataBlock.ofReadOnly (entry : String × ReadOnlyBlock) : DataBlock :=
  ⟨entry.1, entry.2.size, entry.2.alignment, Text.utf8 entry.2.value⟩

/-- A variable as a block. -/
def DataBlock.ofStatic (entry : String × StaticBlock) : DataBlock :=
  ⟨entry.1, entry.2.size, entry.2.alignment, []⟩

/-- The blocks of a program in the order in which they are laid out. -/
def Program.blocks (p : Program) : List DataBlock :=
  p.readOnly.entries.map .ofReadOnly ++ p.static.entries.map .ofStatic

/-- The labels of the data of a program. -/
def Program.dataLabels (p : Program) : List String :=
  p.blocks.map DataBlock.label

/-- Literals are laid out before variables. -/
theorem Program.dataLabels_eq (p : Program) : p.dataLabels = p.readOnly.keys ++ p.static.keys := by
  simp [dataLabels, blocks, Catalogue.keys, Function.comp_def, DataBlock.ofReadOnly, DataBlock.ofStatic]

/-- Every mark has a name, no name is used twice, data is aligned to 1, 2, 4 or 8 bytes, and every name
in the code is that of a mark or, in a `push`, of data. -/
structure Program.WellLabelled (p : Program) : Prop where
  named : "" ∉ marks p.code
  distinct : (marks p.code ++ p.dataLabels).Nodup
  aligned : ∀ b ∈ p.blocks, Machine.isAlignment b.alignment
  resolved : ∀ i ∈ p.code, i.op ≠ .label → ∀ name, i.operand = .label name →
    name ∈ marks p.code ∨ i.op = .push ∧ name ∈ p.dataLabels

/-! ## Marks -/

/-- The places of marks, the first instruction being at `index`. -/
def addMarks (places : Catalogue Nat) : (index : Nat) → List Instruction → Catalogue Nat
  | _, [] => places
  | index, i :: rest =>
    addMarks (if i.op = .label then places.insert (Machine.markName i) index else places) (index + 1) rest

/-- Marks with other names do not change where a name leads. -/
theorem find?_addMarks_of_notMem {places : Catalogue Nat} {index : Nat} {code : List Instruction}
    {name : String} (h : name ∉ marks code) : (addMarks places index code).find? name = places.find? name := by
  induction code generalizing places index with
  | nil => rfl
  | cons i rest ih =>
    rw [addMarks]
    by_cases mark : i.op = .label
    · rw [marks_cons_mark mark, List.mem_cons, not_or] at h
      rw [if_pos mark, ih h.2, places.find?_insert_of_ne _ h.1]
    · rw [marks_cons_other mark] at h
      rw [if_neg mark, ih h]

/-- A mark whose name does not come again is found at its place. -/
theorem find?_addMarks {places : Catalogue Nat} {index : Nat} {before after : List Instruction}
    {i : Instruction} (mark : i.op = .label) (last : Machine.markName i ∉ marks after) :
    (addMarks places index (before ++ i :: after)).find? (Machine.markName i) =
      some (index + before.length) := by
  induction before generalizing places index with
  | nil => rw [List.nil_append, addMarks, if_pos mark, find?_addMarks_of_notMem last,
      Catalogue.find?_insert_self]; rfl
  | cons j before ih =>
    rw [List.cons_append, addMarks, ih, List.length_cons]
    congr 1
    omega

/-- A name is known after the marks have been taken down exactly if it was before or one of the marks has it. -/
theorem isSome_find?_addMarks {places : Catalogue Nat} {index : Nat} {code : List Instruction}
    {name : String} :
    ((addMarks places index code).find? name).isSome ↔
      (places.find? name).isSome ∨ name ∈ marks code := by
  induction code generalizing places index with
  | nil => simp [addMarks]
  | cons i rest ih =>
    rw [addMarks, ih]
    by_cases mark : i.op = .label
    · rw [if_pos mark, marks_cons_mark mark, Catalogue.find?_insert, List.mem_cons]
      split
      · simp_all
      · simp_all
    · rw [if_neg mark, marks_cons_other mark]

namespace Machine

/-- A mark must have a name, and one that no mark before it has; only then is its place taken down. -/
theorem indexMarks_cons_mark {i : Instruction} (mark : i.op = .label) (index : Nat)
    (rest : List Instruction) (m : Machine) :
    indexMarks index (i :: rest) m =
      if markName i = "" then .error (.emptyLabel index) m
      else if (m.jumpLabels.find? (markName i)).isSome then
        .error (.labelAlreadyInUse (markName i))
          { m with jumpLabels := m.jumpLabels.insert (markName i) index }
      else indexMarks (index + 1) rest
        { m with jumpLabels := m.jumpLabels.insert (markName i) index } := by
  rw [indexMarks, if_pos mark]
  by_cases empty : markName i = ""
  · rw [if_pos empty]
    simp only [if_pos empty]
    rfl
  · rw [if_neg empty]
    simp only [if_neg empty]
    cases known : m.jumpLabels.find? (markName i) with
    | none =>
      refine (bind_of_ok (get_apply)).trans ((bind_of_ok (modify_apply _)).trans ?_)
      simp only [known]
      rfl
    | some place =>
      refine (bind_of_ok (get_apply)).trans ((bind_of_ok (modify_apply _)).trans ?_)
      simp only [known]
      rfl

/-- Instructions that are no marks only count. -/
theorem indexMarks_cons_other {i : Instruction} (other : i.op ≠ .label) (index : Nat)
    (rest : List Instruction) (m : Machine) :
    indexMarks index (i :: rest) m = indexMarks (index + 1) rest m := by
  rw [indexMarks, if_neg other]

/-- Marks are taken down exactly if they have names and no name is used twice. -/
theorem indexMarks_eq_ok_iff {index : Nat} {code : List Instruction} {m m' : Machine} :
    indexMarks index code m = .ok () m' ↔
      "" ∉ marks code ∧ (marks code).Nodup ∧ (∀ name ∈ marks code, m.jumpLabels.find? name = none) ∧
        m' = { m with jumpLabels := addMarks m.jumpLabels index code } := by
  induction code generalizing index m with
  | nil =>
    simp only [indexMarks, pure_apply, EStateM.Result.ok.injEq, true_and, marks_nil, addMarks]
    exact ⟨fun h => ⟨by simp, .nil, by simp, h.symm⟩, fun h => h.2.2.2.symm⟩
  | cons i rest ih =>
    by_cases mark : i.op = .label
    · rw [indexMarks_cons_mark mark, marks_cons_mark mark, addMarks, if_pos mark]
      by_cases empty : markName i = ""
      · rw [if_pos empty]
        simp [empty]
      · rw [if_neg empty]
        cases known : m.jumpLabels.find? (markName i) with
        | some place => simp [known]
        | none =>
          rw [if_neg (by simp), ih]
          -- The later names must be unknown after this one was taken down, and so differ from it.
          have later : (∀ name ∈ marks rest,
              (m.jumpLabels.insert (markName i) index).find? name = none) ↔
              markName i ∉ marks rest ∧ ∀ name ∈ marks rest, m.jumpLabels.find? name = none := by
            constructor
            · intro h
              refine ⟨fun mem => by simpa using h _ mem, fun name mem => ?_⟩
              have unknown := h name mem
              rw [Catalogue.find?_insert] at unknown
              split at unknown
              · cases unknown
              · exact unknown
            · rintro ⟨notMem, h⟩ name mem
              have different : name ≠ markName i := by
                rintro rfl
                exact notMem mem
              rw [Catalogue.find?_insert_of_ne _ _ different]
              exact h name mem
          rw [later, List.forall_mem_cons, List.nodup_cons, List.mem_cons, not_or]
          constructor
          · rintro ⟨named, nodup, ⟨notMem, unknown⟩, eq⟩
            exact ⟨⟨Ne.symm empty, named⟩, ⟨notMem, nodup⟩, ⟨known, unknown⟩, eq⟩
          · rintro ⟨⟨-, named⟩, ⟨notMem, nodup⟩, ⟨-, unknown⟩, eq⟩
            exact ⟨named, nodup, ⟨notMem, unknown⟩, eq⟩
    · rw [indexMarks_cons_other mark, marks_cons_other mark, addMarks, if_neg mark, ih]

/-! ## Data -/

/-- The address at which a block is laid out next. -/
def nextOffset (m : Machine) (b : DataBlock) : Nat :=
  roundUp m.memory.size b.alignment

/-- The machine with one more block. -/
def extend (m : Machine) (b : DataBlock) : Machine :=
  { m with
    memory := m.memory ++ Array.replicate (m.nextOffset b - m.memory.size) 0 ++
      blockSlots b.size b.contents
    dataLabels := m.dataLabels.insert b.label (m.nextOffset b) }

/-- Lays a block out. -/
def reserveBlock (b : DataBlock) : Loading Unit := do
  let m ← get
  match m.place b.label b.alignment m.memory.size with
  | .error fault => throw fault
  | .ok _ => set (m.extend b)

/-- Lays blocks out, one after another. -/
def reserveBlocks : List DataBlock → Loading Unit
  | [] => pure ()
  | b :: rest => do
    reserveBlock b
    reserveBlocks rest

/-- Laying two lists of blocks out is laying out the first and then the second. -/
theorem reserveBlocks_append (blocks blocks' : List DataBlock) :
    reserveBlocks (blocks ++ blocks') = reserveBlocks blocks >>= fun _ => reserveBlocks blocks' := by
  induction blocks with
  | nil => rfl
  | cons b rest ih => simp only [List.cons_append, reserveBlocks, ih, bind_assoc]

/-- A block that has a place is laid out there. -/
theorem reserveBlock_of_ok {b : DataBlock} {m : Machine} {start : Nat}
    (placed : m.place b.label b.alignment m.memory.size = .ok start) : reserveBlock b m = .ok () (m.extend b) := by
  refine (bind_of_ok get_apply).trans ?_
  rw [placed]
  rfl

/-- A block that has none is refused, and the machine stays as it was. -/
theorem reserveBlock_of_error {b : DataBlock} {m : Machine} {fault : Fault}
    (placed : m.place b.label b.alignment m.memory.size = .error fault) :
    reserveBlock b m = .error fault m := by
  refine (bind_of_ok get_apply).trans ?_
  rw [placed]
  rfl

/-- A block has a place exactly if its label names neither a mark nor other data and its alignment is right; the place
is then the next multiple of the alignment. -/
theorem place_eq_ok_iff {m : Machine} {label : String} {alignment stop start : Nat} :
    m.place label alignment stop = .ok start ↔
      m.jumpLabels.find? label = none ∧ m.dataLabels.find? label = none ∧ isAlignment alignment ∧
        start = roundUp stop alignment := by
  unfold place
  cases m.jumpLabels.find? label with
  | some place => simp
  | none =>
    cases m.dataLabels.find? label with
    | some offset => simp
    | none =>
      cases isAlignment alignment with
      | false => simp
      | true => simp [eq_comm]

/-- When a block is laid out, and what the machine is then. -/
theorem reserveBlock_eq_ok_iff {b : DataBlock} {m m' : Machine} :
    reserveBlock b m = .ok () m' ↔
      m.jumpLabels.find? b.label = none ∧ m.dataLabels.find? b.label = none ∧
        isAlignment b.alignment ∧ m' = m.extend b := by
  cases placed : m.place b.label b.alignment m.memory.size with
  | error fault =>
    rw [reserveBlock_of_error placed]
    simp only [reduceCtorEq, false_iff]
    rintro ⟨jump, data, aligned, -⟩
    cases placed.symm.trans (place_eq_ok_iff.2 ⟨jump, data, aligned, rfl⟩)
  | ok start =>
    obtain ⟨jump, data, aligned, -⟩ := place_eq_ok_iff.1 placed
    rw [reserveBlock_of_ok placed]
    simp [jump, data, aligned, eq_comm]

/-- Blocks are laid out exactly if their labels are new and different and their alignments are
right. -/
theorem reserveBlocks_eq_ok_iff {blocks : List DataBlock} {m m' : Machine} :
    reserveBlocks blocks m = .ok () m' ↔
      (blocks.map DataBlock.label).Nodup ∧
        (∀ b ∈ blocks, m.jumpLabels.find? b.label = none ∧ m.dataLabels.find? b.label = none ∧
          isAlignment b.alignment) ∧ m' = blocks.foldl extend m := by
  induction blocks generalizing m with
  | nil =>
    simp only [reserveBlocks, pure_apply, EStateM.Result.ok.injEq, true_and]
    exact ⟨fun h => ⟨.nil, by simp, h.symm⟩, fun h => h.2.2.symm⟩
  | cons b rest ih =>
    simp only [reserveBlocks, bind_eq_ok, ih, List.map_cons, List.nodup_cons, List.forall_mem_cons,
      List.foldl_cons]
    constructor
    · rintro ⟨_, m₁, first, nodup, unknown, eq⟩
      obtain ⟨jump, data, aligned, rfl⟩ := reserveBlock_eq_ok_iff.1 first
      have notMem : b.label ∉ rest.map DataBlock.label := by
        intro mem
        obtain ⟨b', mem, same⟩ := List.mem_map.1 mem
        have absent := (unknown b' mem).2.1
        rw [same] at absent
        simp [extend] at absent
      refine ⟨⟨notMem, nodup⟩, ⟨⟨jump, data, aligned⟩, fun b' mem => ?_⟩, eq⟩
      obtain ⟨jump', data', aligned'⟩ := unknown b' mem
      have different : b'.label ≠ b.label := fun same => notMem (List.mem_map.2 ⟨b', mem, same⟩)
      exact ⟨jump', by rwa [extend, Catalogue.find?_insert_of_ne _ _ different] at data', aligned'⟩
    · rintro ⟨⟨notMem, nodup⟩, ⟨⟨jump, data, aligned⟩, unknown⟩, eq⟩
      refine ⟨(), m.extend b, reserveBlock_eq_ok_iff.2 ⟨jump, data, aligned, rfl⟩, nodup,
        fun b' mem => ?_, eq⟩
      obtain ⟨jump', data', aligned'⟩ := unknown b' mem
      have different : b'.label ≠ b.label := fun same => notMem (List.mem_map.2 ⟨b', mem, same⟩)
      exact ⟨jump', by rwa [extend, Catalogue.find?_insert_of_ne _ _ different], aligned'⟩

/-! ### Addresses -/

/-- A block has one slot for every byte of its size, whatever its contents are. -/
theorem size_blockSlots (size : Nat) (contents : List UInt8) : (blockSlots size contents).size = size := by
  simp only [blockSlots, Array.size_append, List.size_toArray, List.length_map, List.length_take,
    Array.size_replicate]
  omega

/-- No alignment is 0, so rounding up to one goes up. -/
theorem pos_of_isAlignment {alignment : Nat} (h : isAlignment alignment) : 0 < alignment := by
  simp only [isAlignment, Bool.or_eq_true, decide_eq_true_eq] at h
  omega

/-- Rounding up does not go below the end of what is there, so blocks do not overlap. -/
theorem le_roundUp (n : Nat) {unit : Nat} (h : 0 < unit) : n ≤ roundUp n unit := by
  have split := Nat.div_add_mod (n + unit - 1) unit
  have small := Nat.mod_lt (n + unit - 1) h
  rw [Nat.mul_comm] at split
  unfold roundUp
  omega

/-- Rounding up ends at a multiple. -/
theorem dvd_roundUp (n unit : Nat) : unit ∣ roundUp n unit :=
  Nat.dvd_mul_left _ _

/-- Memory ends where the block that was laid out last ends. -/
theorem size_extend (m : Machine) {b : DataBlock} (h : isAlignment b.alignment) :
    (m.extend b).memory.size = m.nextOffset b + b.size := by
  have room : m.memory.size ≤ m.nextOffset b := le_roundUp _ (pos_of_isAlignment h)
  simp only [extend, Array.size_append, Array.size_replicate, size_blockSlots]
  omega

/-! ### Memory in one piece -/

/-- Overwriting reaches the slots of the values alone, as far as memory goes. -/
theorem getElem?_overwrite (memory : Array Int32) (address : Nat) (values : List Int32) (k : Nat) :
    (overwrite memory address values)[k]? =
      if address ≤ k ∧ k < address + values.length ∧ k < memory.size then values[k - address]?
      else memory[k]? := by
  induction values generalizing memory address with
  | nil => rw [overwrite, if_neg (by simp; omega)]
  | cons value rest ih =>
    rw [overwrite, ih, Array.size_setIfInBounds, List.length_cons]
    grind

/-- Memory filled up with zeros is memory with zeros after it. -/
theorem zeroFill_eq {memory : Array Int32} {stop : Nat} (room : memory.size ≤ stop) :
    zeroFill memory stop = memory ++ Array.replicate (stop - memory.size) 0 := by
  refine Array.ext_getElem? fun k => ?_
  rw [zeroFill, getElem?_overwrite]
  grind

/-- Zeros after zeros are zeros up to the further end. -/
theorem zeroFill_append {memory : Array Int32} {start stop : Nat} (room : memory.size ≤ start)
    (le : start ≤ stop) :
    zeroFill memory start ++ Array.replicate (stop - start) 0 = zeroFill memory stop := by
  rw [zeroFill_eq room, zeroFill_eq (Nat.le_trans room le), Array.append_assoc, Array.replicate_append_replicate,
    show start - memory.size + (stop - start) = stop - memory.size by omega]

/-- Filling up ends where it was told to. -/
theorem size_zeroFill {memory : Array Int32} {stop : Nat} (room : memory.size ≤ stop) :
    (zeroFill memory stop).size = stop := by
  rw [zeroFill_eq room, Array.size_append, Array.size_replicate]
  omega

/-- A variable laid out after zeros only makes them more. -/
theorem extend_zeroFill {m : Machine} {stop : Nat} (room : m.memory.size ≤ stop)
    {entry : String × StaticBlock} (aligned : isAlignment entry.2.alignment) :
    extend { m with memory := zeroFill m.memory stop } (.ofStatic entry) =
      { m with
        memory := zeroFill m.memory (roundUp stop entry.2.alignment + entry.2.size)
        dataLabels := m.dataLabels.insert entry.1 (roundUp stop entry.2.alignment) } := by
  have le := le_roundUp stop (pos_of_isAlignment aligned)
  have empty : blockSlots entry.2.size [] = Array.replicate entry.2.size 0 := by simp [blockSlots]
  have grown := zeroFill_append room le
  have grown' := zeroFill_append (Nat.le_trans room le) (Nat.le_add_right _ entry.2.size)
  rw [Nat.add_sub_cancel_left] at grown'
  simp only [extend, nextOffset, DataBlock.ofStatic, size_zeroFill room, empty, grown, grown']

/-- Literals are laid out as blocks one after another. -/
theorem reserveReadOnly_eq (entries : List (String × ReadOnlyBlock)) :
    reserveReadOnly entries = reserveBlocks (entries.map .ofReadOnly) := by
  induction entries with
  | nil => rfl
  | cons entry rest ih =>
    funext m
    rw [List.map_cons, reserveBlocks, ← ih, reserveReadOnly]
    refine (bind_of_ok get_apply).trans ?_
    cases placed : m.place entry.1 entry.2.alignment m.memory.size with
    | error fault => exact (bind_of_error (@reserveBlock_of_error (.ofReadOnly entry) m fault placed)).symm
    | ok start =>
      obtain ⟨-, -, -, rfl⟩ := place_eq_ok_iff.1 placed
      rw [bind_of_ok (@reserveBlock_of_ok (.ofReadOnly entry) m _ placed)]
      rfl

/-- Variables can be laid out before the memory for them is there. -/
theorem reserveStatic_eq (entries : List (String × StaticBlock)) {m : Machine} {stop : Nat}
    (room : m.memory.size ≤ stop) :
    reserveStatic stop entries m =
      reserveBlocks (entries.map .ofStatic) { m with memory := zeroFill m.memory stop } := by
  induction entries generalizing m stop with
  | nil => rfl
  | cons entry rest ih =>
    rw [List.map_cons, reserveBlocks, reserveStatic]
    refine (bind_of_ok get_apply).trans ?_
    have same : place { m with memory := zeroFill m.memory stop } entry.1 entry.2.alignment
        (zeroFill m.memory stop).size = m.place entry.1 entry.2.alignment stop := by
      rw [size_zeroFill room]
      rfl
    cases placed : m.place entry.1 entry.2.alignment stop with
    | error fault =>
      rw [placed] at same
      exact (bind_of_error (@reserveBlock_of_error (.ofStatic entry) _ fault same)).symm
    | ok start =>
      obtain ⟨-, -, aligned, rfl⟩ := place_eq_ok_iff.1 placed
      rw [placed] at same
      have le := le_roundUp stop (pos_of_isAlignment aligned)
      rw [bind_of_ok (@reserveBlock_of_ok (.ofStatic entry) _ _ same), extend_zeroFill room aligned]
      exact ih (show m.memory.size ≤ _ by omega)

/-- Laying out data leaves the places of the marks as they are. -/
@[simp]
theorem jumpLabels_foldl_extend (blocks : List DataBlock) (m : Machine) :
    (blocks.foldl extend m).jumpLabels = m.jumpLabels := by
  induction blocks generalizing m with
  | nil => rfl
  | cons b rest ih => exact ih (m.extend b)

@[simp]
theorem capacity_foldl_extend (blocks : List DataBlock) (m : Machine) :
    (blocks.foldl extend m).capacity = m.capacity := by
  induction blocks generalizing m with
  | nil => rfl
  | cons b rest ih => exact ih (m.extend b)

@[simp]
theorem code_foldl_extend (blocks : List DataBlock) (m : Machine) :
    (blocks.foldl extend m).code = m.code := by
  induction blocks generalizing m with
  | nil => rfl
  | cons b rest ih => exact ih (m.extend b)

@[simp]
theorem image_foldl_extend (blocks : List DataBlock) (m : Machine) :
    (blocks.foldl extend m).image = m.image := by
  induction blocks generalizing m with
  | nil => rfl
  | cons b rest ih => exact ih (m.extend b)

/-- Memory only grows. -/
theorem size_le_foldl_extend {blocks : List DataBlock} (h : ∀ b ∈ blocks, isAlignment b.alignment)
    (m : Machine) : m.memory.size ≤ (blocks.foldl extend m).memory.size := by
  induction blocks generalizing m with
  | nil => exact Nat.le_refl _
  | cons b rest ih =>
    have first := size_extend m (h b (.head _))
    have room : m.memory.size ≤ m.nextOffset b := le_roundUp _ (pos_of_isAlignment (h b (.head _)))
    have later := ih (fun b' mem => h b' (.tail _ mem)) (m.extend b)
    rw [List.foldl_cons]
    omega

/-- What lies in memory stays there while blocks are laid out after it. -/
theorem getElem?_memory_foldl_extend (blocks : List DataBlock) {m : Machine} {k : Nat}
    (inside : k < m.memory.size) : (blocks.foldl extend m).memory[k]? = m.memory[k]? := by
  induction blocks generalizing m with
  | nil => rfl
  | cons b rest ih =>
    have grown : m.memory.size ≤ (m.extend b).memory.size := by
      simp only [extend, Array.size_append]
      omega
    rw [List.foldl_cons, ih (Nat.lt_of_lt_of_le inside grown), extend, Array.append_assoc,
      Array.getElem?_append_left inside]

/-- Blocks with other labels do not change where a label leads. -/
theorem dataOffset?_foldl_of_notMem {blocks : List DataBlock} {label : String}
    (h : label ∉ blocks.map DataBlock.label) (m : Machine) :
    (blocks.foldl extend m).dataOffset? label = m.dataOffset? label := by
  induction blocks generalizing m with
  | nil => rfl
  | cons b rest ih =>
    rw [List.map_cons, List.mem_cons, not_or] at h
    rw [List.foldl_cons, ih h.2]
    exact Catalogue.find?_insert_of_ne _ _ h.1

/-- A block is found at the address that the blocks before it lead to. -/
theorem dataOffset?_foldl {before after : List DataBlock} {b : DataBlock}
    (h : b.label ∉ after.map DataBlock.label) (m : Machine) :
    ((before ++ b :: after).foldl extend m).dataOffset? b.label =
      some ((before.foldl extend m).nextOffset b) := by
  rw [List.foldl_append, List.foldl_cons, dataOffset?_foldl_of_notMem h]
  exact Catalogue.find?_insert_self _ _ _

/-- A label is known after blocks have been laid out exactly if it was before or one of the blocks has it. -/
theorem isSome_dataOffset?_foldl {blocks : List DataBlock} {m : Machine} {label : String} :
    ((blocks.foldl extend m).dataOffset? label).isSome ↔
      (m.dataOffset? label).isSome ∨ label ∈ blocks.map DataBlock.label := by
  induction blocks generalizing m with
  | nil => simp
  | cons b rest ih =>
    rw [List.foldl_cons, ih, List.map_cons, List.mem_cons, extend, dataOffset?,
      Catalogue.find?_insert]
    split
    · simp_all
    · simp_all [dataOffset?]

/-! ## Code -/

/-- An instruction with its name resolved. -/
def loadedInstruction (m : Machine) (i : Instruction) : LoadedInstruction :=
  ⟨i.op, (m.resolve i).toOption.getD 0⟩

/-- To resolve names only the tables of names are needed. -/
theorem resolve_congr {m m' : Machine} (jump : m.jumpLabels = m'.jumpLabels)
    (data : m.dataLabels = m'.dataLabels) (i : Instruction) : m.resolve i = m'.resolve i := by
  unfold resolve resolveLabel jumpTarget? dataOffset?
  rw [jump, data]

/-- So an instruction is the same on machines with the same tables. -/
theorem loadedInstruction_congr {m m' : Machine} (jump : m.jumpLabels = m'.jumpLabels)
    (data : m.dataLabels = m'.dataLabels) (i : Instruction) :
    m.loadedInstruction i = m'.loadedInstruction i := by
  rw [loadedInstruction, loadedInstruction, resolve_congr jump data]

/-- Code is resolved in order, and stops at the first name that is not found. -/
theorem resolveCode_cons (i : Instruction) (rest : List Instruction) (m : Machine) :
    resolveCode (i :: rest) m =
      match m.resolve i with
      | .error fault => .error fault m
      | .ok argument => resolveCode rest { m with code := m.code.push ⟨i.op, argument⟩ } := by
  rw [resolveCode]
  refine (bind_of_ok get_apply).trans ?_
  cases m.resolve i with
  | error fault => rfl
  | ok argument => rfl

/-- Code is resolved exactly if every instruction in it is. -/
theorem resolveCode_eq_ok_iff {code : List Instruction} {m m' : Machine} :
    resolveCode code m = .ok () m' ↔
      (∀ i ∈ code, ∃ argument, m.resolve i = .ok argument) ∧
        m' = { m with code := m.code ++ (code.map m.loadedInstruction).toArray } := by
  induction code generalizing m with
  | nil =>
    simp only [resolveCode, pure_apply, EStateM.Result.ok.injEq, true_and]
    constructor
    · rintro rfl
      exact ⟨by simp, by simp⟩
    · rintro ⟨-, rfl⟩
      simp
  | cons i rest ih =>
    rw [resolveCode_cons]
    cases resolved : m.resolve i with
    | error fault => simp [resolved]
    | ok argument =>
      have same : ∀ j, ({ m with code := m.code.push ⟨i.op, argument⟩ } : Machine).resolve j =
          m.resolve j := fun j => resolve_congr rfl rfl j
      have same' : ({ m with code := m.code.push ⟨i.op, argument⟩ } : Machine).loadedInstruction =
          m.loadedInstruction := funext fun j => loadedInstruction_congr rfl rfl j
      have loaded : m.loadedInstruction i = ⟨i.op, argument⟩ := by
        simp [loadedInstruction, resolved, Except.toOption]
      simp only
      rw [ih, List.forall_mem_cons, List.map_cons, loaded, same']
      simp only [same, resolved]
      simp

end Machine

/-! ## Programs -/

/-- Some of the data of a program, laid out, with the places of its marks. -/
def Program.withBlocks (p : Program) (capacity : Nat) (blocks : List DataBlock) : Machine :=
  blocks.foldl Machine.extend { capacity, jumpLabels := addMarks .empty 0 p.code }

/-- The data of a program, laid out, with the places of its marks. -/
def Program.laidOut (p : Program) (capacity : Nat) : Machine :=
  p.withBlocks capacity p.blocks

/-- What a program is loaded as. -/
def Program.machine (p : Program) (capacity : Nat) : Machine :=
  let laidOut := p.laidOut capacity
  { laidOut with
    code := (p.code.map laidOut.loadedInstruction).toArray
    image := laidOut.memory }

namespace Machine

/-- An instruction is resolved exactly if its name is that of a mark or, in a `push`, of data. A mark's own name does
not count, and neither do instructions without a name. -/
theorem isSome_resolve_iff {m : Machine} {i : Instruction} :
    (∃ argument, m.resolve i = .ok argument) ↔
      (i.op ≠ .label → ∀ name, i.operand = .label name →
        (m.jumpTarget? name).isSome ∨ i.op = .push ∧ (m.dataOffset? name).isSome) := by
  obtain ⟨op, operand⟩ := i
  by_cases mark : op = .label
  · simp [resolve, mark]
  · cases operand with
    | none => simp [resolve, mark]
    | immediate value => simp [resolve, mark]
    | label name =>
      simp only [resolve, mark, resolveLabel, if_false]
      by_cases push : op = .push
      · cases jump : m.jumpTarget? name <;> cases data : m.dataOffset? name <;>
          simp [push, jump, data]
      · cases jump : m.jumpTarget? name <;> simp [push, mark, jump]

/-- Under the labels of a program are its marks and its data. -/
theorem isSome_jumpTarget?_laidOut (p : Program) (capacity : Nat) (name : String) :
    ((p.laidOut capacity).jumpTarget? name).isSome ↔ name ∈ marks p.code := by
  rw [Program.laidOut, Program.withBlocks, jumpTarget?, jumpLabels_foldl_extend, isSome_find?_addMarks]
  simp

/-- The labels that are known are those of the program's data. -/
theorem isSome_dataOffset?_laidOut (p : Program) (capacity : Nat) (name : String) :
    ((p.laidOut capacity).dataOffset? name).isSome ↔ name ∈ p.dataLabels := by
  rw [Program.laidOut, Program.withBlocks, isSome_dataOffset?_foldl]
  simp [dataOffset?, Program.dataLabels]

/-- The stages of loading, from an empty machine on. -/
def loadStages (p : Program) : Loading Unit := do
  indexMarks 0 p.code
  reserveBlocks p.blocks
  resolveCode p.code
  modify fun m => { m with image := m.memory }

/-- Of what was loaded before, only the capacity stays. -/
theorem load_eq_loadStages (p : Program) (m : Machine) :
    load p m = loadStages p { capacity := m.capacity } := by
  have static : (do reserveStatic (← get).memory.size p.static.entries : Loading Unit) =
      reserveBlocks (p.static.entries.map .ofStatic) := by
    funext m
    refine (bind_of_ok get_apply).trans ((reserveStatic_eq _ (Nat.le_refl _)).trans ?_)
    rw [zeroFill_eq (Nat.le_refl _), Nat.sub_self, Array.replicate_zero, Array.append_empty]
  rw [loadStages, Program.blocks, reserveBlocks_append, ← reserveReadOnly_eq, ← static]
  simp only [bind_assoc]
  rfl

/-- A program loads exactly if it is well labelled. -/
theorem load_eq_ok_iff {p : Program} {m m' : Machine} :
    load p m = .ok () m' ↔ p.WellLabelled ∧ m' = p.machine m.capacity := by
  rw [load_eq_loadStages, loadStages]
  simp only [bind_eq_ok]
  constructor
  · rintro ⟨_, m₁, indexed, _, m₂, reserved, _, m₃, resolved, last⟩
    obtain ⟨named, nodup, -, rfl⟩ := indexMarks_eq_ok_iff.1 indexed
    obtain ⟨nodup', unknown, rfl⟩ := reserveBlocks_eq_ok_iff.1 reserved
    obtain ⟨resolvable, rfl⟩ := resolveCode_eq_ok_iff.1 resolved
    cases last
    refine ⟨⟨named, List.nodup_append.2 ⟨nodup, nodup', ?_⟩, fun b mem => (unknown b mem).2.2, ?_⟩, ?_⟩
    -- The marks were there when the data was laid out, so a label of data that is a mark's was refused.
    · rintro name mem _ mem' rfl
      obtain ⟨b, held, rfl⟩ := List.mem_map.1 mem'
      have known := (isSome_jumpTarget?_laidOut p m.capacity b.label).2 mem
      rw [Program.laidOut, Program.withBlocks, jumpTarget?, jumpLabels_foldl_extend,
        (unknown b held).1] at known
      cases known
    · intro i mem other name operand
      have found := isSome_resolve_iff.1 (resolvable i mem) other name operand
      rw [← isSome_jumpTarget?_laidOut p m.capacity, ← isSome_dataOffset?_laidOut p m.capacity]
      exact found
    · simp [Program.machine, Program.laidOut, Program.withBlocks]
  · rintro ⟨labelled, rfl⟩
    obtain ⟨nodup, nodup', different⟩ := List.nodup_append.1 labelled.distinct
    refine ⟨(), _, indexMarks_eq_ok_iff.2 ⟨labelled.named, nodup, by simp, rfl⟩, (), _,
      reserveBlocks_eq_ok_iff.2 ⟨nodup', fun b mem => ⟨?_, by simp, labelled.aligned b mem⟩, rfl⟩, (),
      _, resolveCode_eq_ok_iff.2 ⟨fun i mem => isSome_resolve_iff.2 ?_, rfl⟩, ?_⟩
    · have notMark : b.label ∉ marks p.code := fun mem' =>
        different b.label mem' b.label (List.mem_map.2 ⟨b, mem, rfl⟩) rfl
      rw [find?_addMarks_of_notMem notMark, Catalogue.find?_empty]
    · intro other name operand
      have found := labelled.resolved i mem other name operand
      rw [← isSome_jumpTarget?_laidOut p m.capacity, ← isSome_dataOffset?_laidOut p m.capacity] at found
      exact found
    · simp [Program.machine, Program.laidOut, Program.withBlocks]

end Machine

namespace Program

variable {p : Program} {capacity : Nat}

/-- The code of a loaded program stands where the program has it. -/
theorem getElem?_code_machine (p : Program) (capacity index : Nat) :
    (p.machine capacity).code[index]? =
      (p.code[index]?).map (p.machine capacity).loadedInstruction := by
  have same : (p.machine capacity).loadedInstruction = (p.laidOut capacity).loadedInstruction :=
    funext fun i => Machine.loadedInstruction_congr rfl rfl i
  rw [same]
  simp [machine]

@[simp]
theorem image_machine (p : Program) (capacity : Nat) :
    (p.machine capacity).image = (p.machine capacity).memory := rfl

@[simp]
theorem capacity_machine (p : Program) (capacity : Nat) : (p.machine capacity).capacity = capacity :=
  Machine.capacity_foldl_extend _ _

namespace WellLabelled

/-- A mark names its own place. -/
theorem jumpTarget?_machine (h : p.WellLabelled) {before after : List Instruction} {i : Instruction}
    (split : p.code = before ++ i :: after) (mark : i.op = .label) :
    (p.machine capacity).jumpTarget? (Machine.markName i) = some before.length := by
  have nodup := (List.nodup_append.1 h.distinct).1
  rw [split, marks_append, marks_cons_mark mark] at nodup
  have last : Machine.markName i ∉ marks after :=
    (List.nodup_cons.1 (List.nodup_append.1 nodup).2.1).1
  show (p.laidOut capacity).jumpLabels.find? _ = _
  rw [laidOut, withBlocks, Machine.jumpLabels_foldl_extend, split, find?_addMarks mark last, Nat.zero_add]

/-- A block is found after the blocks before it, and ends before the blocks after it start. -/
theorem dataOffset?_machine (h : p.WellLabelled) {before after : List DataBlock} {b : DataBlock}
    (split : p.blocks = before ++ b :: after) :
    (p.machine capacity).dataOffset? b.label = some ((p.withBlocks capacity before).nextOffset b) ∧
      (p.withBlocks capacity (before ++ [b])).memory.size =
        (p.withBlocks capacity before).nextOffset b + b.size := by
  have nodup := (List.nodup_append.1 h.distinct).2.1
  rw [dataLabels, split, List.map_append, List.map_cons] at nodup
  have last := (List.nodup_cons.1 (List.nodup_append.1 nodup).2.1).1
  constructor
  · show (p.withBlocks capacity p.blocks).dataOffset? _ = _
    rw [split]
    exact Machine.dataOffset?_foldl last _
  · rw [withBlocks, List.foldl_append]
    exact Machine.size_extend _ (h.aligned b (by simp [split]))

/-- More blocks make memory no smaller. -/
theorem size_withBlocks_le (h : p.WellLabelled) (capacity : Nat) {blocks rest : List DataBlock}
    (split : p.blocks = blocks ++ rest) (front : List DataBlock) (sub : front <+: rest) :
    (p.withBlocks capacity blocks).memory.size ≤ (p.withBlocks capacity (blocks ++ front)).memory.size := by
  rw [withBlocks, withBlocks, List.foldl_append]
  refine Machine.size_le_foldl_extend (fun b mem => h.aligned b ?_) _
  rw [split]
  exact List.mem_append_right _ (sub.subset mem)

/-- A block lies inside memory, at a multiple of its alignment. -/
theorem exists_dataOffset? (h : p.WellLabelled) (capacity : Nat) {b : DataBlock} (mem : b ∈ p.blocks) :
    ∃ offset, (p.machine capacity).dataOffset? b.label = some offset ∧ b.alignment ∣ offset ∧
      offset + b.size ≤ (p.machine capacity).memory.size := by
  obtain ⟨before, after, split⟩ := List.append_of_mem mem
  obtain ⟨found, size⟩ := h.dataOffset?_machine split
  refine ⟨_, found, Machine.dvd_roundUp _ _, ?_⟩
  have split' : p.blocks = (before ++ [b]) ++ after := by rw [split]; simp
  have room := h.size_withBlocks_le capacity split' after (List.prefix_refl after)
  rw [← split', size] at room
  exact room

/-- A block holds its contents. -/
theorem getElem?_memory (h : p.WellLabelled) {b : DataBlock} (mem : b ∈ p.blocks) {offset : Nat}
    (found : (p.machine capacity).dataOffset? b.label = some offset) {k : Nat} (inside : k < b.size) :
    (p.machine capacity).memory[offset + k]? = (Machine.blockSlots b.size b.contents)[k]? := by
  obtain ⟨before, after, split⟩ := List.append_of_mem mem
  obtain ⟨found', size⟩ := h.dataOffset?_machine split
  cases found.symm.trans found'
  have room : (p.withBlocks capacity before).memory.size ≤ (p.withBlocks capacity before).nextOffset b :=
    Machine.le_roundUp _ (Machine.pos_of_isAlignment (h.aligned b mem))
  have whole : (p.machine capacity).memory =
      (after.foldl Machine.extend (p.withBlocks capacity (before ++ [b]))).memory := by
    show (p.withBlocks capacity p.blocks).memory = _
    rw [split, withBlocks, withBlocks, List.foldl_append, List.foldl_append]
    rfl
  have last : (p.withBlocks capacity (before ++ [b])).memory =
      ((p.withBlocks capacity before).extend b).memory := by
    rw [withBlocks, List.foldl_append]
    rfl
  rw [whole, Machine.getElem?_memory_foldl_extend _ (by omega), last, Machine.extend,
    Array.getElem?_append_right (by simp; omega)]
  congr 1
  simp only [Array.size_append, Array.size_replicate]
  omega

/-- A block ends before the blocks after it start. -/
theorem dataOffset?_ordered (h : p.WellLabelled) {b b' : DataBlock}
    {before middle after : List DataBlock} (split : p.blocks = before ++ b :: (middle ++ b' :: after))
    {offset offset' : Nat} (found : (p.machine capacity).dataOffset? b.label = some offset)
    (found' : (p.machine capacity).dataOffset? b'.label = some offset') : offset + b.size ≤ offset' := by
  obtain ⟨first, size⟩ := h.dataOffset?_machine split
  have split' : p.blocks = ((before ++ [b]) ++ middle) ++ b' :: after := by rw [split]; simp
  have split'' : p.blocks = (before ++ [b]) ++ (middle ++ b' :: after) := by rw [split]; simp
  obtain ⟨second, -⟩ := h.dataOffset?_machine split'
  have room := h.size_withBlocks_le capacity split'' middle (List.prefix_append _ _)
  have positive := Machine.pos_of_isAlignment (h.aligned b' (by rw [split]; simp))
  have start := Machine.le_roundUp
    (p.withBlocks capacity ((before ++ [b]) ++ middle)).memory.size positive
  cases found.symm.trans first
  cases found'.symm.trans second
  unfold Machine.nextOffset at size ⊢
  omega

/-- Of two blocks, one ends before the other starts. -/
theorem dataOffset?_disjoint (h : p.WellLabelled) {b b' : DataBlock} (mem : b ∈ p.blocks)
    (mem' : b' ∈ p.blocks) (different : b.label ≠ b'.label) {offset offset' : Nat}
    (found : (p.machine capacity).dataOffset? b.label = some offset)
    (found' : (p.machine capacity).dataOffset? b'.label = some offset') :
    offset + b.size ≤ offset' ∨ offset' + b'.size ≤ offset := by
  -- It is enough to look at the block that is laid out first.
  obtain ⟨before, after, split⟩ := List.append_of_mem mem
  rw [split] at mem'
  rcases List.mem_append.1 mem' with mem' | mem'
  · obtain ⟨front, middle, rfl⟩ := List.append_of_mem mem'
    have split' : p.blocks = front ++ b' :: (middle ++ b :: after) := by rw [split]; simp
    exact .inr (h.dataOffset?_ordered split' found' found)
  · rcases List.mem_cons.1 mem' with rfl | mem'
    · exact absurd rfl different
    · obtain ⟨middle, back, rfl⟩ := List.append_of_mem mem'
      exact .inl (h.dataOffset?_ordered split found found')

end WellLabelled

end Program

end MiniC
