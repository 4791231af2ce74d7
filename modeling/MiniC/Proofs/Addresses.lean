import MiniC.Proofs.Labels
import MiniC.Proofs.Layout

/-!
# Addresses in the code

A `push` of a label carries the address of its block as a word of 32 bits with a sign. The word is the address
exactly if the address is below 2³¹ (`toInt_ofNat_eq_iff`), and `Machine.load_push_exact_iff` says so of all
the code of a loaded program.

The sizes of types are kept below that bound one by one, but addresses add them up: the literals of a source lie
without gaps, its variables are whole words and lie without gaps after them, and so the address of a variable is
the sum of all sizes before it (`Lowers.dataOffset?_literal`, `Lowers.dataOffset?_variable`). Three variables are
enough to pass the bound (`Source.compile_address_truncated`).
-/

namespace MiniC

/-- A word with a sign holds the numbers below 2³¹. -/
theorem toInt_ofNat_eq_iff (n : Nat) : (Int32.ofNat n).toInt = n ↔ n ≤ 2147483647 := by
  constructor
  · intro same
    have le := Int32.toInt_le (.ofNat n)
    rw [same, show Int32.maxValue.toInt = 2147483647 by decide] at le
    omega
  · intro low
    exact Int32.toInt_ofNat_of_lt (by omega)

/-! ## Blocks without gaps -/

/-- The slots that blocks take, without the gaps between them. -/
def totalSize : List DataBlock → Nat
  | [] => 0
  | b :: rest => b.size + totalSize rest

namespace Machine

/-- There is one multiple of a unit within a unit from a number on. -/
theorem eq_roundUp {n unit k : Nat} (dvd : unit ∣ k) (le : n ≤ k) (lt : k < n + unit) : k = roundUp n unit := by
  obtain ⟨count, rfl⟩ := dvd
  have quotient : (n + unit - 1) / unit = count := by
    refine Nat.div_eq_of_lt_le ?_ ?_
    · rw [Nat.mul_comm]
      omega
    · rw [Nat.succ_mul, Nat.mul_comm count]
      omega
  rw [roundUp, quotient, Nat.mul_comm]

/-- A multiple is not rounded. -/
theorem roundUp_of_dvd {n unit : Nat} (positive : 0 < unit) (dvd : unit ∣ n) : roundUp n unit = n :=
  (eq_roundUp dvd (Nat.le_refl n) (by omega)).symm

namespace Tiles

variable {m : Machine} {start stop unit : Nat} {before after blocks : List DataBlock} {b : DataBlock}

/-- Blocks in two parts lie part after part. -/
theorem split (h : m.Tiles start (before ++ after) stop) :
    ∃ middle, m.Tiles start before middle ∧ m.Tiles middle after stop := by
  induction before generalizing start with
  | nil => exact ⟨start, .nil start, h⟩
  | cons first before ih =>
    cases h with
    | cons found dvd le lt rest =>
      obtain ⟨middle, front, back⟩ := ih rest
      exact ⟨middle, .cons found dvd le lt front, back⟩

/-- Blocks that are multiples of their one alignment leave no gap, except before the first of them. -/
theorem dataOffset?_eq (positive : 0 < unit) (h : m.Tiles start (before ++ b :: after) stop)
    (whole : ∀ b' ∈ before, b'.alignment = unit ∧ unit ∣ b'.size) (aligned : b.alignment = unit) :
    m.dataOffset? b.label = some (roundUp start unit + totalSize before) := by
  induction before generalizing start with
  | nil =>
    cases h with
    | cons found dvd le lt rest =>
      rw [aligned] at dvd lt
      rw [found, eq_roundUp dvd le lt]
      rfl
  | cons first before ih =>
    obtain ⟨⟨aligned', size⟩, whole⟩ := List.forall_mem_cons.1 whole
    cases h with
    | cons found dvd le lt rest =>
      rw [aligned'] at dvd lt
      have next := roundUp_of_dvd positive ((Nat.dvd_add_right dvd).2 size)
      rw [ih rest whole, next, eq_roundUp dvd le lt, totalSize, Nat.add_assoc]

/-- Where blocks and their start are multiples of one unit there are no gaps, so the end is the start and the sizes.
-/
theorem stop_eq (positive : 0 < unit) (h : m.Tiles start blocks stop) (aligned : unit ∣ start)
    (whole : ∀ b ∈ blocks, b.alignment = unit ∧ unit ∣ b.size) :
    stop = start + totalSize blocks := by
  induction blocks generalizing start with
  | nil =>
    cases h
    rfl
  | cons first rest ih =>
    obtain ⟨⟨aligned', size⟩, whole⟩ := List.forall_mem_cons.1 whole
    cases h with
    | cons found dvd le lt tiles =>
      rw [aligned'] at dvd lt
      obtain rfl := (eq_roundUp dvd le lt).trans (roundUp_of_dvd positive aligned)
      rw [ih tiles ((Nat.dvd_add_right dvd).2 size) whole, totalSize, Nat.add_assoc]

end Tiles

end Machine

/-! ## The data of a source -/

namespace CheckedSource.Lowers

variable {checked : CheckedSource} (h : checked.Lowers)

include h

omit h in
/-- Literals need no alignment. -/
theorem whole_of_readOnly (b : DataBlock) (mem : b ∈ checked.program.readOnly.entries.map .ofReadOnly) :
    b.alignment = 1 ∧ 1 ∣ b.size := by
  obtain ⟨entry, held, rfl⟩ := List.mem_map.1 mem
  obtain ⟨value, block⟩ := exists_literal_of_readOnly held
  exact ⟨congrArg ReadOnlyBlock.alignment block, Nat.one_dvd _⟩

/-- Variables are words in a row, aligned to words. -/
theorem whole_of_static (b : DataBlock) (mem : b ∈ checked.program.static.entries.map .ofStatic) :
    b.alignment = Ty.wordSize ∧ Ty.wordSize ∣ b.size := by
  obtain ⟨entry, held, rfl⟩ := List.mem_map.1 mem
  obtain ⟨s, storable, block, alignment⟩ := h.storable_of_static held
  obtain ⟨-, size, -⟩ := Ty.layout_of_size storable.size
  exact ⟨(congrArg StaticBlock.alignment block).trans alignment, _, (congrArg StaticBlock.size block).trans size⟩

/-- No variable is larger than the largest size that a type may have. -/
theorem size_le_of_static {entry : String × StaticBlock} (mem : entry ∈ checked.program.static.entries) :
    entry.2.size ≤ Ty.maxSize := by
  obtain ⟨s, storable, block, -⟩ := h.storable_of_static mem
  obtain ⟨-, -, small⟩ := Ty.layout_of_size storable.size
  rwa [block]

/-- The literals of a source lie one after another from address zero on, and its variables after them. -/
theorem tiles_sections (capacity : Nat) :
    (checked.program.machine capacity).Tiles 0 (checked.program.readOnly.entries.map .ofReadOnly)
        (totalSize (checked.program.readOnly.entries.map .ofReadOnly)) ∧
      (checked.program.machine capacity).Tiles (totalSize (checked.program.readOnly.entries.map .ofReadOnly))
        (checked.program.static.entries.map .ofStatic) (checked.program.machine capacity).memory.size := by
  obtain ⟨middle, literals, rest⟩ := (h.wellLabelled.tiles capacity).split
  have stop := literals.stop_eq Nat.one_pos (Nat.one_dvd 0) whole_of_readOnly
  rw [Nat.zero_add] at stop
  obtain rfl := stop
  exact ⟨literals, rest⟩

/-- A literal is at the sum of the sizes of the literals before it. -/
theorem dataOffset?_literal (capacity : Nat) {before after : List (String × ReadOnlyBlock)} {label : String}
    {block : ReadOnlyBlock} (split : checked.program.readOnly.entries = before ++ (label, block) :: after) :
    (checked.program.machine capacity).dataOffset? label = some (totalSize (before.map .ofReadOnly)) := by
  have tiles := (h.tiles_sections capacity).1
  have whole := @whole_of_readOnly checked
  rw [split, List.map_append, List.map_cons] at tiles whole
  have found := tiles.dataOffset?_eq Nat.one_pos (fun b mem => whole b (List.mem_append_left _ mem))
    (whole _ (List.mem_append_right _ (.head _))).1
  rwa [Machine.roundUp_of_dvd Nat.one_pos (Nat.one_dvd 0), Nat.zero_add] at found

/-- A variable is at the sum of the sizes of the literals, rounded up to a word, and of the variables before it. -/
theorem dataOffset?_variable (capacity : Nat) {before after : List (String × StaticBlock)} {label : String}
    {block : StaticBlock} (split : checked.program.static.entries = before ++ (label, block) :: after) :
    (checked.program.machine capacity).dataOffset? label =
      some (Machine.roundUp (totalSize (checked.program.readOnly.entries.map .ofReadOnly)) Ty.wordSize +
        totalSize (before.map .ofStatic)) := by
  have tiles := (h.tiles_sections capacity).2
  have whole := h.whole_of_static
  rw [split, List.map_append, List.map_cons] at tiles whole
  exact tiles.dataOffset?_eq (show 0 < Ty.wordSize by decide)
    (fun b mem => whole b (List.mem_append_left _ mem)) (whole _ (List.mem_append_right _ (.head _))).1

end CheckedSource.Lowers

/-- The addresses in the code of a loaded program. A `push` of the label of a block carries the remainder of its
address in a word with a sign, and so the address itself exactly if that is below 2³¹; this is so whenever memory
is no larger. In the program of a source every literal is at the sum of the sizes of the literals before it, and
every variable at the sum of the sizes of the literals, rounded up to a word, and of the variables before it,
none of which passes the bound by itself. -/
theorem Machine.load_push_exact_iff {p : Program} {m m' : Machine} (loaded : load p m = .ok () m') :
    (∀ (index : Nat) label offset, p.code[index]? = some (.pushLabel label) → m'.dataOffset? label = some offset →
      offset ≤ m'.memory.size ∧ ∃ argument : Int32, m'.code[index]? = some ⟨.push, argument⟩ ∧
        argument.toInt = (offset : Int).bmod 4294967296 ∧ (argument.toInt = offset ↔ offset ≤ 2147483647)) ∧
      ∀ source options, Source.lower source options = .ok p →
        (∀ before label block after, p.readOnly.entries = before ++ (label, block) :: after →
          m'.dataOffset? label = some (totalSize (before.map .ofReadOnly))) ∧
        ∀ before label block after, p.static.entries = before ++ (label, block) :: after →
          block.size ≤ 2147483647 ∧ m'.dataOffset? label =
            some (roundUp (totalSize (p.readOnly.entries.map .ofReadOnly)) 4 +
              totalSize (before.map .ofStatic)) := by
  obtain ⟨labelled, rfl⟩ := load_eq_ok_iff.1 loaded
  refine ⟨fun index label offset pushed found => ⟨?_, .ofNat offset, ?_, ?_, toInt_ofNat_eq_iff offset⟩, ?_⟩
  · have known : label ∈ p.dataLabels := by
      rw [← isSome_dataOffset?_laidOut p m.capacity]
      exact Option.isSome_of_eq_some found
    obtain ⟨b, mem, rfl⟩ := List.mem_map.1 known
    obtain ⟨offset', found', -, inside⟩ := labelled.exists_dataOffset? m.capacity mem
    cases found.symm.trans found'
    omega
  · rw [p.getElem?_code_machine, pushed, Option.map_some, loadedInstruction_pushLabel found]
  · exact Int32.toInt_ofNat'
  · intro source options lowered
    obtain ⟨checked, -, -, -, lowers, rfl, -⟩ := Source.lower_eq_ok lowered
    refine ⟨fun before label block after => lowers.dataOffset?_literal m.capacity,
      fun before label block after split => ⟨?_, lowers.dataOffset?_variable m.capacity split⟩⟩
    have mem : (label, block) ∈ checked.program.static.entries := by simp [split]
    exact lowers.size_le_of_static mem

/-- A literal of three bytes, a variable at the next word, and an array after it. -/
theorem Machine.load_push_exact_iff_array :
    ∃ source p m, Source.lower source = .ok p ∧ load p {} = .ok () m ∧
      p.readOnly.entries = [("__str_lit_2", ⟨3, 1, "hi"⟩)] ∧
      p.static.entries = [("v_a_0", ⟨4, 4⟩), ("v_b_1", ⟨12, 4⟩)] ∧
      p.code[2]? = some (.pushLabel "v_b_1") ∧ m.dataOffset? "v_b_1" = some 8 ∧
      ∃ argument : Int32, m.code[2]? = some ⟨.push, argument⟩ ∧ argument.toInt = 8 := by
  generalize hsource : "\x7b int a; int[3] b; print \"hi\"; b[1] = a; \x7d" = source
  have shape : (Source.lower source).toOption.any (fun p =>
      p.readOnly.entries = [("__str_lit_2", ⟨3, 1, "hi"⟩)] ∧
        p.static.entries = [("v_a_0", ⟨4, 4⟩), ("v_b_1", ⟨12, 4⟩)] ∧
        p.code[2]? = some (.pushLabel "v_b_1")) = true := by
    subst hsource
    decide +kernel
  refine ⟨source, ?_⟩
  cases lowered : Source.lower source with
  | error e => simp [lowered, Except.toOption] at shape
  | ok p =>
    simp only [lowered, Except.toOption, Option.any_some, decide_eq_true_eq] at shape
    obtain ⟨literals, storage, pushed⟩ := shape
    obtain ⟨checked, -, -, -, lowers, rfl, -⟩ := Source.lower_eq_ok lowered
    have loaded := (@load_eq_ok_iff _ {} _).2 ⟨lowers.wellLabelled, rfl⟩
    obtain ⟨pushes, places⟩ := load_push_exact_iff loaded
    have found := ((places source {} lowered).2 [("v_a_0", ⟨4, 4⟩)] "v_b_1" ⟨12, 4⟩ [] storage).2
    rw [literals] at found
    obtain ⟨-, argument, held, -, same⟩ := pushes 2 "v_b_1" 8 pushed found
    exact ⟨_, _, rfl, loaded, literals, storage, pushed, found, argument, held, same.2 (by decide)⟩

/-! ## Addresses that do not fit -/

/-- A store outside of memory faults and leaves memory as it is. Both operands have been taken. -/
theorem Machine.step_store_outside {capacity : Nat} {address value argument : Int32} {fault : Fault} {s : State}
    (outside : slot s.memory.size address = .error fault) :
    step capacity ⟨.store, argument⟩ { s with stack := (s.stack.push address).push value } =
      .error fault s := by
  have slotAt_eq : slotAt address s = .error fault s := by
    refine (bind_of_ok get_apply).trans ?_
    rw [outside]
    rfl
  exact (bind_of_ok rfl).trans ((bind_of_ok rfl).trans (bind_of_error slotAt_eq))

/-- A program that first assigns to an address outside memory does nothing else. -/
theorem Machine.run_store_outside {m : Machine} {address value argument : Int32} {fault : Fault}
    (first : m.code[0]? = some ⟨.push, address⟩) (second : m.code[1]? = some ⟨.push, value⟩)
    (third : m.code[2]? = some ⟨.store, argument⟩) (room : 2 ≤ m.capacity)
    (outside : slot m.image.size address = .error fault) (console : Console) :
    m.run 3 console = some ⟨.error fault, { m.start console with pc := 3 }⟩ := by
  have pushed : step m.capacity ⟨.push, address⟩ { m.start console with pc := 0 + 1 } =
      .ok () { m.start console with pc := 1, stack := Stack.empty.push address } :=
    if_pos (Nat.lt_of_lt_of_le Nat.two_pos room)
  have pushed' : step m.capacity ⟨.push, value⟩
        { m.start console with pc := 1 + 1, stack := Stack.empty.push address } =
      .ok () { m.start console with pc := 2, stack := (Stack.empty.push address).push value } :=
    if_pos (Nat.lt_of_lt_of_le Nat.one_lt_two room)
  have stored : step m.capacity ⟨.store, argument⟩
        { m.start console with pc := 2 + 1, stack := (Stack.empty.push address).push value } =
      .error fault { m.start console with pc := 3 } :=
    @step_store_outside m.capacity address value argument fault { m.start console with pc := 3 } outside
  simp only [start_eq] at pushed pushed' stored
  simp only [run, runFrom, start_eq, first, pushed, second, pushed', third, stored]

/-- A source whose program faults has the fault for its answer. -/
theorem Source.compile_of_fault {source : String} {options : Options} {p : Program} {m : Machine} {fuel : Nat}
    {console : Console} {fault : Fault} {final : Machine.State} (interpreted : options.backend = .interpret)
    (lowered : Source.lower source options = .ok p)
    (loaded : Machine.load p { capacity := options.stackCapacity } = .ok () m)
    (ends : m.run fuel console = some ⟨.error fault, final⟩) :
    Source.compile source options fuel console = some (.error (.fault fault), final.console) := by
  obtain ⟨⟨_, warnings⟩, warned, last⟩ := except_bind_eq_ok.1 lowered
  cases last
  simp only [compile, warned, interpreted, Program.runOn, loaded, ends, Option.map_some]

/-- The third of three variables is at 2³¹, which the code takes for −2³¹: to assign to it is a fault. -/
theorem Source.compile_address_truncated :
    ∃ p m, Source.lower "\x7b int[268435458] a; int[268435454] b; int c; c = 7; print c; \x7d" = .ok p ∧
      Machine.load p {} = .ok () m ∧ p.code[0]? = some (.pushLabel "v_c_2") ∧
      m.dataOffset? "v_c_2" = some 2147483648 ∧ m.code[0]? = some ⟨.push, -2147483648⟩ ∧
      Source.compile "\x7b int[268435458] a; int[268435454] b; int c; c = 7; print c; \x7d" {} 3 {} =
        some (.error (.fault (.invalidAddress (-2147483648) 2147483652)), {}) := by
  generalize hsource : "\x7b int[268435458] a; int[268435454] b; int c; c = 7; print c; \x7d" = source
  have shape : (Source.lower source).toOption.any (fun p => p.readOnly.entries = [] ∧
      p.static.entries = [("v_a_0", ⟨1073741832, 4⟩), ("v_b_1", ⟨1073741816, 4⟩), ("v_c_2", ⟨4, 4⟩)] ∧
      p.code.take 3 = [.pushLabel "v_c_2", ⟨.push, .immediate 7⟩, ⟨.store, .none⟩]) = true := by
    subst hsource
    decide +kernel
  cases lowered : Source.lower source with
  | error e => simp [lowered, Except.toOption] at shape
  | ok p =>
    simp only [lowered, Except.toOption, Option.any_some, decide_eq_true_eq] at shape
    obtain ⟨literals, storage, code⟩ := shape
    obtain ⟨checked, -, -, -, lowers, rfl, -⟩ := Source.lower_eq_ok lowered
    have loaded := (@Machine.load_eq_ok_iff _ {} _).2 ⟨lowers.wellLabelled, rfl⟩
    have split : checked.program.static.entries =
        [("v_a_0", ⟨1073741832, 4⟩), ("v_b_1", ⟨1073741816, 4⟩)] ++ ("v_c_2", ⟨4, 4⟩) :: [] := storage
    have found := lowers.dataOffset?_variable 1024 split
    have filled := (lowers.tiles_sections 1024).2
    rw [literals] at found filled
    have size := filled.stop_eq (show 0 < Ty.wordSize by decide) (Nat.dvd_zero _) lowers.whole_of_static
    rw [storage] at size
    change _ = some 2147483648 at found
    change _ = 2147483652 at size
    have coded : ∀ k < 3, (checked.program.machine 1024).code[k]? =
        ([Instruction.pushLabel "v_c_2", ⟨.push, .immediate 7⟩, ⟨.store, .none⟩][k]?).map
          (checked.program.machine 1024).loadedInstruction := by
      intro k lt
      rw [checked.program.getElem?_code_machine, ← List.getElem?_take_of_lt lt, code]
    have address : (checked.program.machine 1024).code[0]? = some ⟨.push, -2147483648⟩ :=
      (coded 0 (by decide)).trans (congrArg some (Machine.loadedInstruction_pushLabel found))
    have outside : Machine.slot (checked.program.machine 1024).image.size (-2147483648) =
        .error (.invalidAddress (-2147483648) 2147483652) := by
      rw [checked.program.image_machine, size]
      exact if_neg (by decide)
    have ends := Machine.run_store_outside address (coded 1 (by decide)) (coded 2 (by decide))
      (show 2 ≤ (checked.program.machine 1024).capacity by simp) outside {}
    refine ⟨_, _, rfl, loaded, ?_, found, address, compile_of_fault rfl lowered loaded ends⟩
    rw [← List.getElem?_take_of_lt (show 0 < 3 by decide), code]
    rfl

end MiniC
