import MiniC.Proofs.Instructions
import MiniC.Proofs.Utf8

/-!
# The data of a loaded program

Blocks are laid out one after another, and each is moved up to the next multiple of its alignment.
`Machine.Tiles` says this of a row of blocks between two addresses; `Program.WellLabelled.tiles` says it of
all the data of a program, from address zero to the end of memory. What was not written is zero
(`exists_literal_of_ne_zero`), so memory is known slot by slot.

A literal that has room for its end is printed as its text, up to the first U+0000 in it: the machine stops
at a zero slot, and no other character has a zero byte. `Machine.load_dataLayout` states all of this for
every program that loads.
-/

namespace MiniC

/-! ## Slots of a block -/

namespace Machine

/-- Rounding up skips less than a unit. -/
theorem roundUp_lt (n : Nat) {unit : Nat} (h : 0 < unit) : roundUp n unit < n + unit := by
  have le := Nat.div_mul_le_self (n + unit - 1) unit
  unfold roundUp
  omega

/-- A slot of a block holds its byte, and 0 where the contents have ended. -/
theorem getElem?_blockSlots {size : Nat} {contents : List UInt8} {k : Nat} (inside : k < size) :
    (blockSlots size contents)[k]? = some ((contents[k]?).elim 0 fun byte => .ofNat byte.toNat) := by
  unfold blockSlots
  by_cases held : k < contents.length
  · rw [Array.getElem?_append_left (by simp; omega)]
    simp [held, inside]
  · rw [Array.getElem?_append_right (by simp; omega), Array.getElem?_replicate, if_pos (by simp; omega)]
    simp [Nat.le_of_not_lt held]

/-- A slot of memory that is not zero and was not there before holds a byte of a block. -/
theorem exists_of_getElem?_extend {m : Machine} {b : DataBlock} (aligned : isAlignment b.alignment) {k : Nat}
    {value : Int32} (new : m.memory.size ≤ k) (held : (m.extend b).memory[k]? = some value)
    (nonzero : value ≠ 0) :
    m.nextOffset b ≤ k ∧ k < m.nextOffset b + b.size ∧ k < m.nextOffset b + b.contents.length := by
  have room : m.memory.size ≤ m.nextOffset b := le_roundUp _ (pos_of_isAlignment aligned)
  have inside : k < m.nextOffset b + b.size := by
    rw [← size_extend m aligned]
    exact (Array.getElem?_eq_some_iff.1 held).1
  rw [extend, Array.append_assoc, Array.getElem?_append_right new] at held
  by_cases gap : k < m.nextOffset b
  · rw [Array.getElem?_append_left (by simp; omega), Array.getElem?_replicate, if_pos (by omega)] at held
    exact absurd (Option.some.inj held).symm nonzero
  · rw [Array.getElem?_append_right (by simp; omega), Array.size_replicate,
      getElem?_blockSlots (by omega), Option.some.injEq] at held
    refine ⟨Nat.le_of_not_lt gap, inside, ?_⟩
    by_cases past : k < m.nextOffset b + b.contents.length
    · exact past
    · rw [List.getElem?_eq_none (by omega)] at held
      exact absurd held.symm nonzero

/-- A slot that is not zero after blocks were laid out was there before, or holds a byte of one of them. -/
theorem exists_of_getElem?_foldl_extend {blocks : List DataBlock} {m : Machine}
    (aligned : ∀ b ∈ blocks, isAlignment b.alignment) {k : Nat} {value : Int32} (new : m.memory.size ≤ k)
    (held : (blocks.foldl extend m).memory[k]? = some value) (nonzero : value ≠ 0) :
    ∃ before b after, blocks = before ++ b :: after ∧ (before.foldl extend m).nextOffset b ≤ k ∧
      k < (before.foldl extend m).nextOffset b + b.size ∧
      k < (before.foldl extend m).nextOffset b + b.contents.length := by
  induction blocks generalizing m with
  | nil => exact absurd (Array.getElem?_eq_some_iff.1 held).1 (Nat.not_lt.2 new)
  | cons b rest ih =>
    by_cases here : k < (m.extend b).memory.size
    · rw [List.foldl_cons, getElem?_memory_foldl_extend rest here] at held
      exact ⟨[], b, rest, rfl, exists_of_getElem?_extend (aligned b (.head _)) new held nonzero⟩
    · obtain ⟨before, b', after, rfl, found⟩ :=
        ih (fun b' mem => aligned b' (.tail _ mem)) (Nat.le_of_not_lt here) held
      exact ⟨b :: before, b', after, rfl, found⟩

/-! ## Rows of blocks -/

/-- Blocks lie one after another from one address to another: each at a multiple of its alignment, and with
less than its alignment free before it. -/
inductive Tiles (m : Machine) : Nat → List DataBlock → Nat → Prop
  | nil (stop : Nat) : m.Tiles stop [] stop
  | cons {start offset stop : Nat} {b : DataBlock} {rest : List DataBlock} :
    m.dataOffset? b.label = some offset → b.alignment ∣ offset → start ≤ offset →
      offset < start + b.alignment → m.Tiles (offset + b.size) rest stop → m.Tiles start (b :: rest) stop

end Machine

namespace Program.WellLabelled

variable {p : Program} {capacity : Nat}

/-- The blocks after some others lie between the end of these and the end of memory. -/
theorem tiles_from (h : p.WellLabelled) {before rest : List DataBlock} (split : p.blocks = before ++ rest) :
    (p.machine capacity).Tiles (p.withBlocks capacity before).memory.size rest
      (p.machine capacity).memory.size := by
  induction rest generalizing before with
  | nil =>
    rw [List.append_nil] at split
    rw [← split]
    exact .nil _
  | cons b rest ih =>
    obtain ⟨found, size⟩ := @dataOffset?_machine p capacity h before rest b split
    have positive := Machine.pos_of_isAlignment (h.aligned b (by simp [split]))
    have later := ih (show p.blocks = (before ++ [b]) ++ rest by simp [split])
    rw [size] at later
    exact .cons found (Machine.dvd_roundUp _ _) (Machine.le_roundUp _ positive) (Machine.roundUp_lt _ positive)
      later

/-- The data of a program fills memory, block after block. -/
theorem tiles (h : p.WellLabelled) (capacity : Nat) :
    (p.machine capacity).Tiles 0 p.blocks (p.machine capacity).memory.size :=
  h.tiles_from (show p.blocks = [] ++ p.blocks from rfl)

/-- Every slot holds a byte of a literal or is zero. -/
theorem exists_literal_of_ne_zero (h : p.WellLabelled) {k : Nat} {value : Int32}
    (held : (p.machine capacity).memory[k]? = some value) (nonzero : value ≠ 0) :
    ∃ label block offset, (label, block) ∈ p.readOnly.entries ∧
      (p.machine capacity).dataOffset? label = some offset ∧ offset ≤ k ∧ k < offset + block.size ∧
      k < offset + (Text.utf8 block.value).length := by
  obtain ⟨before, b, after, split, low, inside, written⟩ :=
    Machine.exists_of_getElem?_foldl_extend h.aligned (Nat.zero_le k) held nonzero
  have found := (@dataOffset?_machine p capacity h before after b split).1
  have mem : b ∈ p.blocks := by simp [split]
  rcases List.mem_append.1 mem with literal | variable'
  · obtain ⟨⟨label, block⟩, entered, rfl⟩ := List.mem_map.1 literal
    exact ⟨label, block, _, entered, found, low, inside, written⟩
  · -- A variable has no contents, so nothing was written.
    obtain ⟨entry, -, rfl⟩ := List.mem_map.1 variable'
    exact absurd written (Nat.not_lt.2 low)

end Program.WellLabelled

/-! ## Printed literals -/

namespace Machine

/-- Bytes in memory with a zero after them are read up to the first zero. -/
theorem bytesFrom_of_held {memory : Array Int32} {bytes : List UInt8} {bound start : Nat}
    (held : ∀ k < bytes.length, memory[start + k]? = (bytes[k]?).map fun byte => .ofNat byte.toNat)
    (ends : memory[start + bytes.length]? = some 0) (enough : bytes.length < bound) :
    bytesFrom memory bound start = bytes.takeWhile (· ≠ 0) := by
  obtain ⟨bound, rfl⟩ : ∃ k, bound = k + 1 := ⟨bound - 1, by omega⟩
  induction bytes generalizing bound start with
  | nil =>
    rw [List.length_nil, Nat.add_zero] at ends
    rw [bytesFrom, ends]
    rfl
  | cons byte bytes ih =>
    have here : memory[start]? = some (.ofNat byte.toNat) := held 0 (Nat.zero_lt_succ _)
    rw [bytesFrom, here]
    by_cases zero : byte = 0
    · simp [zero]
    · rw [List.length_cons] at ends enough held
      obtain ⟨bound, rfl⟩ : ∃ k, bound = k + 1 := ⟨bound - 1, by omega⟩
      have later : ∀ k < bytes.length,
          memory[start + 1 + k]? = (bytes[k]?).map fun byte => .ofNat byte.toNat := by
        intro k lt
        rw [Nat.add_assoc, Nat.add_comm 1 k]
        exact held (k + 1) (Nat.succ_lt_succ lt)
      refine (if_neg fun h => zero ((ofNat_toNat_eq_zero_iff byte).1 h)).trans ?_
      rw [lowByte_ofNat, ih later (by rwa [Nat.add_assoc, Nat.add_comm 1]) bound (by omega),
        List.takeWhile_cons_of_pos (by simpa using zero)]

/-- Bytes with a zero behind them are read as a string, up to the first zero among them. -/
theorem stringAt_of_held {memory : Array Int32} {bytes : List UInt8} {start : Nat}
    (held : ∀ k < bytes.length, memory[start + k]? = (bytes[k]?).map fun byte => .ofNat byte.toNat)
    (ends : memory[start + bytes.length]? = some 0) :
    stringAt memory start = String.ofList (Text.decodeLossy (bytes.takeWhile (· ≠ 0))) := by
  have inside := (Array.getElem?_eq_some_iff.1 ends).1
  rw [stringAt, bytesFrom_of_held held ends (by omega)]

/-- Printing a text leaves the text on the console and takes its address off the stack. -/
theorem step_printStr {capacity : Nat} {argument address : Int32} {index : Nat} {s : State}
    (found : slot s.memory.size address = .ok index) :
    step capacity ⟨.printStr, argument⟩ { s with stack := s.stack.push address } =
      .ok () { s with console := s.console.printString (stringAt s.memory index) } := by
  have slotAt_eq : slotAt address s = .ok index s := by
    refine (bind_of_ok get_apply).trans ?_
    rw [found]
    rfl
  exact (bind_of_ok rfl).trans ((bind_of_ok slotAt_eq).trans rfl)

/-! ## Layouts -/

/-- How the data of a program lies in the memory of a machine. -/
structure DataLayout (p : Program) (m : Machine) : Prop where
  /-- Every block is inside memory, at a multiple of its alignment. -/
  placed : ∀ b ∈ p.blocks, ∃ offset, m.dataOffset? b.label = some offset ∧ b.alignment ∣ offset ∧
    offset + b.size ≤ m.memory.size
  /-- No slot belongs to two blocks. -/
  disjoint : ∀ b ∈ p.blocks, ∀ b' ∈ p.blocks, b.label ≠ b'.label → ∀ offset offset',
    m.dataOffset? b.label = some offset → m.dataOffset? b'.label = some offset' → ∀ k,
      offset ≤ k → k < offset + b.size → offset' ≤ k → ¬k < offset' + b'.size
  /-- Literals come first and then variables, each in the order of their labels, without needless gaps, and
  memory ends with the last block. -/
  tiled : m.Tiles 0 (p.readOnly.entries.map .ofReadOnly ++ p.static.entries.map .ofStatic) m.memory.size
  /-- A literal is in memory, byte by byte, as far as its size allows. -/
  written : ∀ label block offset, (label, block) ∈ p.readOnly.entries → m.dataOffset? label = some offset →
    ∀ k < block.size, k < (Text.utf8 block.value).length →
      m.memory[offset + k]? = ((Text.utf8 block.value)[k]?).map fun byte => .ofNat byte.toNat
  /-- Every other slot is zero. -/
  zero : ∀ k < m.memory.size, (∀ label block offset, (label, block) ∈ p.readOnly.entries →
      m.dataOffset? label = some offset → offset ≤ k → k < offset + block.size →
        ¬k < offset + (Text.utf8 block.value).length) →
    m.memory[k]? = some 0

end Machine

namespace Program.WellLabelled

variable {p : Program} {capacity : Nat}

/-- A literal holds its bytes, and zeros behind them. -/
theorem getElem?_literal (h : p.WellLabelled) {label : String} {block : ReadOnlyBlock} {offset : Nat}
    (entered : (label, block) ∈ p.readOnly.entries)
    (found : (p.machine capacity).dataOffset? label = some offset) {k : Nat} (inside : k < block.size) :
    (p.machine capacity).memory[offset + k]? =
      some (((Text.utf8 block.value)[k]?).elim 0 fun byte => .ofNat byte.toNat) := by
  have mem : DataBlock.ofReadOnly (label, block) ∈ p.blocks :=
    List.mem_append_left _ (List.mem_map.2 ⟨_, entered, rfl⟩)
  rw [h.getElem?_memory mem found inside]
  exact Machine.getElem?_blockSlots inside

/-- The data of a well-labelled program is laid out block by block. -/
theorem dataLayout (h : p.WellLabelled) (capacity : Nat) : (p.machine capacity).DataLayout p where
  placed b mem := h.exists_dataOffset? capacity mem
  disjoint b mem b' mem' different offset offset' found found' k low high low' high' := by
    have apart := h.dataOffset?_disjoint mem mem' different found found'
    omega
  tiled := h.tiles capacity
  written label block offset entered found k inside written := by
    rw [h.getElem?_literal entered found inside, List.getElem?_eq_getElem written]
    rfl
  zero k inside unwritten := by
    have held := Array.getElem?_eq_getElem inside
    by_cases zero : (p.machine capacity).memory[k] = 0
    · rw [held, zero]
    · obtain ⟨label, block, offset, entered, found, low, high, written⟩ :=
        h.exists_literal_of_ne_zero held zero
      exact absurd written (unwritten label block offset entered found low high)

end Program.WellLabelled

/-- The data of a loaded program. Blocks are aligned, inside memory and apart; literals in the order of their
labels come first, variables in the order of theirs come after them, with less than its alignment free before
each block, and memory ends with the last block; a literal is in memory byte by byte, and all else is zero.
A literal whose size leaves room for a zero at its end is printed up to its first U+0000, if its address is one
of the machine's words. -/
theorem Machine.load_dataLayout {p : Program} {m m' : Machine} (loaded : load p m = .ok () m') :
    m'.DataLayout p ∧ m'.image = m'.memory ∧
      ∀ label block offset, (label, block) ∈ p.readOnly.entries → m'.dataOffset? label = some offset →
        (Text.utf8 block.value).length + 1 ≤ block.size → offset ≤ 2147483647 →
          ∀ (capacity : Nat) (argument : Int32) (s : State), s.memory = m'.image →
            step capacity ⟨.printStr, argument⟩ { s with stack := s.stack.push (.ofNat offset) } =
              .ok () { s with console := s.console.printString (Text.beforeNul block.value) } := by
  obtain ⟨labelled, rfl⟩ := load_eq_ok_iff.1 loaded
  refine ⟨labelled.dataLayout m.capacity, p.image_machine m.capacity, ?_⟩
  intro label block offset entered found room low capacity argument s initial
  have held := fun k lt => (labelled.dataLayout m.capacity).written label block offset entered found k
    (Nat.lt_trans lt room) lt
  have ends : (p.machine m.capacity).memory[offset + (Text.utf8 block.value).length]? = some 0 := by
    rw [labelled.getElem?_literal entered found room, List.getElem?_eq_none (Nat.le_refl _)]
    rfl
  have inside := (Array.getElem?_eq_some_iff.1 ends).1
  rw [p.image_machine] at initial
  have address : slot s.memory.size (.ofNat offset) = .ok offset := by
    have value : (Int32.ofNat offset).toInt = offset := Int32.toInt_ofNat_of_lt (by omega)
    rw [slot, value, initial, if_pos (by omega), Int.toNat_natCast]
  have text : stringAt s.memory offset = Text.beforeNul block.value := by
    rw [initial, stringAt_of_held held ends, Text.decodeLossy_takeWhile_utf8]
  rw [step_printStr address, text]

/-- A literal with U+0000 in it, an empty block that is moved up to a multiple of eight, and a variable at the
same address. -/
theorem Machine.load_dataLayout_empty :
    ∃ (p : Program) (m' : Machine), p.readOnly.entries = [("a", ⟨5, 1, "é\x00z"⟩)] ∧
      p.static.entries = [("b", ⟨0, 8⟩), ("c", ⟨4, 4⟩)] ∧ load p {} = .ok () m' ∧ m'.DataLayout p ∧
      m'.dataOffset? "b" = some 8 ∧ m'.dataOffset? "c" = some 8 ∧ m'.memory.size = 12 ∧
      step 1 ⟨.printStr, 0⟩ { m'.start {} with stack := Stack.empty.push 0 } =
        .ok () { m'.start {} with console := { printed := #["é"] } } := by
  let p : Program :=
    { readOnly := .ofList [("a", ⟨5, 1, "é\x00z"⟩)], static := .ofList [("b", ⟨0, 8⟩), ("c", ⟨4, 4⟩)] }
  obtain ⟨m', loaded⟩ : ∃ m', load p {} = .ok () m' := ⟨_, rfl⟩
  obtain ⟨layout, -, prints⟩ := load_dataLayout loaded
  obtain rfl := (load_eq_ok_iff.1 loaded).2
  have places : (p.machine 1024).dataOffset? "a" = some 0 ∧ (p.machine 1024).dataOffset? "b" = some 8 ∧
      (p.machine 1024).dataOffset? "c" = some 8 ∧ (p.machine 1024).memory.size = 12 := by
    decide +kernel
  have printed := prints "a" ⟨5, 1, "é\x00z"⟩ 0 (by decide) places.1 (by decide) (by decide) 1 0
    ((p.machine 1024).start {}) rfl
  rw [show Text.beforeNul "é\x00z" = "é" by decide] at printed
  exact ⟨p, p.machine 1024, rfl, rfl, loaded, layout, places.2.1, places.2.2.1, places.2.2.2, printed⟩

end MiniC
