import MiniC.Proofs.Rv32.Assembled
import MiniC.Proofs.Successes

/-!
# Agreement with the stack machine

A program runs on the stack machine and, as assembly, on an RV32 machine. The two are related
(`Related`) when they are at the same instruction, the words from `sp` on are the values on the stack, and
the words of variables are the slots of variables. A step of the stack machine that does not fault is then
matched by a run of the other machine over the lines of the instruction, and the two are related again
(`Program.assembly_simulates`).

The stack machine has a slot for every byte, so only the slots at multiples of four have a counterpart:
a step may load only from a word of a variable, and store only at a multiple of four. What is printed is the
same as long as nothing is stored outside variables and the texts that are printed are literals
(`Printing`).
-/

namespace MiniC.Rv32

/-! ## Data -/

/-- An address lies in a block of data with the given label and size. -/
def InBlock (vm : Machine) (label : String) (size a : Nat) : Prop :=
  ∃ offset, vm.dataOffset? label = some offset ∧ offset ≤ a ∧ a < offset + size

/-- An address lies in a variable. -/
def InStatic (p : Program) (vm : Machine) (a : Nat) : Prop :=
  ∃ entry ∈ p.static.entries, InBlock vm entry.1 entry.2.size a

/-- An address lies in a literal. -/
def InLiteral (p : Program) (vm : Machine) (a : Nat) : Prop :=
  ∃ entry ∈ p.readOnly.entries, InBlock vm entry.1 entry.2.size a

/-- A text that starts at an address ends in the literal where it starts. -/
def EndsInLiteral (p : Program) (vm : Machine) (memory : Array Int32) (a : Nat) : Prop :=
  ∃ z, a ≤ z ∧ memory[z]? = some 0 ∧ ∀ x, a ≤ x → x ≤ z → InLiteral p vm x

/-- Where the parts of a program lie in memory: data at the addresses that it has in the stack machine,
the stack apart from it, and the text that ends a line apart from both. -/
structure Placement (vm : Machine) where
  address : String → Nat
  area : Area
  capacity_eq : area.capacity = vm.capacity
  data : ∀ label offset, vm.dataOffset? label = some offset → address label = offset
  addressable : vm.memory.size ≤ 4294967296
  apart : ∀ a, a < vm.memory.size → ¬ area.Contains a
  newline_fits : address newlineLabel + 2 ≤ 4294967296
  newline_data : Machine.roundUp vm.memory.size 4 ≤ address newlineLabel
  newline_stack : ¬ area.Contains (address newlineLabel) ∧ ¬ area.Contains (address newlineLabel + 1)

/-- The stack machine and an RV32 machine are at the same point of a program. -/
structure Related (p : Program) (vm : Machine) (w : Placement vm) (s : Machine.State) (m : State) :
    Prop where
  inside : s.pc ≤ p.code.length
  bounded : s.stack.values.length ≤ vm.capacity
  size_eq : s.memory.size = vm.memory.size
  /-- The next instruction is the first one of the lines. -/
  pc_eq : m.pc = textPlace p.code s.pc
  /-- The values on the stack lie from `sp` to the top of the area, the top of the stack first. -/
  sp : (m.regs .sp).toNat + 4 * s.stack.values.length = w.area.top
  stack : m.memory.Words (m.regs .sp).toNat s.stack.values
  static : ∀ a, a % 4 = 0 → InStatic p vm a → s.memory[a]? = some (.ofBitVec (m.memory.word a))
  /-- The same lines wait to be read. -/
  input : m.console.pending = s.console.pending ∧ m.console.inputEnd = s.console.inputEnd

/-- The texts of a program are in place, and the two machines have printed the same. -/
structure Printing (p : Program) (vm : Machine) (w : Placement vm) (s : Machine.State) (m : State) :
    Prop where
  newline : m.memory (w.address newlineLabel) = 10 ∧ m.memory (w.address newlineLabel + 1) = 0
  literals : ∀ a, InLiteral p vm a → s.memory[a]? = some (.ofNat (m.memory a).toNat)
  output : m.console.shown = s.console.printedText

/-- An instruction has a counterpart for what it takes: the name that it pushes is that of data, it loads
a word of a variable, and it stores at a multiple of four. -/
def Covered (p : Program) (vm : Machine) (s : Machine.State) : Instruction → Prop
  | ⟨.push, .label name⟩ => name ∈ p.dataLabels
  | ⟨.load, _⟩ => ∀ a ∈ s.stack.values[0]?, a.toInt % 4 = 0 ∧ InStatic p vm a.toInt.toNat
  | ⟨.store, _⟩ => ∀ a ∈ s.stack.values[1]?, a.toInt % 4 = 0
  | _ => True

/-- An instruction stores in variables only, and prints no text but literals. -/
def Proper (p : Program) (vm : Machine) (s : Machine.State) : Instruction → Prop
  | ⟨.store, _⟩ => ∀ a ∈ s.stack.values[1]?, InStatic p vm a.toInt.toNat
  | ⟨.printStr, _⟩ => ∀ a ∈ s.stack.values[0]?, EndsInLiteral p vm s.memory a.toInt.toNat
  | _ => True

/-- A run of the RV32 machine matches a step: the machines are related again, and if the texts were in
place and the instruction is proper, they still are. -/
def Matches (f : Image) (p : Program) (vm : Machine) (w : Placement vm) (s : Machine.State) (m : State)
    (i : Instruction) (s' : Machine.State) : Prop :=
  ∃ m', f.Reaches m m' ∧ Related p vm w s' m' ∧
    (Printing p vm w s m → Proper p vm s i → Printing p vm w s' m')

variable {p : Program} {m₀ vm : Machine} {w : Placement vm} {s s' : Machine.State} {m m' : State}
  {f : Image} {memory : Memory} {console : Console} {i : Instruction}

/-- What lies in a block lies in memory. -/
theorem InBlock.lt_size (loaded : Machine.load p m₀ = .ok () vm) {b : DataBlock} (mem : b ∈ p.blocks)
    {a : Nat} (h : InBlock vm b.label b.size a) : a < vm.memory.size := by
  obtain ⟨labelled, rfl⟩ := Machine.load_eq_ok_iff.1 loaded
  obtain ⟨offset, found, -, upper⟩ := h
  obtain ⟨offset', found', -, inside⟩ := labelled.exists_dataOffset? m₀.capacity mem
  cases found.symm.trans found'
  exact Nat.lt_of_lt_of_le upper inside

theorem InStatic.lt_size (loaded : Machine.load p m₀ = .ok () vm) {a : Nat} (h : InStatic p vm a) :
    a < vm.memory.size := by
  obtain ⟨entry, mem, inside⟩ := h
  have held : DataBlock.ofStatic entry ∈ p.blocks := List.mem_append_right _ (List.mem_map_of_mem mem)
  exact InBlock.lt_size loaded held inside

theorem InLiteral.lt_size (loaded : Machine.load p m₀ = .ok () vm) {a : Nat} (h : InLiteral p vm a) :
    a < vm.memory.size := by
  obtain ⟨entry, mem, inside⟩ := h
  have held : DataBlock.ofReadOnly entry ∈ p.blocks := List.mem_append_left _ (List.mem_map_of_mem mem)
  exact InBlock.lt_size loaded held inside

/-- Literals lie before variables. -/
theorem InLiteral.lt_static (loaded : Machine.load p m₀ = .ok () vm) {x a : Nat} (h : InLiteral p vm x)
    (h' : InStatic p vm a) : x < a := by
  obtain ⟨labelled, rfl⟩ := Machine.load_eq_ok_iff.1 loaded
  obtain ⟨literal, mem, offset, found, -, upper⟩ := h
  obtain ⟨entry, mem', offset', found', lower, -⟩ := h'
  obtain ⟨before, middle, split⟩ := List.append_of_mem (List.mem_map_of_mem (f := DataBlock.ofReadOnly) mem)
  obtain ⟨middle', after, split'⟩ := List.append_of_mem (List.mem_map_of_mem (f := DataBlock.ofStatic) mem')
  have whole : p.blocks = before ++ .ofReadOnly literal :: (middle ++ middle' ++ .ofStatic entry :: after) := by
    rw [Program.blocks, split, split']
    simp
  have apart : offset + literal.2.size ≤ offset' := labelled.dataOffset?_ordered whole found found'
  omega

/-! ## Addresses -/

/-- An address is not negative, and so is the same number for both machines. -/
theorem toNat_toBitVec_of_nonneg {a : Int32} (h : 0 ≤ a.toInt) : a.toBitVec.toNat = a.toInt.toNat := by
  have cases := BitVec.toInt_eq_toNat_cond a.toBitVec
  have bound := a.toBitVec.isLt
  change 0 ≤ a.toBitVec.toInt at h
  show _ = a.toBitVec.toInt.toNat
  split at cases <;> omega

namespace Placement

theorem room (w : Placement vm) {height : Nat} (h : height < vm.capacity) : height < w.area.capacity :=
  w.capacity_eq ▸ h

/-- The bounds of the stack are multiples of four, so a word lies in it or outside. -/
theorem word_apart (w : Placement vm) {a x : Nat} (aligned : a % 4 = 0) (inside : a < vm.memory.size)
    (lower : a ≤ x) (upper : x < a + 4) : ¬ w.area.Contains x := by
  have outside := w.apart a inside
  have top := w.area.aligned
  unfold Area.Contains at outside ⊢
  omega

/-- What happens on the stack does not change the words of data. -/
theorem word_eq (w : Placement vm) {a : Nat} (aligned : a % 4 = 0) (inside : a < vm.memory.size)
    {memory memory' : Memory} (same : ∀ x, ¬ w.area.Contains x → memory' x = memory x) :
    memory'.word a = memory.word a :=
  Memory.word_congr fun x lower upper => same x (w.word_apart aligned inside lower upper)

/-- The text that ends a line lies behind every word of data. -/
theorem le_newline (w : Placement vm) {a : Nat} (aligned : a % 4 = 0) (inside : a < vm.memory.size) :
    a + 4 ≤ w.address newlineLabel := by
  have behind := w.newline_data
  have above := Machine.le_roundUp vm.memory.size (show 0 < 4 by decide)
  obtain ⟨k, multiple⟩ := Machine.dvd_roundUp vm.memory.size 4
  omega

end Placement

/-! ## From what a machine shows to what it is related to -/

/-- A machine that is related to a state of the stack machine shows the values on its stack. -/
theorem Related.shows (h : Related p vm w s m) :
    Shows w.area m (textPlace p.code s.pc) s.stack.values m.memory m.console :=
  ⟨h.pc_eq, w.capacity_eq ▸ h.bounded, h.sp, h.stack, fun _ _ => rfl, rfl⟩

/-- What a state shows relates it to a state of the stack machine, if the memory and the console that it
shows do. -/
theorem related_of_shows (loaded : Machine.load p m₀ = .ok () vm) (inside : s'.pc ≤ p.code.length)
    (size_eq : s'.memory.size = vm.memory.size)
    (shows : Shows w.area m' (textPlace p.code s'.pc) s'.stack.values memory console)
    (static : ∀ a, a % 4 = 0 → InStatic p vm a → s'.memory[a]? = some (.ofBitVec (memory.word a)))
    (input : console.pending = s'.console.pending ∧ console.inputEnd = s'.console.inputEnd) :
    Related p vm w s' m' where
  inside := inside
  bounded := w.capacity_eq ▸ shows.bounded
  size_eq := size_eq
  pc_eq := shows.pc_eq
  sp := shows.sp
  stack := shows.words
  static a aligned held := by
    rw [w.word_eq aligned (held.lt_size loaded) shows.outside]
    exact static a aligned held
  input := shows.console_eq ▸ input

/-- The texts are in place in what a state shows, and what it shows was printed. -/
theorem printing_of_shows (loaded : Machine.load p m₀ = .ok () vm) {pc : Nat} {values : List Int32}
    (shows : Shows w.area m' pc values memory console)
    (newline : memory (w.address newlineLabel) = 10 ∧ memory (w.address newlineLabel + 1) = 0)
    (literals : ∀ a, InLiteral p vm a → s'.memory[a]? = some (.ofNat (memory a).toNat))
    (output : console.shown = s'.console.printedText) : Printing p vm w s' m' where
  newline := by
    rw [shows.outside _ w.newline_stack.1, shows.outside _ w.newline_stack.2]
    exact newline
  literals a held := by
    rw [shows.outside a (w.apart a (held.lt_size loaded))]
    exact literals a held
  output := shows.console_eq ▸ output

/-! ## Steps that change the stack only -/

/-- A run that changes the stack only matches a step that does the same. -/
theorem Related.matches_quiet (h : Related p vm w s m) (loaded : Machine.load p m₀ = .ok () vm)
    (inside : s'.pc ≤ p.code.length) (same : s'.memory = s.memory) (quiet : s'.console = s.console)
    (leads : f.Leads w.area m (textPlace p.code s'.pc) s'.stack.values m.memory m.console) :
    Matches f p vm w s m i s' := by
  obtain ⟨m', reaches, shows⟩ := leads
  refine ⟨m', reaches, ?_, fun printing _ => ?_⟩
  · refine related_of_shows loaded inside (same ▸ h.size_eq) shows ?_ (quiet ▸ h.input)
    rw [same]
    exact h.static
  · refine printing_of_shows loaded shows printing.newline ?_ (quiet ▸ printing.output)
    rw [same]
    exact printing.literals

/-! ## Stores -/

/-- A run that stores a word matches a step that stores it in a slot. -/
theorem Related.matches_store (h : Related p vm w s m) (loaded : Machine.load p m₀ = .ok () vm)
    {operand : Operand} {address value : Int32} {rest : List Int32}
    (values : s.stack.values = value :: address :: rest) (positive : 0 ≤ address.toInt)
    (below : address.toInt < s.memory.size) (aligned : address.toInt % 4 = 0)
    (inside : s'.pc ≤ p.code.length)
    (stored : s'.memory = s.memory.setIfInBounds address.toInt.toNat value)
    (quiet : s'.console = s.console)
    (leads : f.Leads w.area m (textPlace p.code s'.pc) s'.stack.values
      (m.memory.setWord address.toBitVec.toNat value.toBitVec) m.console) :
    Matches f p vm w s m ⟨.store, operand⟩ s' := by
  rw [toNat_toBitVec_of_nonneg positive] at leads
  have size := h.size_eq
  have word : address.toInt.toNat % 4 = 0 := by omega
  have held : address.toInt.toNat < vm.memory.size := by omega
  obtain ⟨m', reaches, shows⟩ := leads
  refine ⟨m', reaches, ?_, fun printing proper => ?_⟩
  · refine related_of_shows loaded inside (by rw [stored, Array.size_setIfInBounds, size]) shows ?_
      (quiet ▸ h.input)
    intro a multiple inStatic
    rw [stored, Array.getElem?_setIfInBounds]
    -- Both addresses are multiples of four, so the words are the same or apart.
    by_cases here : address.toInt.toNat = a
    · subst here
      rw [if_pos rfl, if_pos (by omega), Memory.word_setWord_self, Int32.ofBitVec_toBitVec]
    · rw [if_neg here, Memory.word_setWord_of_apart _ _ (by omega)]
      exact h.static a multiple inStatic
  · have target : InStatic p vm address.toInt.toNat := proper address (by simp [values])
    have behind := w.le_newline word held
    refine printing_of_shows loaded shows ?_ ?_ (quiet ▸ printing.output)
    · rw [Memory.setWord_of_outside _ _ (.inr behind), Memory.setWord_of_outside _ _ (.inr (by omega))]
      exact printing.newline
    · intro x literal
      have before := literal.lt_static loaded target
      rw [stored, Array.getElem?_setIfInBounds, if_neg (by omega),
        Memory.setWord_of_outside _ _ (.inl before)]
      exact printing.literals x literal

/-! ## Printed texts -/

/-- The texts in the two memories are the same where the bytes are. -/
theorem bytesFrom_eq_bytes {memory : Array Int32} {bytes : Memory} {a z : Nat}
    (same : ∀ x, a ≤ x → x ≤ z → memory[x]? = some (.ofNat (bytes x).toNat))
    (ends : memory[z]? = some 0) (le : a ≤ z) {bound bound' : Nat} (enough : z - a < bound)
    (enough' : z - a < bound') : Machine.bytesFrom memory bound a = bytes.bytes bound' a := by
  induction bound generalizing a bound' with
  | zero => omega
  | succ bound ih =>
    obtain ⟨bound', rfl⟩ : ∃ k, bound' = k + 1 := ⟨bound' - 1, by omega⟩
    have here := same a (Nat.le_refl a) le
    have zero := ofNat_toNat_eq_zero_iff (bytes a)
    rw [Machine.bytesFrom, here, Memory.bytes]
    simp only [zero]
    by_cases last : bytes a = 0
    · rw [if_pos last, if_pos last]
    · rw [if_neg last, if_neg last]
      have more : a ≠ z := by
        rintro rfl
        exact last (zero.1 (Option.some.inj (here.symm.trans ends)))
      have enough'' : z - (a + 1) < bound' := by omega
      rw [ih (fun x lower => same x (by omega)) (by omega) (by omega) enough'', lowByte_ofNat]

/-- A literal is printed as the same text. -/
theorem Printing.text_eq (h : Printing p vm w s m) (loaded : Machine.load p m₀ = .ok () vm)
    (size_eq : s.memory.size = vm.memory.size) {a : Nat} (literal : EndsInLiteral p vm s.memory a) :
    m.memory.text a = Machine.stringAt s.memory a := by
  obtain ⟨z, le, zero, inside⟩ := literal
  have last := (inside z le (Nat.le_refl z)).lt_size loaded
  have fits := w.addressable
  rw [Memory.text, Machine.stringAt]
  rw [bytesFrom_eq_bytes (fun x lower upper => h.literals x (inside x lower upper)) zero le (by omega)
    (show z - a < 4294967296 - a by omega)]

/-- What ends a line is a line feed. -/
theorem Printing.text_newline (h : Printing p vm w s m) {file : File} :
    m.memory.text (file.image w.address).newline = "\n" := by
  have fits := w.newline_fits
  have address : (file.image w.address).newline = w.address newlineLabel := by
    show (BitVec.ofNat 32 (w.address newlineLabel)).toNat = _
    rw [BitVec.toNat_ofNat]
    omega
  obtain ⟨bound, enough⟩ : ∃ k, 4294967296 - w.address newlineLabel = k + 2 :=
    ⟨4294967296 - w.address newlineLabel - 2, by omega⟩
  rw [address, Memory.text, enough, Memory.bytes, Memory.bytes, h.newline.1, h.newline.2,
    if_neg (by decide), if_pos rfl]
  decide

theorem shown_printString (c : Console) (text : String) : (c.printString text).shown = c.shown ++ text := by
  simp [Console.shown, Console.printString, String.join_append]

/-- The stack machine prints every item on a line of its own. -/
theorem printedText_printString (c : Console) (text : String) :
    (c.printString text).printedText = c.printedText ++ (text ++ "\n") := by
  simp [Console.printedText, Console.printString, String.join_append]

/-- A run that prints a text and ends the line matches a step that prints the text. -/
theorem Related.matches_print (h : Related p vm w s m) (loaded : Machine.load p m₀ = .ok () vm)
    {file : File} {text text' : String} (inside : s'.pc ≤ p.code.length) (same : s'.memory = s.memory)
    (printed : s'.console = s.console.printString text)
    (agree : Printing p vm w s m → Proper p vm s i → text' = text)
    (leads : (file.image w.address).Leads w.area m (textPlace p.code s'.pc) s'.stack.values m.memory
      ((m.console.printString text').printString (m.memory.text (file.image w.address).newline))) :
    Matches (file.image w.address) p vm w s m i s' := by
  obtain ⟨m', reaches, shows⟩ := leads
  refine ⟨m', reaches, ?_, fun printing proper => ?_⟩
  · refine related_of_shows loaded inside (same ▸ h.size_eq) shows ?_ ?_
    · rw [same]
      exact h.static
    · rw [printed]
      exact h.input
  · refine printing_of_shows loaded shows printing.newline ?_ ?_
    · rw [same]
      exact printing.literals
    · rw [shown_printString, shown_printString, printing.text_newline, agree printing proper, printed,
        printedText_printString, printing.output, String.append_assoc]

/-! ## Input -/

/-- What is read depends on the lines that wait only. -/
theorem readInt_congr {c c' c₁ : Console} {value : Int32} (read : c.readInt = .ok value c₁)
    (same : c'.pending = c.pending ∧ c'.inputEnd = c.inputEnd) :
    c'.readInt = .ok value { c' with pending := c₁.pending } ∧ c₁ = { c with pending := c₁.pending } := by
  obtain ⟨pending, printed, inputEnd⟩ := c
  obtain ⟨pending', printed', inputEnd'⟩ := c'
  obtain ⟨rfl, rfl⟩ := same
  obtain ⟨line, c₂, taken, read⟩ := bind_eq_ok.1 read
  -- a line is taken, or an empty one is made up
  have first : Console.readLine ⟨pending', printed', inputEnd'⟩ =
        .ok line ⟨c₂.pending, printed', inputEnd'⟩ ∧ c₂ = ⟨c₂.pending, printed, inputEnd'⟩ := by
    cases pending' with
    | cons first rest =>
      cases taken
      exact ⟨rfl, rfl⟩
    | nil =>
      cases inputEnd' with
      | exhausted => cases taken
      | emptyLine =>
        cases taken
        exact ⟨rfl, rfl⟩
  cases found : Console.integerOf line with
  | error fault =>
    rw [found] at read
    cases read
  | ok value' =>
    rw [found] at read
    cases read
    refine ⟨?_, first.2⟩
    refine (bind_of_ok first.1).trans ?_
    rw [found]
    rfl

/-- A run that reads an integer matches a step that reads it. Both have the same lines waiting, before and after. -/
theorem Related.matches_input (h : Related p vm w s m) (loaded : Machine.load p m₀ = .ok () vm)
    {value : Int32} {rest : Console} (inside : s'.pc ≤ p.code.length) (same : s'.memory = s.memory)
    (read : s.console.readInt = .ok value rest) (left : s'.console = rest)
    (leads : f.Leads w.area m (textPlace p.code s'.pc) s'.stack.values m.memory
      { m.console with pending := rest.pending }) :
    Matches f p vm w s m i s' := by
  obtain ⟨m', reaches, shows⟩ := leads
  have kept := (readInt_congr read h.input).2
  have input := h.input.2
  refine ⟨m', reaches, ?_, fun printing _ => ?_⟩
  · refine related_of_shows loaded inside (same ▸ h.size_eq) shows ?_ ?_
    · rw [same]
      exact h.static
    · rw [left, kept]
      exact ⟨rfl, input⟩
  · refine printing_of_shows loaded shows printing.newline ?_ ?_
    · rw [same]
      exact printing.literals
    · rw [left, kept]
      exact printing.output

/-! ## Instructions and their lines -/

/-- Two related machines are at an instruction, whose lines stand where the RV32 machine is. -/
structure AtInstruction (p : Program) (file : File) (vm : Machine) (w : Placement vm) (s : Machine.State)
    (m : State) (i : Instruction) (ls : List Line) : Prop where
  related : Related p vm w s m
  found : p.code[s.pc]? = some i
  at_lines : (file.image w.address).At (textPlace p.code s.pc) (instrs ls)
  next : textPlace p.code (s.pc + 1) = textPlace p.code s.pc + (instrs ls).length

namespace AtInstruction

variable {file : File} {ls : List Line} {operand : Operand} {argument : Int32} {name : String}

/-- There is a place after every instruction, be it the end of the code. -/
theorem inside (h : AtInstruction p file vm w s m i ls) : s.pc + 1 ≤ p.code.length :=
  (List.getElem?_eq_some_iff.1 h.found).1

/-- What the RV32 machine shows when the values on the stack are known. -/
theorem shows (h : AtInstruction p file vm w s m i ls) {values : List Int32}
    (known : s.stack.values = values) :
    Shows w.area m (textPlace p.code s.pc) values m.memory m.console :=
  known ▸ h.related.shows

/-- The run over the lines of an instruction that goes on with the next one matches a step that leaves
the values on the stack. -/
theorem matches_values (h : AtInstruction p file vm w s m i ls) (loaded : Machine.load p m₀ = .ok () vm)
    {values : List Int32}
    (leads : (file.image w.address).Leads w.area m (textPlace p.code s.pc + (instrs ls).length) values
      m.memory m.console) :
    Matches (file.image w.address) p vm w s m i
      (Machine.State.withValues { s with pc := s.pc + 1 } values) :=
  h.related.matches_quiet loaded h.inside rfl rfl (h.next ▸ leads)

/-- Operators that are one instruction on both machines. -/
theorem matches_binary {operation : BinaryOp}
    (h : AtInstruction p file vm w s m i (binaryLines i.op operation []))
    (loaded : Machine.load p m₀ = .ok () vm) (known : binary? i.op = some operation)
    (step : Machine.step vm.capacity ⟨i.op, argument⟩ { s with pc := s.pc + 1 } = .ok () s') :
    Matches (file.image w.address) p vm w s m i s' := by
  obtain ⟨g, applied, result⟩ := apply_of_binary? known
  rw [Machine.step_of_binary? applied] at step
  obtain ⟨a, b, rest, value, values, computed, rfl⟩ := Machine.exists_of_applyBinary step
  exact h.matches_values loaded
    ((h.shows values).leads_binary operation (result a b value computed) h.at_lines)

/-- Comparisons that need one more instruction to make the truth value of what the first one gives. -/
theorem matches_adjusted {operation : BinaryOp} {adjust : Instr}
    (h : AtInstruction p file vm w s m i (binaryLines i.op operation [.instr adjust]))
    (loaded : Machine.load p m₀ = .ok () vm) (known : adjusted? i.op = some (operation, adjust))
    (step : Machine.step vm.capacity ⟨i.op, argument⟩ { s with pc := s.pc + 1 } = .ok () s') :
    Matches (file.image w.address) p vm w s m i s' := by
  obtain ⟨g, change, applied, adjusts, result⟩ := apply_of_adjusted? known
  rw [Machine.step_of_binary? applied] at step
  obtain ⟨a, b, rest, value, values, computed, rfl⟩ := Machine.exists_of_applyBinary step
  exact h.matches_values loaded
    ((h.shows values).leads_adjusted operation (adjusts _) (result a b value computed) h.at_lines)

/-- Operators before their operand. -/
theorem matches_unary {operation : UnaryOp}
    (h : AtInstruction p file vm w s m i (unaryLines i.op operation))
    (loaded : Machine.load p m₀ = .ok () vm) (known : unary? i.op = some operation)
    (step : Machine.step vm.capacity ⟨i.op, argument⟩ { s with pc := s.pc + 1 } = .ok () s') :
    Matches (file.image w.address) p vm w s m i s' := by
  obtain ⟨g, applied, result⟩ := apply_of_unary? known
  rw [Machine.step_of_unary? applied] at step
  obtain ⟨a, rest, values, rfl⟩ := Machine.exists_of_applyUnary step
  exact h.matches_values loaded ((h.shows values).leads_unary operation (result a) h.at_lines)

/-- A push of what an instruction loads into `t0`. -/
theorem matches_push {load : Instr} {comment : Option String}
    (h : AtInstruction p file vm w s m i (.instr load comment :: pushT0))
    (loaded : Machine.load p m₀ = .ok () vm)
    (loads : (file.image w.address).exec load m = .ok (m.write .t0 argument.toBitVec))
    (step : Machine.step vm.capacity ⟨.push, argument⟩ { s with pc := s.pc + 1 } = .ok () s') :
    Matches (file.image w.address) p vm w s m i s' := by
  obtain ⟨room, rfl⟩ := Machine.exists_of_push step
  exact h.matches_values loaded ((h.shows rfl).leads_pushed (w.room room) loads h.at_lines)

/-- A value is dropped by raising `sp`; its word stays below the stack, where nothing reads it. -/
theorem matches_pop
    (h : AtInstruction p file vm w s m ⟨.pop, operand⟩ [.instr (.addi .sp .sp 4) (some "pop")])
    (loaded : Machine.load p m₀ = .ok () vm)
    (step : Machine.step vm.capacity ⟨.pop, argument⟩ { s with pc := s.pc + 1 } = .ok () s') :
    Matches (file.image w.address) p vm w s m ⟨.pop, operand⟩ s' := by
  obtain ⟨value, _, popped, step⟩ := bind_eq_ok.1 step
  cases step
  obtain ⟨rest, values, rfl⟩ := Machine.exists_of_pop popped
  exact h.matches_values loaded ((h.shows values).leads_pop h.at_lines)

/-- The top of the stack is loaded and pushed again. -/
theorem matches_dup
    (h : AtInstruction p file vm w s m ⟨.dup, operand⟩ (.instr (.lw .t0 0 .sp) (some "dup") :: pushT0))
    (loaded : Machine.load p m₀ = .ok () vm)
    (step : Machine.step vm.capacity ⟨.dup, argument⟩ { s with pc := s.pc + 1 } = .ok () s') :
    Matches (file.image w.address) p vm w s m ⟨.dup, operand⟩ s' := by
  obtain ⟨top, rest, values, room, rfl⟩ := Machine.exists_of_duplicate step
  have shows := h.shows values
  have room := w.room room
  rw [values] at room
  exact h.matches_values loaded (shows.leads_pushed room (shows.exec_lw_top .t0) h.at_lines)

/-- A load gives the word of a variable, which is its slot. -/
theorem matches_load
    (h : AtInstruction p file vm w s m ⟨.load, operand⟩ [.instr (.lw .t0 0 .sp) (some "load"),
      .instr (.lw .t1 0 .t0), .instr (.sw .t1 0 .sp)])
    (loaded : Machine.load p m₀ = .ok () vm) (covered : Covered p vm s ⟨.load, operand⟩)
    (step : Machine.step vm.capacity ⟨.load, argument⟩ { s with pc := s.pc + 1 } = .ok () s') :
    Matches (file.image w.address) p vm w s m ⟨.load, operand⟩ s' := by
  obtain ⟨address, rest, values, positive, -, rfl⟩ := Machine.exists_of_loadSlot step
  change s.stack.values = _ at values
  obtain ⟨aligned, held⟩ := covered address (by simp [values])
  have same := toNat_toBitVec_of_nonneg positive
  have word := h.related.static address.toInt.toNat (by omega) held
  have slot : s.memory.getD address.toInt.toNat 0 =
      .ofBitVec (m.memory.word address.toInt.toNat) := by
    rw [Array.getD_eq_getD_getElem?, word]
    rfl
  refine h.matches_values loaded ((h.shows values).leads_load ?_ ?_ h.at_lines)
  · omega
  · rw [same]
    exact (congrArg Int32.toBitVec slot).symm

/-- A store writes the word at an address that is a multiple of four, which is the slot there. -/
theorem matches_store
    (h : AtInstruction p file vm w s m ⟨.store, operand⟩ [.instr (.lw .t0 0 .sp) (some "store"),
      .instr (.lw .t1 4 .sp), .instr (.sw .t0 0 .t1), .instr (.addi .sp .sp 8)])
    (loaded : Machine.load p m₀ = .ok () vm) (covered : Covered p vm s ⟨.store, operand⟩)
    (step : Machine.step vm.capacity ⟨.store, argument⟩ { s with pc := s.pc + 1 } = .ok () s') :
    Matches (file.image w.address) p vm w s m ⟨.store, operand⟩ s' := by
  obtain ⟨value, address, rest, values, positive, below, rfl⟩ := Machine.exists_of_storeSlot step
  change s.stack.values = _ at values
  change address.toInt < s.memory.size at below
  have aligned : address.toInt % 4 = 0 := covered address (by simp [values])
  have same := toNat_toBitVec_of_nonneg positive
  have size := h.related.size_eq
  refine h.related.matches_store loaded values positive below aligned h.inside rfl rfl ?_
  show (file.image w.address).Leads w.area m (textPlace p.code (s.pc + 1)) rest _ _
  rw [h.next]
  refine (h.shows values).leads_store (by omega) (fun x lower upper => ?_) h.at_lines
  exact w.word_apart (a := address.toInt.toNat) (by omega) (by omega) (by omega) (by omega)

/-- An integer is printed by the service for integers, and the line is ended by one for texts. -/
theorem matches_printInt
    (h : AtInstruction p file vm w s m ⟨.printInt, operand⟩ ([.instr (.lw .a0 0 .sp) (some "print_int"),
      .instr (.addi .sp .sp 4), Service.printInt.select, .instr .ecall] ++ endLine))
    (loaded : Machine.load p m₀ = .ok () vm)
    (step : Machine.step vm.capacity ⟨.printInt, argument⟩ { s with pc := s.pc + 1 } = .ok () s') :
    Matches (file.image w.address) p vm w s m ⟨.printInt, operand⟩ s' := by
  obtain ⟨value, rest, values, rfl⟩ := Machine.exists_of_printInt step
  refine h.related.matches_print loaded h.inside rfl rfl (fun _ _ => rfl) ?_
  show (file.image w.address).Leads w.area m (textPlace p.code (s.pc + 1)) rest _ _
  rw [h.next]
  exact (h.shows values).leads_printInt h.at_lines

/-- A text is printed up to its end, which lies in the literal that it starts in. -/
theorem matches_printStr
    (h : AtInstruction p file vm w s m ⟨.printStr, operand⟩ ([Service.printString.select (some "print_str"),
      .instr (.lw .a0 0 .sp), .instr (.addi .sp .sp 4), .instr .ecall] ++ endLine))
    (loaded : Machine.load p m₀ = .ok () vm)
    (step : Machine.step vm.capacity ⟨.printStr, argument⟩ { s with pc := s.pc + 1 } = .ok () s') :
    Matches (file.image w.address) p vm w s m ⟨.printStr, operand⟩ s' := by
  obtain ⟨address, rest, values, positive, -, rfl⟩ := Machine.exists_of_printString step
  change s.stack.values = _ at values
  have same := toNat_toBitVec_of_nonneg positive
  have next : textPlace p.code (s.pc + 1) = textPlace p.code s.pc + 7 := h.next
  have leads := (h.shows values).leads_printStr h.at_lines
  rw [← next] at leads
  refine h.related.matches_print loaded h.inside rfl rfl (fun printing proper => ?_) leads
  rw [same]
  exact printing.text_eq loaded h.related.size_eq (proper address (by simp [values]))

/-- An integer is read by a service, which leaves it in `a0`. -/
theorem matches_inputInt
    (h : AtInstruction p file vm w s m ⟨.inputInt, operand⟩ [Service.readInt.select (some "input_int"),
      .instr .ecall, .instr (.addi .sp .sp (-4)), .instr (.sw .a0 0 .sp)])
    (loaded : Machine.load p m₀ = .ok () vm)
    (step : Machine.step vm.capacity ⟨.inputInt, argument⟩ { s with pc := s.pc + 1 } = .ok () s') :
    Matches (file.image w.address) p vm w s m ⟨.inputInt, operand⟩ s' := by
  obtain ⟨value, console, read, room, rfl⟩ := Machine.exists_of_inputInt step
  refine h.related.matches_input loaded h.inside rfl read rfl ?_
  show (file.image w.address).Leads w.area m (textPlace p.code (s.pc + 1)) (value :: s.stack.values) _ _
  rw [h.next]
  exact (h.shows rfl).leads_inputInt (w.room room) (readInt_congr read h.related.input).1 h.at_lines

/-- A mark is a label, which takes no place among the instructions. -/
theorem matches_mark (h : AtInstruction p file vm w s m (.mark name) [.label name])
    (loaded : Machine.load p m₀ = .ok () vm)
    (step : Machine.step vm.capacity ⟨.label, argument⟩ { s with pc := s.pc + 1 } = .ok () s') :
    Matches (file.image w.address) p vm w s m (.mark name) s' := by
  cases step
  exact h.related.matches_quiet loaded h.inside rfl rfl (h.next ▸ h.related.shows.leads)

/-! ### Jumps -/

/-- A name in a jump marks the same place in the code and among the lines. -/
theorem exists_place (h : AtInstruction p file vm w s m i ls) (assembled : Assembled p file)
    (named : Named p) (loaded : Machine.load p m₀ = .ok () vm) (short : p.code.length ≤ 2147483648)
    (other : i.op ≠ .label) (jump : i.op ≠ .push) (operand : i.operand = .label name) :
    ∃ place, place ≤ p.code.length ∧ vm.jumpTarget? name = some place ∧
      Machine.target (Int32.ofNat place) = place ∧
      (file.image w.address).target? name = some (textPlace p.code place) := by
  obtain ⟨labelled, rfl⟩ := Machine.load_eq_ok_iff.1 loaded
  have mem : i ∈ p.code := List.mem_of_getElem? h.found
  have known : name ∈ marks p.code :=
    (labelled.resolved i mem other name operand).resolve_right fun push => jump push.1
  have mark := assembled.mark_mem named known
  obtain ⟨before, after, split⟩ := List.append_of_mem mark
  have length : before.length < p.code.length := by
    rw [split]
    simp
  have found : (p.machine m₀.capacity).jumpTarget? (Machine.markName (.mark name)) = _ :=
    labelled.jumpTarget?_machine split rfl
  rw [markName_mark (named.instruction mark name rfl)] at found
  exact ⟨before.length, Nat.le_of_lt length, found, Machine.target_ofNat (by omega),
    assembled.target?_mark named labelled split w.address⟩

/-- A jump goes to the line of its label. -/
theorem matches_jump (h : AtInstruction p file vm w s m (.jump name) [.instr (.j name)])
    (assembled : Assembled p file) (named : Named p) (loaded : Machine.load p m₀ = .ok () vm)
    (short : p.code.length ≤ 2147483648)
    (step : Machine.step vm.capacity (vm.loadedInstruction (.jump name)) { s with pc := s.pc + 1 } =
      .ok () s') :
    Matches (file.image w.address) p vm w s m (.jump name) s' := by
  obtain ⟨place, inside, found, kept, target⟩ :=
    h.exists_place assembled named loaded short nofun nofun rfl
  rw [Machine.loadedInstruction_jump found] at step
  cases step
  refine h.related.matches_quiet loaded (Nat.le_trans (Nat.le_of_eq kept) inside) rfl rfl ?_
  show (file.image w.address).Leads w.area m (textPlace p.code (Machine.target (.ofNat place))) _ _ _
  rw [kept]
  exact h.related.shows.leads_jump target h.at_lines

/-- A branch goes on at the place of its label or after it, on both machines. -/
theorem matches_branch {branch : Instr} {condition : Int32 → Bool} {place : Nat}
    (h : AtInstruction p file vm w s m i (branchLines i.op branch))
    (loaded : Machine.load p m₀ = .ok () vm) (inside : place ≤ p.code.length)
    (kept : Machine.target (Int32.ofNat place) = place)
    (leads : ∀ value rest, s.stack.values = value :: rest →
      (file.image w.address).Leads w.area m (if condition value then textPlace p.code place
        else textPlace p.code s.pc + 3) rest m.memory m.console)
    (step : Machine.branch condition (Int32.ofNat place) { s with pc := s.pc + 1 } = .ok () s') :
    Matches (file.image w.address) p vm w s m i s' := by
  obtain ⟨value, rest, values, rfl⟩ := Machine.exists_of_branch step
  have next : textPlace p.code (s.pc + 1) = textPlace p.code s.pc + 3 := h.next
  have led := leads value rest values
  have after := h.inside
  refine h.related.matches_quiet loaded ?_ rfl rfl ?_
  · show (if condition value then Machine.target (.ofNat place) else s.pc + 1) ≤ _
    rw [kept]
    split
    · exact inside
    · exact after
  · show (file.image w.address).Leads w.area m
      (textPlace p.code (if condition value then Machine.target (.ofNat place) else s.pc + 1)) rest _ _
    rw [kept]
    by_cases taken : condition value
    · rwa [if_pos taken] at led ⊢
    · rw [if_neg taken] at led ⊢
      rwa [next]

/-- Every instruction is matched by its lines. -/
theorem matches_step (h : AtInstruction p file vm w s m i ls) (shape : Template i ls)
    (assembled : Assembled p file) (named : Named p) (loaded : Machine.load p m₀ = .ok () vm)
    (short : p.code.length ≤ 2147483648) (covered : Covered p vm s i)
    (step : Machine.step vm.capacity (vm.loadedInstruction i) { s with pc := s.pc + 1 } = .ok () s') :
    Matches (file.image w.address) p vm w s m i s' := by
  cases shape with
  | binary known => exact h.matches_binary loaded known step
  | adjusted known => exact h.matches_adjusted loaded known step
  | unary known => exact h.matches_unary loaded known step
  | pushInt value => exact h.matches_push loaded rfl step
  | pushLabel name =>
    obtain ⟨labelled, rfl⟩ := Machine.load_eq_ok_iff.1 loaded
    obtain ⟨b, mem, rfl⟩ := List.mem_map.1 (show name ∈ p.dataLabels from covered)
    obtain ⟨offset, found, -, -⟩ := labelled.exists_dataOffset? m₀.capacity mem
    rw [Machine.loadedInstruction_pushLabel found] at step
    refine h.matches_push loaded ?_ step
    show Except.ok (m.write .t0 (BitVec.ofNat 32 (w.address b.label))) = _
    rw [w.data _ _ found]
    rfl
  | pop operand => exact h.matches_pop loaded step
  | dup operand => exact h.matches_dup loaded step
  | load operand => exact h.matches_load loaded covered step
  | store operand => exact h.matches_store loaded covered step
  | mark name => exact h.matches_mark loaded step
  | jump name => exact h.matches_jump assembled named loaded short step
  | branchIfZero name =>
    obtain ⟨place, inside, found, kept, target⟩ :=
      h.exists_place assembled named loaded short nofun nofun rfl
    rw [Machine.loadedInstruction_branchIfZero found] at step
    refine h.matches_branch loaded inside kept (fun value rest values => ?_) step
    simpa using (h.shows values).leads_beqz target h.at_lines
  | branchIfNotZero name =>
    obtain ⟨place, inside, found, kept, target⟩ :=
      h.exists_place assembled named loaded short nofun nofun rfl
    rw [Machine.loadedInstruction_branchIfNotZero found] at step
    refine h.matches_branch loaded inside kept (fun value rest values => ?_) step
    simpa using (h.shows values).leads_bnez target h.at_lines
  | printInt operand => exact h.matches_printInt loaded step
  | printStr operand => exact h.matches_printStr loaded step
  | inputInt operand => exact h.matches_inputInt loaded step

end AtInstruction

end MiniC.Rv32

namespace MiniC

open Rv32

/-- The assembly of a program does what its code does. Let the names in a program be identifiers that no
file defines for itself, and let the program load and have an assembly. The text can then be read, and
from every pair of related states, with data placed as in the stack machine and a stack apart from it:
a step that does not fault is matched by a run over the lines of its instruction, after which the states
are related again and, if the instruction is proper, the same was printed; and where the code ends, the
program exits. The bound is that within which every place in the code fits into an argument. -/
theorem Program.assembly_simulates {p : Program} {m₀ vm : Machine} {text : String} (named : Named p)
    (short : p.code.length ≤ 2147483648) (loaded : Machine.load p m₀ = .ok () vm)
    (assembled : p.assembly = .ok text) :
    ∃ file, File.read text = some file ∧ ∀ (w : Rv32.Placement vm) (s : Machine.State) (m : Rv32.State),
      Related p vm w s m →
        (∀ i loadedI s', p.code[s.pc]? = some i → vm.code[s.pc]? = some loadedI →
          Machine.step vm.capacity loadedI { s with pc := s.pc + 1 } = .ok () s' → Covered p vm s i →
          ∃ m', (file.image w.address).Reaches m m' ∧ Related p vm w s' m' ∧
            (Printing p vm w s m → Proper p vm s i → Printing p vm w s' m')) ∧
        (vm.code[s.pc]? = none → ∃ m', (file.image w.address).Reaches m m' ∧
          (file.image w.address).step m' = .error .exit ∧ m'.console = m.console) := by
  obtain ⟨file, made, written⟩ := except_bind_eq_ok.1 assembled
  cases written
  have whole := assembled_of_ok made
  obtain ⟨labelled, rfl⟩ := Machine.load_eq_ok_iff.1 loaded
  refine ⟨file.plain, whole.read_text named labelled, fun w s m related => ?_⟩
  rw [File.image_plain]
  refine ⟨fun i loadedI s' found held step covered => ?_, fun ended => ?_⟩
  · rw [p.getElem?_code_machine, found] at held
    cases held
    obtain ⟨lt, rfl⟩ := List.getElem?_eq_some_iff.1 found
    have split : p.code = p.code.take s.pc ++ p.code[s.pc] :: p.code.drop (s.pc + 1) := by
      rw [← List.drop_eq_getElem_cons lt, List.take_append_drop]
    have at_lines := whole.at_template split w.address
    rw [List.length_take_of_le (Nat.le_of_lt lt)] at at_lines
    have here : AtInstruction p file _ w s m p.code[s.pc] (template p.code[s.pc]) :=
      ⟨related, found, at_lines, textPlace_succ found⟩
    exact here.matches_step (whole.each _ (List.getElem_mem lt)) whole named loaded short covered step
  · rw [p.getElem?_code_machine, Option.map_eq_none_iff, List.getElem?_eq_none_iff] at ended
    have inside := related.inside
    -- Related states are not past the end of the code.
    have last : s.pc = p.code.length := by omega
    have shows := related.shows
    rw [last] at shows
    exact shows.exits (whole.at_exit w.address)

/-! ## A program that stores -/

namespace Rv32.Store

/-- A program that stores seven in a variable. -/
def program : Program :=
  { code := [.pushLabel "x", .pushInt 7, ⟨.store, .none⟩]
    static := Catalogue.empty.insert "x" ⟨4, 4⟩ }

/-- There is one variable, at the start of memory. -/
theorem data_eq {label : String} {offset : Nat} :
    (program.machine 1024).dataOffset? label = some offset ↔ label = "x" ∧ offset = 0 := by
  have entries : (program.machine 1024).dataLabels.entries = [("x", 0)] := rfl
  rw [Machine.dataOffset?, Catalogue.find?_eq_some_iff, entries, List.mem_singleton, Prod.mk.injEq]

/-- The variable lies at the start of memory, and the stack below 2¹⁶. -/
def placement : Rv32.Placement (program.machine 1024) where
  address label := if label = "x" then 0 else 4096
  area := ⟨65536, 1024, by decide, by decide, by decide⟩
  capacity_eq := rfl
  data label offset found := by
    obtain ⟨rfl, rfl⟩ := data_eq.1 found
    rfl
  addressable := by decide
  apart a lt inside := by
    have small : a < 4 := lt
    have large : 65536 ≤ a + 4 * 1024 := inside.1
    omega
  newline_fits := by decide
  newline_data := by decide
  newline_stack := by
    unfold Area.Contains
    decide

/-- The stack machine when seven and the address of the variable are on the stack. -/
def before : Machine.State :=
  { pc := 2, stack := .ofValues [7, 0], memory := #[0, 0, 0, 0], console := {} }

/-- The stack machine when seven was stored. -/
def after : Machine.State :=
  { pc := 3, stack := .ofValues [], memory := #[7, 0, 0, 0], console := {} }

/-- An RV32 machine at the same point. -/
def state : Rv32.State where
  pc := 6
  regs r := if r = .sp then 65528 else 0
  memory := Memory.setWord (fun _ => 0) 65528 7
  console := {}

/-- The variable has four bytes. -/
theorem inStatic_iff {a : Nat} : InStatic program (program.machine 1024) a ↔ a < 4 := by
  have entries : program.static.entries = [("x", ⟨4, 4⟩)] := rfl
  simp only [InStatic, InBlock, entries, List.mem_singleton, exists_eq_left, data_eq]
  simp

/-- The two machines are at the same point before the store. -/
theorem related : Related program (program.machine 1024) placement before state := by
  refine ⟨by decide, by decide, rfl, rfl, by decide, ⟨by decide, by decide, trivial⟩, ?_, rfl, rfl⟩
  intro a aligned held
  obtain rfl : a = 0 := by
    have small := inStatic_iff.1 held
    omega
  decide

end Rv32.Store

/-- Seven is stored in a variable: the RV32 machine then has it in the word of the variable. -/
theorem Program.assembly_simulates_store :
    ∃ (text : String) (file : File) (m' : Rv32.State), Named Store.program ∧
      Store.program.code.length ≤ 2147483648 ∧
      Machine.load Store.program {} = .ok () (Store.program.machine 1024) ∧
      Store.program.assembly = .ok text ∧ File.read text = some file ∧
      Related Store.program (Store.program.machine 1024) Store.placement Store.before Store.state ∧
      Machine.step 1024 ⟨.store, 0⟩ { Store.before with pc := 3 } = .ok () Store.after ∧
      (file.image Store.placement.address).Reaches Store.state m' ∧
      Related Store.program (Store.program.machine 1024) Store.placement Store.after m' ∧
      m'.memory.word 0 = 7 := by
  have named : Named Store.program := by
    unfold Named
    decide
  obtain ⟨file, read, simulates⟩ := Program.assembly_simulates named (by decide)
    (show Machine.load Store.program {} = .ok () (Store.program.machine 1024) from rfl) rfl
  have covered : Covered Store.program (Store.program.machine 1024) Store.before ⟨.store, .none⟩ := by
    rintro a ⟨⟩
    rfl
  obtain ⟨m', reaches, related, -⟩ :=
    (simulates Store.placement Store.before Store.state Store.related).1 ⟨.store, .none⟩ ⟨.store, 0⟩
      Store.after rfl rfl rfl covered
  refine ⟨_, file, m', named, by decide, rfl, rfl, read, Store.related, rfl, reaches, related, ?_⟩
  have word := related.static 0 rfl (Store.inStatic_iff.2 (by decide))
  exact (congrArg Int32.toBitVec (Option.some.inj word)).symm

end MiniC
