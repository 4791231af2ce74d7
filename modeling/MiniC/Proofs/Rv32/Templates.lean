import MiniC.Proofs.Rv32.Execution

/-!
# The stack in memory

The values of the stack machine lie in memory as words, the top at `sp`. `Shows` is a machine as the stack
machine knows it: a place, the values on the stack, the memory outside the area of the stack, and the
console. What the scratch registers hold is left open.

Every sequence of instructions that an opcode becomes leads from what a machine shows to what it shows
next. The sequences are made of few parts: a value is looked at, taken off, replaced or put on top, and each
part has a lemma of its own.
-/

namespace MiniC.Rv32

namespace Memory

/-- Words lie in a row from an address on. -/
def Words (m : Memory) : (a : Nat) → List Int32 → Prop
  | _, [] => True
  | a, value :: rest => m.word a = value.toBitVec ∧ m.Words (a + 4) rest

/-- Words stay where nothing changes. -/
theorem Words.congr {m m' : Memory} {a : Nat} {values : List Int32} (h : m.Words a values)
    (same : ∀ x, a ≤ x → x < a + 4 * values.length → m' x = m x) : m'.Words a values := by
  induction values generalizing a with
  | nil => trivial
  | cons value rest ih =>
    simp only [List.length_cons] at same
    refine ⟨(word_congr fun x lower upper => same x lower (by omega)).trans h.1, ?_⟩
    exact ih h.2 fun x lower upper => same x (by omega) (by omega)

/-- Behind so many words the others lie. -/
theorem Words.drop {m : Memory} {a : Nat} {values : List Int32} (h : m.Words a values) (count : Nat) :
    m.Words (a + 4 * count) (values.drop count) := by
  induction count generalizing a values with
  | zero => exact h
  | succ count ih =>
    cases values with
    | nil => trivial
    | cons value rest =>
      rw [show a + 4 * (count + 1) = a + 4 + 4 * count by omega]
      exact ih h.2

end Memory

/-- The part of memory that is set aside for the stack, which grows down from the top of it. -/
structure Area where
  top : Nat
  /-- The number of values that there is room for. -/
  capacity : Nat
  aligned : top % 4 = 0
  room : 4 * capacity ≤ top
  fits : top < 4294967296

/-- An address lies in an area. -/
def Area.Contains (area : Area) (x : Nat) : Prop :=
  area.top ≤ x + 4 * area.capacity ∧ x < area.top

/-- A machine as the stack machine knows it. -/
structure Shows (area : Area) (m : State) (pc : Nat) (values : List Int32) (memory : Memory)
    (console : Console) : Prop where
  pc_eq : m.pc = pc
  bounded : values.length ≤ area.capacity
  sp : (m.regs .sp).toNat + 4 * values.length = area.top
  words : m.memory.Words (m.regs .sp).toNat values
  outside : ∀ x, ¬ area.Contains x → m.memory x = memory x
  console_eq : m.console = console

/-- A machine comes to show something. -/
def Image.Leads (f : Image) (area : Area) (m : State) (pc : Nat) (values : List Int32) (memory : Memory)
    (console : Console) : Prop :=
  ∃ m', f.Reaches m m' ∧ Shows area m' pc values memory console

variable {f : Image} {area : Area} {m m' : State} {pc pc' : Nat} {value a b : Int32}
  {values values' : List Int32} {memory memory' : Memory} {console console' : Console} {i : Instr}
  {code code' : List Instr}

/-- The address of the text that ends a line. -/
def Image.newline (f : Image) : Nat :=
  (BitVec.ofNat 32 (f.address newlineLabel)).toNat

/-- A branch compares registers with the zero of bit vectors, and the machine with that of words. -/
theorem toBitVec_eq_zero_iff (n : Int32) : n.toBitVec = 0 ↔ n = 0 :=
  Int32.toBitVec_inj (b := 0)

/-- The environment tells services by the numbers that the lines select. -/
theorem ofWord?_number (service : Service) : Service.ofWord? service.number.toBitVec = some service := by
  cases service <;> decide

namespace Shows

/-- A machine shows what it shows without a step. -/
theorem leads (h : Shows area m pc values memory console) : f.Leads area m pc values memory console :=
  ⟨m, .refl m, h⟩

/-- The instruction at the place that is shown is executed. -/
theorem exec (h : Shows area m pc values memory console) (at_ : f.At pc (i :: code))
    (ran : f.exec i m = .ok m') (rest : f.Leads area m' pc' values' memory' console') :
    f.Leads area m pc' values' memory' console' := by
  obtain ⟨last, reaches, shows⟩ := rest
  exact ⟨last, .exec (h.pc_eq.symm ▸ at_) ran reaches, shows⟩

/-- A scratch register may hold anything. -/
theorem write (h : Shows area m pc values memory console) {r : Reg} (scratch : r ≠ .sp) (w : Word) :
    Shows area (m.write r w) (pc + 1) values memory console := by
  have sp : (m.write r w).regs .sp = m.regs .sp := m.regs_write_of_ne (Ne.symm scratch) w
  refine ⟨congrArg (· + 1) h.pc_eq, h.bounded, ?_, ?_, h.outside, h.console_eq⟩
  · rw [sp]
    exact h.sp
  · rw [sp]
    exact h.words

/-- The console changes, and what is in memory stays. -/
theorem talk (h : Shows area m pc values memory console) (console' : Console) :
    Shows area (m.talk console') (pc + 1) values memory console' :=
  ⟨congrArg (· + 1) h.pc_eq, h.bounded, h.sp, h.words, h.outside, rfl⟩

/-- To go elsewhere changes nothing but the place. -/
theorem goTo (h : Shows area m pc values memory console) (place : Nat) :
    Shows area { m with pc := place } place values memory console :=
  ⟨rfl, h.bounded, h.sp, h.words, h.outside, h.console_eq⟩

/-- The address of the value on top. -/
theorem effective_top (h : Shows area m pc values memory console) :
    m.effective 0 .sp = (m.regs .sp).toNat ∧ m.effective 0 .sp % 4 = 0 := by
  have same : m.effective 0 .sp = (m.regs .sp).toNat := by simp [State.effective]
  have sp := h.sp
  have aligned := area.aligned
  exact ⟨same, by omega⟩

/-- The value on top is loaded. -/
theorem exec_lw_top (h : Shows area m pc (value :: values) memory console) (rd : Reg) :
    f.exec (.lw rd 0 .sp) m = .ok (m.write rd value.toBitVec) := by
  obtain ⟨same, aligned⟩ := h.effective_top
  simp only [Image.exec]
  rw [if_pos aligned, same, h.words.1]

/-- The value below the top is loaded. -/
theorem exec_lw_second (h : Shows area m pc (b :: a :: values) memory console) (rd : Reg) :
    f.exec (.lw rd 4 .sp) m = .ok (m.write rd a.toBitVec) := by
  have sp := h.sp
  have aligned := area.aligned
  have fits := area.fits
  simp only [List.length_cons] at sp
  have same : m.effective 4 .sp = (m.regs .sp).toNat + 4 := by
    show (m.regs .sp + 4#32).toNat = _
    rw [BitVec.toNat_add_of_lt (by simp; omega)]
    rfl
  simp only [Image.exec]
  rw [if_pos (by omega), same, h.words.2.1]

/-- Values are taken off, four bytes each. -/
theorem drop (h : Shows area m pc values memory console) (count : Nat) {offset : Int}
    (four : offset = (4 * count : Nat)) (le : count ≤ values.length) :
    Shows area (m.write .sp (m.regs .sp + BitVec.ofInt 32 offset)) (pc + 1) (values.drop count) memory
      console := by
  have sp := h.sp
  have bounded := h.bounded
  have fits := area.fits
  have moved : ((m.write .sp (m.regs .sp + BitVec.ofInt 32 offset)).regs .sp).toNat =
      (m.regs .sp).toNat + 4 * count := by
    rw [State.regs_write_self, four, BitVec.ofInt_natCast, BitVec.toNat_add, BitVec.toNat_ofNat]
    omega
  refine ⟨congrArg (· + 1) h.pc_eq, ?_, ?_, ?_, h.outside, h.console_eq⟩
  · rw [List.length_drop]
    omega
  · rw [moved, List.length_drop]
    omega
  · rw [moved]
    exact h.words.drop count

/-- Room for a value is made on top. -/
theorem reserve (h : Shows area m pc values memory console) (room : values.length < area.capacity) :
    ∃ junk, Shows area (m.write .sp (m.regs .sp + BitVec.ofInt 32 (-4))) (pc + 1) (junk :: values) memory
      console := by
  have sp := h.sp
  have enough := area.room
  have fits := area.fits
  have moved : ((m.write .sp (m.regs .sp + BitVec.ofInt 32 (-4))).regs .sp).toNat + 4 =
      (m.regs .sp).toNat := by
    rw [State.regs_write_self, show BitVec.ofInt 32 (-4) = 4294967292#32 from rfl, BitVec.toNat_add,
      BitVec.toNat_ofNat]
    omega
  -- whatever lies in the new place is the new value on top
  refine ⟨.ofBitVec (m.memory.word ((m.write .sp (m.regs .sp + BitVec.ofInt 32 (-4))).regs .sp).toNat),
    congrArg (· + 1) h.pc_eq, ?_, ?_, ⟨rfl, ?_⟩, h.outside, h.console_eq⟩
  · exact room
  · rw [List.length_cons]
    omega
  · rw [moved]
    exact h.words

/-- The value on top is replaced. -/
theorem overwrite (h : Shows area m pc (value :: values) memory console) (new : Int32) :
    Shows area (m.store (m.regs .sp).toNat new.toBitVec) (pc + 1) (new :: values) memory console := by
  have sp := h.sp
  have bounded := h.bounded
  simp only [List.length_cons] at sp bounded
  refine ⟨congrArg (· + 1) h.pc_eq, h.bounded, h.sp, ⟨?_, ?_⟩, ?_, h.console_eq⟩
  · exact Memory.word_setWord_self _ _ _
  · apply h.words.2.congr
    intro x lower _
    exact Memory.setWord_of_outside _ _ (.inr lower)
  · intro x apart
    rw [← h.outside x apart]
    apply Memory.setWord_of_outside
    unfold Area.Contains at apart
    omega

/-- A word is stored outside the area of the stack. -/
theorem store (h : Shows area m pc values memory console) {x : Nat} (w : Word)
    (apart : ∀ y, x ≤ y → y < x + 4 → ¬ area.Contains y) :
    Shows area (m.store x w) (pc + 1) values (memory.setWord x w) console := by
  have sp := h.sp
  have bounded := h.bounded
  refine ⟨congrArg (· + 1) h.pc_eq, h.bounded, h.sp, ?_, ?_, h.console_eq⟩
  · apply h.words.congr
    intro y lower upper
    apply Memory.setWord_of_outside
    have inside : area.Contains y := ⟨by omega, by omega⟩
    by_cases low : y < x
    · exact .inl low
    · by_cases high : y < x + 4
      · exact absurd inside (apart y (by omega) high)
      · exact .inr (by omega)
  · intro y outside
    show m.memory.setWord x w y = memory.setWord x w y
    unfold Memory.setWord
    rw [h.outside y outside]

/-! ## Parts of sequences -/

/-- A register replaces the value on top. -/
theorem leads_overwrite (h : Shows area m pc (a :: values) memory console) {r : Reg}
    (holds : m.regs r = value.toBitVec) (at_ : f.At pc [.sw r 0 .sp]) :
    f.Leads area m (pc + 1) (value :: values) memory console := by
  obtain ⟨same, aligned⟩ := h.effective_top
  apply h.exec at_
  · simp only [Image.exec]
    rw [if_pos aligned, same, holds]
  · exact (h.overwrite value).leads

/-- A register is pushed. -/
theorem leads_push (h : Shows area m pc values memory console) (room : values.length < area.capacity)
    {r : Reg} (scratch : r ≠ .sp) (holds : m.regs r = value.toBitVec)
    (at_ : f.At pc [.addi .sp .sp (-4), .sw r 0 .sp]) :
    f.Leads area m (pc + 2) (value :: values) memory console := by
  obtain ⟨junk, reserved⟩ := h.reserve room
  apply h.exec at_ rfl
  exact reserved.leads_overwrite ((m.regs_write_of_ne scratch _).trans holds) at_.tail

/-- The value on top is taken off, and a register replaces the one below it. -/
theorem leads_replace (h : Shows area m pc (b :: a :: values) memory console)
    (holds : m.regs .t0 = value.toBitVec) (at_ : f.At pc [.addi .sp .sp 4, .sw .t0 0 .sp]) :
    f.Leads area m (pc + 2) (value :: values) memory console := by
  have dropped := h.drop 1 (show (4 : Int) = _ from rfl) (by simp)
  apply h.exec at_ rfl
  exact dropped.leads_overwrite ((m.regs_write_of_ne (by decide) _).trans holds) at_.tail

/-- The two values on top are combined in `t0`. -/
theorem leads_combine (h : Shows area m pc (b :: a :: values) memory console) (op : BinaryOp)
    (at_ : f.At pc (.lw .t0 0 .sp :: .lw .t1 4 .sp :: .binary op .t0 .t1 .t0 :: code))
    (next : ∀ m', Shows area m' (pc + 3) (b :: a :: values) memory console →
      m'.regs .t0 = op.apply a.toBitVec b.toBitVec → f.Leads area m' pc' values' memory' console') :
    f.Leads area m pc' values' memory' console' := by
  have right := h.write (show Reg.t0 ≠ .sp by decide) b.toBitVec
  have left := right.write (show Reg.t1 ≠ .sp by decide) a.toBitVec
  apply h.exec at_ (h.exec_lw_top .t0)
  apply right.exec at_.tail (right.exec_lw_second .t1)
  apply left.exec at_.tail.tail rfl
  apply next _ (left.write (by decide) _)
  rw [State.regs_write_self, State.regs_write_self, State.regs_write_of_ne _ (by decide),
    State.regs_write_self]

/-! ## Sequences -/

/-- An operation on the two values on top. -/
theorem leads_binary (h : Shows area m pc (b :: a :: values) memory console) (op : BinaryOp)
    (result : op.apply a.toBitVec b.toBitVec = value.toBitVec)
    (at_ : f.At pc [.lw .t0 0 .sp, .lw .t1 4 .sp, .binary op .t0 .t1 .t0, .addi .sp .sp 4,
      .sw .t0 0 .sp]) :
    f.Leads area m (pc + 5) (value :: values) memory console := by
  apply h.leads_combine op at_
  intro m' h' holds
  exact h'.leads_replace (holds.trans result) at_.tail.tail.tail

/-- An operation on the two values on top, whose result is adjusted. -/
theorem leads_adjusted (h : Shows area m pc (b :: a :: values) memory console) (op : BinaryOp)
    {adjust : Word → Word} (adjusts : ∀ m, f.exec i m = .ok (m.write .t0 (adjust (m.regs .t0))))
    (result : adjust (op.apply a.toBitVec b.toBitVec) = value.toBitVec)
    (at_ : f.At pc [.lw .t0 0 .sp, .lw .t1 4 .sp, .binary op .t0 .t1 .t0, i, .addi .sp .sp 4,
      .sw .t0 0 .sp]) :
    f.Leads area m (pc + 6) (value :: values) memory console := by
  apply h.leads_combine op at_
  intro m' h' holds
  have at₃ := at_.tail.tail.tail
  apply h'.exec at₃ (adjusts m')
  apply (h'.write (by decide) _).leads_replace _ at₃.tail
  rw [State.regs_write_self, holds, result]

/-- An operation on the value on top. -/
theorem leads_unary (h : Shows area m pc (a :: values) memory console) (op : UnaryOp)
    (result : op.apply a.toBitVec = value.toBitVec)
    (at_ : f.At pc [.lw .t0 0 .sp, .unary op .t0 .t0, .sw .t0 0 .sp]) :
    f.Leads area m (pc + 3) (value :: values) memory console := by
  have loaded := h.write (show Reg.t0 ≠ .sp by decide) a.toBitVec
  apply h.exec at_ (h.exec_lw_top .t0)
  apply loaded.exec at_.tail rfl
  apply (loaded.write (by decide) _).leads_overwrite _ at_.tail.tail
  rw [State.regs_write_self, State.regs_write_self, result]

/-- A value is pushed that an instruction loads. -/
theorem leads_pushed (h : Shows area m pc values memory console) (room : values.length < area.capacity)
    (loads : f.exec i m = .ok (m.write .t0 value.toBitVec))
    (at_ : f.At pc [i, .addi .sp .sp (-4), .sw .t0 0 .sp]) :
    f.Leads area m (pc + 3) (value :: values) memory console := by
  apply h.exec at_ loads
  exact (h.write (by decide) _).leads_push room (by decide) (State.regs_write_self _ _ _) at_.tail

/-- The value on top is taken off. -/
theorem leads_pop (h : Shows area m pc (value :: values) memory console)
    (at_ : f.At pc [.addi .sp .sp 4]) : f.Leads area m (pc + 1) values memory console := by
  apply h.exec at_ rfl
  exact (h.drop 1 rfl (by simp)).leads

/-- The address on top is replaced by the word there. -/
theorem leads_load (h : Shows area m pc (a :: values) memory console)
    (aligned : a.toBitVec.toNat % 4 = 0) (found : m.memory.word a.toBitVec.toNat = value.toBitVec)
    (at_ : f.At pc [.lw .t0 0 .sp, .lw .t1 0 .t0, .sw .t1 0 .sp]) :
    f.Leads area m (pc + 3) (value :: values) memory console := by
  have loaded := h.write (show Reg.t0 ≠ .sp by decide) a.toBitVec
  have address : (m.write .t0 a.toBitVec).effective 0 .t0 = a.toBitVec.toNat := by
    simp [State.effective, State.regs_write_self]
  apply h.exec at_ (h.exec_lw_top .t0)
  apply loaded.exec at_.tail
  · simp only [Image.exec]
    rw [address, if_pos aligned]
  · exact (loaded.write (by decide) _).leads_overwrite ((State.regs_write_self _ _ _).trans found)
      at_.tail.tail

/-- The value on top is stored at the address below it. -/
theorem leads_store (h : Shows area m pc (value :: a :: values) memory console)
    (aligned : a.toBitVec.toNat % 4 = 0)
    (apart : ∀ x, a.toBitVec.toNat ≤ x → x < a.toBitVec.toNat + 4 → ¬ area.Contains x)
    (at_ : f.At pc [.lw .t0 0 .sp, .lw .t1 4 .sp, .sw .t0 0 .t1, .addi .sp .sp 8]) :
    f.Leads area m (pc + 4) values (memory.setWord a.toBitVec.toNat value.toBitVec) console := by
  have right := h.write (show Reg.t0 ≠ .sp by decide) value.toBitVec
  have left := right.write (show Reg.t1 ≠ .sp by decide) a.toBitVec
  have address : ((m.write .t0 value.toBitVec).write .t1 a.toBitVec).effective 0 .t1 =
      a.toBitVec.toNat := by
    simp [State.effective, State.regs_write_self]
  have holds : ((m.write .t0 value.toBitVec).write .t1 a.toBitVec).regs .t0 = value.toBitVec :=
    (State.regs_write_of_ne _ (by decide) _).trans (m.regs_write_self _ _)
  have stored := left.store value.toBitVec apart
  apply h.exec at_ (h.exec_lw_top .t0)
  apply right.exec at_.tail (right.exec_lw_second .t1)
  apply left.exec at_.tail.tail
  · simp only [Image.exec]
    rw [address, if_pos aligned, holds]
  · apply stored.exec at_.tail.tail.tail rfl
    exact (stored.drop 2 (show (8 : Int) = _ from rfl) (by simp)).leads

/-! ## Jumps -/

/-- A jump goes to the place of its label. -/
theorem leads_jump (h : Shows area m pc values memory console) {label : String} {place : Nat}
    (target : f.target? label = some place) (at_ : f.At pc [.j label]) :
    f.Leads area m place values memory console := by
  have jumps : f.exec (.j label) m = .ok { m with pc := place } := by
    simp only [Image.exec, Image.jump, target]
  exact h.exec at_ jumps (h.goTo place).leads

/-- A branch that looks at the value on top and takes it off. -/
theorem leads_branch (h : Shows area m pc (value :: values) memory console) {taken : Prop}
    [Decidable taken] {place : Nat}
    (branches : ∀ m, m.regs .t0 = value.toBitVec →
      f.exec i m = .ok { m with pc := if taken then place else m.pc + 1 })
    (at_ : f.At pc [.lw .t0 0 .sp, .addi .sp .sp 4, i]) :
    f.Leads area m (if taken then place else pc + 3) values memory console := by
  have loaded := h.write (show Reg.t0 ≠ .sp by decide) value.toBitVec
  have dropped := loaded.drop 1 (show (4 : Int) = _ from rfl) (by simp)
  apply h.exec at_ (h.exec_lw_top .t0)
  apply loaded.exec at_.tail rfl
  apply dropped.exec at_.tail.tail
  · apply branches
    rw [State.regs_write_of_ne _ (by decide), State.regs_write_self]
  · rw [dropped.pc_eq]
    exact (dropped.goTo _).leads

/-- A branch on zero. -/
theorem leads_beqz (h : Shows area m pc (value :: values) memory console) {label : String} {place : Nat}
    (target : f.target? label = some place)
    (at_ : f.At pc [.lw .t0 0 .sp, .addi .sp .sp 4, .beqz .t0 label]) :
    f.Leads area m (if value = 0 then place else pc + 3) values memory console := by
  apply h.leads_branch _ at_
  intro m holds
  simp only [Image.exec, Image.jump, target, holds, toBitVec_eq_zero_iff]
  split
  · rfl
  · rfl

/-- A branch on every other value. -/
theorem leads_bnez (h : Shows area m pc (value :: values) memory console) {label : String} {place : Nat}
    (target : f.target? label = some place)
    (at_ : f.At pc [.lw .t0 0 .sp, .addi .sp .sp 4, .bnez .t0 label]) :
    f.Leads area m (if value ≠ 0 then place else pc + 3) values memory console := by
  apply h.leads_branch _ at_
  intro m holds
  simp only [Image.exec, Image.jump, target, holds, toBitVec_eq_zero_iff, ne_eq, ite_not]
  split
  · rfl
  · rfl

/-! ## Calls of the environment -/

/-- The service for integers prints what is in `a0`. -/
theorem exec_printInt (h : Shows area m pc values memory console)
    (service : m.regs .a7 = Service.printInt.number.toBitVec) (holds : m.regs .a0 = value.toBitVec) :
    f.exec .ecall m = .ok (m.talk (console.printInt value)) := by
  simp only [Image.exec, State.call, service, holds, ofWord?_number, h.console_eq,
    Int32.ofBitVec_toBitVec]

/-- The service for texts prints the text at the address in `a0`. -/
theorem exec_printString (h : Shows area m pc values memory console)
    (service : m.regs .a7 = Service.printString.number.toBitVec) {w : Word} (holds : m.regs .a0 = w) :
    f.exec .ecall m = .ok (m.talk (console.printString (m.memory.text w.toNat))) := by
  simp only [Image.exec, State.call, service, holds, ofWord?_number, h.console_eq]

/-- The text that ends a line is printed. -/
theorem leads_endLine (h : Shows area m pc values memory console)
    (at_ : f.At pc [.li .a7 Service.printString.number, .la .a0 newlineLabel, .ecall]) :
    f.Leads area m (pc + 3) values memory (console.printString (m.memory.text f.newline)) := by
  have selected := h.write (show Reg.a7 ≠ .sp by decide) Service.printString.number.toBitVec
  have ready := selected.write (show Reg.a0 ≠ .sp by decide) (BitVec.ofNat 32 (f.address newlineLabel))
  apply h.exec at_ rfl
  apply selected.exec at_.tail rfl
  exact ready.exec at_.tail.tail (ready.exec_printString rfl rfl) (ready.talk _).leads

/-- The value on top is printed on a line. -/
theorem leads_printInt (h : Shows area m pc (value :: values) memory console)
    (at_ : f.At pc [.lw .a0 0 .sp, .addi .sp .sp 4, .li .a7 Service.printInt.number, .ecall,
      .li .a7 Service.printString.number, .la .a0 newlineLabel, .ecall]) :
    f.Leads area m (pc + 7) values memory
      ((console.printInt value).printString (m.memory.text f.newline)) := by
  have loaded := h.write (show Reg.a0 ≠ .sp by decide) value.toBitVec
  have dropped := loaded.drop 1 (show (4 : Int) = _ from rfl) (by simp)
  have ready := dropped.write (show Reg.a7 ≠ .sp by decide) Service.printInt.number.toBitVec
  apply h.exec at_ (h.exec_lw_top .a0)
  apply loaded.exec at_.tail rfl
  apply dropped.exec at_.tail.tail rfl
  apply ready.exec at_.tail.tail.tail (ready.exec_printInt rfl rfl)
  exact (ready.talk _).leads_endLine at_.tail.tail.tail.tail

/-- The text at the address on top is printed on a line. -/
theorem leads_printStr (h : Shows area m pc (a :: values) memory console)
    (at_ : f.At pc [.li .a7 Service.printString.number, .lw .a0 0 .sp, .addi .sp .sp 4, .ecall,
      .li .a7 Service.printString.number, .la .a0 newlineLabel, .ecall]) :
    f.Leads area m (pc + 7) values memory
      ((console.printString (m.memory.text a.toBitVec.toNat)).printString
        (m.memory.text f.newline)) := by
  have selected := h.write (show Reg.a7 ≠ .sp by decide) Service.printString.number.toBitVec
  have loaded := selected.write (show Reg.a0 ≠ .sp by decide) a.toBitVec
  have ready := loaded.drop 1 (show (4 : Int) = _ from rfl) (by simp)
  apply h.exec at_ rfl
  apply selected.exec at_.tail (selected.exec_lw_top .a0)
  apply loaded.exec at_.tail.tail rfl
  apply ready.exec at_.tail.tail.tail (ready.exec_printString rfl rfl)
  exact (ready.talk _).leads_endLine at_.tail.tail.tail.tail

/-- An integer is read and pushed. -/
theorem leads_inputInt (h : Shows area m pc values memory console) (room : values.length < area.capacity)
    (read : console.readInt = .ok value console')
    (at_ : f.At pc [.li .a7 Service.readInt.number, .ecall, .addi .sp .sp (-4), .sw .a0 0 .sp]) :
    f.Leads area m (pc + 4) (value :: values) memory console' := by
  have ready := h.write (show Reg.a7 ≠ .sp by decide) Service.readInt.number.toBitVec
  have reads : f.exec .ecall (m.write .a7 Service.readInt.number.toBitVec) =
      .ok (({ m.write .a7 Service.readInt.number.toBitVec with console := console' }).write .a0
        value.toBitVec) := by
    simp only [Image.exec, State.call, State.regs_write_self, ofWord?_number]
    rw [ready.console_eq, read]
  have changed : Shows area { m.write .a7 Service.readInt.number.toBitVec with console := console' }
      (pc + 1) values memory console' :=
    ⟨ready.pc_eq, ready.bounded, ready.sp, ready.words, ready.outside, rfl⟩
  apply h.exec at_ rfl
  apply ready.exec at_.tail reads
  exact (changed.write (by decide) _).leads_push room (by decide) (State.regs_write_self _ _ _)
    at_.tail.tail

/-- The program exits. -/
theorem exits (h : Shows area m pc values memory console)
    (at_ : f.At pc [.li .a7 Service.exit.number, .ecall]) :
    ∃ m', f.Reaches m m' ∧ f.step m' = .error .exit ∧ m'.console = console := by
  have first : f.At m.pc [.li .a7 Service.exit.number, .ecall] := h.pc_eq.symm ▸ at_
  have second : f.At (m.write .a7 Service.exit.number.toBitVec).pc [.ecall] := first.tail
  exact ⟨_, .exec first rfl (.refl _), second.step, h.console_eq⟩

end Shows

end MiniC.Rv32
