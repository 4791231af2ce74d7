import MiniC.Proofs.Loading
import MiniC.Proofs.Meaning
import MiniC.Proofs.Names
import MiniC.Proofs.Steps

/-!
# Instructions of a loaded program

What the machine does with each instruction that lowering makes, in the words of the evaluator: operators
compute what `BinaryOp.apply` and `UnaryOp.apply` say, loads and stores what `readSlot` and `writeSlot`
do, and a jump goes to the mark with its name.

A situation of the evaluator becomes a state of the machine when it is given a place in the code
(`Situation.stateAt`): the values of expression statements are the stack. `Program.Holds` says that a list of
instructions stands at a place in the code of a program.
-/

namespace MiniC

/-! ## Operators -/

/-- The machine takes the count of a shift modulo 32 on words, the evaluator on integers; both give the same count. -/
theorem shiftCount_eq (count : Int32) : (count.toBitVec.smod 32).toNat = shiftCount count := by
  have positive : 0 ≤ count.toInt % 32 := Int.emod_nonneg _ (by decide)
  have small : count.toInt % 32 < 32 := Int.emod_lt_of_pos _ (by decide)
  have value : (count.toBitVec.smod 32).toInt = count.toInt % 32 := by
    rw [BitVec.toInt_smod]
    show count.toInt.fmod 32 = _
    rw [Int.fmod_eq_emod_of_nonneg _ (by decide)]
  have bits := BitVec.toInt_eq_toNat_cond (count.toBitVec.smod 32)
  have bound := (count.toBitVec.smod 32).isLt
  unfold shiftCount
  rw [value] at bits
  split at bits <;> omega

/-- Shifting to the left multiplies by a power of two, and wraps as a product does. -/
theorem shiftLeft_eq (a b : Int32) : a <<< b = .ofInt (a.toInt * 2 ^ shiftCount b) := by
  apply Int32.toBitVec_inj.1
  rw [Int32.toBitVec_shiftLeft, Int32.toBitVec_ofInt, BitVec.shiftLeft_eq', shiftCount_eq,
    BitVec.shiftLeft_eq_mul_twoPow, BitVec.ofInt_mul]
  have power : (2 ^ shiftCount b : Int) = ((2 ^ shiftCount b : Nat) : Int) := by simp
  have twoPow : BitVec.twoPow 32 (shiftCount b) = BitVec.ofNat 32 (2 ^ shiftCount b) := by
    apply BitVec.eq_of_toNat_eq
    simp [BitVec.toNat_twoPow]
  rw [power, BitVec.ofInt_natCast, twoPow]
  congr 1
  exact BitVec.ofInt_toInt.symm

/-- Shifting to the right keeps the sign: it divides by a power of two and rounds down. -/
theorem shiftRight_eq (a b : Int32) : a >>> b = .ofInt (a.toInt / 2 ^ shiftCount b) := by
  apply Int32.toBitVec_inj.1
  rw [Int32.toBitVec_shiftRight, Int32.toBitVec_ofInt, BitVec.sshiftRight_eq', shiftCount_eq]
  have shifted : (a.toBitVec.sshiftRight (shiftCount b)).toInt = a.toInt / 2 ^ shiftCount b := by
    rw [BitVec.toInt_sshiftRight, Int.shiftRight_eq_div_pow, Int.natCast_pow]
    rfl
  rw [← shifted, BitVec.ofInt_toInt]

/-- Division truncates. The one quotient that is no word, that of the smallest word by -1, wraps. -/
theorem div_eq (a b : Int32) : a / b = .ofInt (a.toInt.tdiv b.toInt) := by
  apply Int32.toInt_inj.1
  rw [Int32.toInt_div, Int32.toInt_ofInt]

/-- The remainder of division that truncates has the sign of the dividend. -/
theorem mod_eq (a b : Int32) : a % b = .ofInt (a.toInt.tmod b.toInt) := by
  rw [← Int32.toInt_mod, Int32.ofInt_toInt]

/-- Sums wrap around; so do differences and products. -/
theorem add_eq (a b : Int32) : a + b = .ofInt (a.toInt + b.toInt) := by
  rw [Int32.ofInt_add, Int32.ofInt_toInt, Int32.ofInt_toInt]

theorem sub_eq (a b : Int32) : a - b = .ofInt (a.toInt - b.toInt) := by
  rw [Int32.ofInt_sub, Int32.ofInt_toInt, Int32.ofInt_toInt]

theorem mul_eq (a b : Int32) : a * b = .ofInt (a.toInt * b.toInt) := by
  rw [Int32.ofInt_mul, Int32.ofInt_toInt, Int32.ofInt_toInt]

/-- The machine computes what operators between operands mean. -/
theorem Machine.binary?_binaryOpCode (op : BinaryOp) :
    Machine.binary? (Lowering.binaryOpCode op) = some op.apply := by
  cases op
  all_goals refine congrArg some (funext fun a => funext fun b => ?_)
  case add => exact congrArg Except.ok (add_eq a b)
  case sub => exact congrArg Except.ok (sub_eq a b)
  case mul => exact congrArg Except.ok (mul_eq a b)
  case div => simp only [BinaryOp.apply, div_eq]
  case mod => simp only [BinaryOp.apply, mod_eq]
  case shiftLeft => exact congrArg Except.ok (shiftLeft_eq a b)
  case shiftRight => exact congrArg Except.ok (shiftRight_eq a b)
  case lt | gt => simp only [BinaryOp.apply, Machine.truth, Int32.lt_iff_toInt_lt]
  case ltEq | gtEq => simp only [BinaryOp.apply, Machine.truth, Int32.le_iff_toInt_le]
  all_goals rfl

/-- The machine computes what operators before their operand mean. -/
theorem Machine.unary?_unaryOpCode {op : UnaryOp} {code : OpCode} (h : Lowering.unaryOpCode? op = some code) :
    Machine.unary? code = some op.apply ∧ Machine.binary? code = none := by
  cases op
  case plus => cases h
  all_goals cases h
  case neg =>
    refine ⟨congrArg some (funext fun a => ?_), rfl⟩
    show -a = .ofInt (-a.toInt)
    rw [Int32.ofInt_neg, Int32.ofInt_toInt]
  case bitNot => exact ⟨rfl, rfl⟩
  case not =>
    refine ⟨congrArg some (funext fun a => ?_), rfl⟩
    simp [Machine.truth, UnaryOp.apply]

/-! ## Memory -/

/-- Only the byte 0 is the word 0, so a byte of a string does not end it unless it is 0. -/
theorem ofNat_toNat_eq_zero_iff (b : UInt8) : Int32.ofNat b.toNat = 0 ↔ b = 0 := by
  have small := b.toNat_lt
  constructor
  · intro h
    have value := congrArg Int32.toInt h
    rw [Int32.toInt_ofNat_of_lt (by omega)] at value
    exact UInt8.toNat_inj.1 (Int.ofNat_inj.1 value)
  · rintro rfl
    rfl

/-- A byte that is kept in a word is read back. -/
theorem lowByte_ofNat (b : UInt8) : Machine.lowByte (.ofNat b.toNat) = b := by
  apply UInt8.toNat_inj.1
  simp [Machine.lowByte]

/-- Reading a string stops at the first word that is 0 or at the end of memory, whichever comes first. The induction
is on the bound, which is enough if it covers what is left of memory. -/
theorem bytesFrom_eq (memory : Array Int32) {bound start : Nat} (h : memory.size - start ≤ bound) :
    Machine.bytesFrom memory bound start =
      ((memory.toList.drop start).takeWhile (· ≠ 0)).map Machine.lowByte := by
  induction bound generalizing start with
  | zero =>
    have past : memory.toList.length ≤ start := by rw [Array.length_toList]; omega
    rw [Machine.bytesFrom, List.drop_of_length_le past]
    rfl
  | succ bound ih =>
    rw [Machine.bytesFrom]
    by_cases inside : start < memory.size
    · have found : memory[start]? = some memory[start] := Array.getElem?_eq_getElem inside
      have rest : memory.toList.drop start = memory[start] :: memory.toList.drop (start + 1) := by
        rw [List.drop_eq_getElem_cons (by rwa [Array.length_toList])]
        rfl
      rw [found, rest, List.takeWhile_cons]
      by_cases zero : memory[start] = 0
      · simp [zero]
      · simp only [zero, if_false]
        rw [ih (by omega)]
        simp [zero]
    · have past : memory.toList.length ≤ start := by rw [Array.length_toList]; omega
      rw [Array.getElem?_eq_none (by omega), List.drop_of_length_le past]
      rfl

/-- A string in memory without the machine's bound. -/
theorem stringAt_eq (memory : Array Int32) (start : Nat) :
    Machine.stringAt memory start = String.ofList (Text.decodeLossy
      (((memory.toList.drop start).takeWhile (· ≠ 0)).map Machine.lowByte)) := by
  rw [Machine.stringAt, bytesFrom_eq memory (Nat.le_refl _)]

/-! ## Places in the code -/

/-- A list of instructions stands at a place in the code of a program. -/
def Program.Holds (p : Program) (pc : Nat) (code : List Instruction) : Prop :=
  ∃ before after, p.code = before ++ (code ++ after) ∧ before.length = pc

namespace Program.Holds

variable {p : Program} {pc : Nat} {i : Instruction} {code code' : List Instruction}

/-- Of two parts the first stands where both do. -/
theorem left (h : p.Holds pc (code ++ code')) : p.Holds pc code := by
  obtain ⟨before, after, split, rfl⟩ := h
  exact ⟨before, code' ++ after, by rw [split, List.append_assoc], rfl⟩

/-- Of two parts the second stands as many places on as the first has instructions. -/
theorem right (h : p.Holds pc (code ++ code')) : p.Holds (pc + code.length) code' := by
  obtain ⟨before, after, split, rfl⟩ := h
  exact ⟨before ++ code, after, by rw [split]; simp, by simp⟩

/-- Behind its first instruction the rest stands one place on. -/
theorem tail (h : p.Holds pc (i :: code)) : p.Holds (pc + 1) code := by
  have split : p.Holds pc ([i] ++ code) := h
  exact split.right

/-- Loading keeps the places of instructions: what the machine finds there is what the program has, with names
resolved. -/
theorem getElem?_code (h : p.Holds pc (i :: code)) (capacity : Nat) :
    (p.machine capacity).code[pc]? = some ((p.machine capacity).loadedInstruction i) := by
  obtain ⟨before, after, split, rfl⟩ := h
  rw [p.getElem?_code_machine, split]
  simp

/-- Where an instruction stands is inside the code. -/
theorem lt_length (h : p.Holds pc (i :: code)) : pc < p.code.length := by
  obtain ⟨before, after, split, rfl⟩ := h
  rw [split]
  simp

/-- A mark that stands in the code names its place. -/
theorem jumpTarget? (labelled : p.WellLabelled) (capacity : Nat) {name : String}
    (trimmed : Machine.markName (.mark name) = name) (h : p.Holds pc (.mark name :: code)) :
    (p.machine capacity).jumpTarget? name = some pc := by
  obtain ⟨before, after, split, rfl⟩ := h
  have found : (p.machine capacity).jumpTarget? (Machine.markName (.mark name)) = _ :=
    labelled.jumpTarget?_machine split rfl
  rwa [trimmed] at found

end Program.Holds

/-! ## Situations of the machine -/

/-- A stack of the given values. -/
def Stack.ofValues (values : List Int32) : Stack :=
  ⟨values, values.length, rfl⟩

namespace Situation

/-- A situation as a state of the machine, at a place in the code. -/
def stateAt (s : Situation) (pc : Nat) : Machine.State :=
  { pc, stack := .ofValues s.values, memory := s.memory, console := s.console }

/-- A situation with one more value. -/
def push (s : Situation) (value : Int32) : Situation :=
  { s with values := value :: s.values }

@[simp]
theorem memory_push (s : Situation) (value : Int32) : (s.push value).memory = s.memory := rfl

@[simp]
theorem console_push (s : Situation) (value : Int32) : (s.push value).console = s.console := rfl

end Situation

namespace Machine

variable {s : Situation} {pc : Nat} {a b : Int32}

/-- Popping goes back to the situation before the push. -/
theorem pop_stateAt : pop ((s.push a).stateAt pc) = .ok a (s.stateAt pc) := rfl

/-- Pushing is that of the situation where the stack has room. -/
theorem push_stateAt {capacity : Nat} (room : s.values.length < capacity) :
    push capacity a (s.stateAt pc) = .ok () ((s.push a).stateAt pc) := by
  show (if s.values.length < capacity then _ else _) = _
  rw [if_pos room]
  rfl

theorem freeStep_push : freeStep ⟨.push, a⟩ (s.stateAt pc) = .ok () ((s.push a).stateAt pc) :=
  push_stateAt (Nat.lt_succ_self _)

theorem freeStep_label : freeStep ⟨.label, a⟩ (s.stateAt pc) = .ok () (s.stateAt pc) := rfl

theorem freeStep_jump : freeStep ⟨.jump, a⟩ (s.stateAt pc) = .ok () (s.stateAt (target a)) := rfl

/-- A branch takes the condition off the stack, be it taken or not. -/
theorem freeStep_branchEqualZero :
    freeStep ⟨.branchEqualZero, a⟩ ((s.push b).stateAt pc) =
      .ok () (s.stateAt (if b = 0 then target a else pc)) := by
  show (bind pop _ : Exec Unit) _ = _
  rw [bind_of_ok pop_stateAt]
  by_cases zero : b = 0
  · simp [zero]
    rfl
  · simp [zero]

/-- The branch on what is not zero is taken on every value but 0, not only on 1. -/
theorem freeStep_branchNotZero :
    freeStep ⟨.branchNotZero, a⟩ ((s.push b).stateAt pc) =
      .ok () (s.stateAt (if b = 0 then pc else target a)) := by
  show (bind pop _ : Exec Unit) _ = _
  rw [bind_of_ok pop_stateAt]
  by_cases zero : b = 0
  · simp [zero]
  · simp [zero]
    rfl

/-- A computation's result on a situation: the situation that follows, or the fault. -/
def resume {α : Type} (result : Except Fault α) (s : Situation) (next : α → Situation) (pc : Nat) :
    EStateM.Result Fault State Unit :=
  match result with
  | .ok value => .ok () ((next value).stateAt pc)
  | .error fault => .error fault (s.stateAt pc)

/-- An address is checked against memory alone, and checking it changes nothing. -/
theorem slotAt_stateAt (s : Situation) (pc : Nat) (address : Int32) :
    slotAt address (s.stateAt pc) =
      match slotOf s.memory address with
      | .ok slot => .ok slot (s.stateAt pc)
      | .error fault => .error fault (s.stateAt pc) := by
  show liftFault (slotOf s.memory address) (s.stateAt pc) = _
  cases slotOf s.memory address with
  | ok slot => rfl
  | error fault => rfl

/-- An operator takes the right operand first, as it was pushed last. Where it faults, both have been taken. -/
theorem freeStep_binary (op : BinaryOp) {argument : Int32} :
    freeStep ⟨Lowering.binaryOpCode op, argument⟩ (((s.push a).push b).stateAt pc) =
      resume (op.apply a b) s s.push pc := by
  have chosen : ∀ capacity, step capacity ⟨Lowering.binaryOpCode op, argument⟩ =
      applyBinary capacity op.apply := by
    intro capacity
    have found := binary?_binaryOpCode op
    cases op
    all_goals
      simp only [Lowering.binaryOpCode] at found
      simp only [step, Lowering.binaryOpCode, found]
  unfold freeStep
  rw [chosen]
  refine (bind_of_ok pop_stateAt).trans ((bind_of_ok pop_stateAt).trans ?_)
  cases op.apply a b with
  | error fault => rfl
  | ok value =>
    exact push_stateAt (show s.values.length < s.values.length + 1 + 1 + 1 by omega)

/-- An operator before its operand cannot fault. -/
theorem freeStep_unary {op : UnaryOp} {code : OpCode} (h : Lowering.unaryOpCode? op = some code)
    {argument : Int32} :
    freeStep ⟨code, argument⟩ ((s.push a).stateAt pc) = .ok () ((s.push (op.apply a)).stateAt pc) := by
  obtain ⟨found, other⟩ := unary?_unaryOpCode h
  have chosen : ∀ capacity, step capacity ⟨code, argument⟩ = applyUnary capacity op.apply := by
    intro capacity
    cases op
    case plus => cases h
    all_goals
      cases h
      simp only [step, found, other]
  unfold freeStep
  rw [chosen]
  refine (bind_of_ok pop_stateAt).trans ?_
  exact push_stateAt (show s.values.length < s.values.length + 1 + 1 by omega)

/-- A load replaces the address by what is there, or takes it and faults. -/
theorem freeStep_load {argument : Int32} :
    freeStep ⟨.load, argument⟩ ((s.push a).stateAt pc) = resume (readSlot s.memory a) s s.push pc := by
  refine (bind_of_ok pop_stateAt).trans ?_
  have found := slotAt_stateAt s pc a
  unfold readSlot
  cases hslot : slotOf s.memory a with
  | error fault =>
    rw [hslot] at found
    exact bind_of_error found
  | ok slot =>
    rw [hslot] at found
    refine (bind_of_ok found).trans ((bind_of_ok get_apply).trans ?_)
    exact push_stateAt (show s.values.length < s.values.length + 1 + 1 by omega)

/-- A store takes the value first and then the address, and checks the address before memory is changed. -/
theorem freeStep_store {argument : Int32} :
    freeStep ⟨.store, argument⟩ (((s.push a).push b).stateAt pc) =
      resume (writeSlot s.memory a b) s (fun memory => { s with memory }) pc := by
  refine (bind_of_ok pop_stateAt).trans ((bind_of_ok pop_stateAt).trans ?_)
  have found := slotAt_stateAt s pc a
  unfold writeSlot
  cases hslot : slotOf s.memory a with
  | error fault =>
    rw [hslot] at found
    exact bind_of_error found
  | ok slot =>
    rw [hslot] at found
    exact bind_of_ok found

/-- Printing takes the value. -/
theorem freeStep_printInt {argument : Int32} :
    freeStep ⟨.printInt, argument⟩ ((s.push a).stateAt pc) =
      .ok () (({ s with console := s.console.printInt a } : Situation).stateAt pc) :=
  bind_of_ok pop_stateAt

/-- A string is read from memory up to its end before anything is printed; a bad address prints nothing. -/
theorem freeStep_printStr {argument : Int32} :
    freeStep ⟨.printStr, argument⟩ ((s.push a).stateAt pc) =
      resume (readText s.memory a) s
        (fun text => { s with console := s.console.printString text }) pc := by
  refine (bind_of_ok pop_stateAt).trans ?_
  have found := slotAt_stateAt s pc a
  unfold readText
  cases hslot : slotOf s.memory a with
  | error fault =>
    rw [hslot] at found
    exact bind_of_error found
  | ok slot =>
    rw [hslot] at found
    refine (bind_of_ok found).trans ?_
    rw [modify_apply]
    show EStateM.Result.ok () { s.stateAt pc with
      console := s.console.printString (stringAt s.memory slot) } = _
    rw [stringAt_eq]
    rfl

/-- Reading a number that faults leaves the console as reading has left it, not as it was. -/
theorem freeStep_inputInt {argument : Int32} :
    freeStep ⟨.inputInt, argument⟩ (s.stateAt pc) =
      match s.console.readInt with
      | .ok value console => .ok () ((({ s with console } : Situation).push value).stateAt pc)
      | .error fault console => .error fault (({ s with console } : Situation).stateAt pc) := by
  cases read : s.console.readInt with
  | error fault console =>
    refine bind_of_error ?_
    show (match s.console.readInt with | .ok value console => _ | .error fault console => _) = _
    rw [read]
    rfl
  | ok value console =>
    have first : (match s.console.readInt with
        | .ok value console => .ok value { s.stateAt pc with console }
        | .error fault console => .error fault { s.stateAt pc with console } :
          EStateM.Result Fault State Int32) =
            .ok value (({ s with console } : Situation).stateAt pc) := by
      rw [read]
      rfl
    refine (bind_of_ok first).trans ?_
    exact push_stateAt (Nat.lt_succ_self _)

/-! ## Resolved names -/

/-- An instruction without an argument is given 0. -/
theorem loadedInstruction_plain (m : Machine) (op : OpCode) :
    m.loadedInstruction ⟨op, .none⟩ = ⟨op, 0⟩ := by
  unfold loadedInstruction resolve
  split <;> rfl

/-- A label of data stands for its place in memory. -/
theorem loadedInstruction_pushLabel {m : Machine} {label : String} {offset : Nat}
    (found : m.dataOffset? label = some offset) :
    m.loadedInstruction (.pushLabel label) = ⟨.push, Int32.ofNat offset⟩ := by
  simp [loadedInstruction, resolve, resolveLabel, Instruction.pushLabel, found, Except.toOption]

/-- A name stands for the place of its mark in every instruction but `push`. -/
theorem loadedInstruction_place {m : Machine} {op : OpCode} {name : String} {place : Nat} (other : op ≠ .label)
    (jumps : op ≠ .push) (found : m.jumpTarget? name = some place) :
    m.loadedInstruction ⟨op, .label name⟩ = ⟨op, Int32.ofNat place⟩ := by
  simp [loadedInstruction, resolve, resolveLabel, other, jumps, found, Except.toOption]

theorem loadedInstruction_jump {m : Machine} {name : String} {place : Nat}
    (found : m.jumpTarget? name = some place) :
    m.loadedInstruction (.jump name) = ⟨.jump, Int32.ofNat place⟩ :=
  loadedInstruction_place (by decide) (by decide) found

theorem loadedInstruction_branchIfZero {m : Machine} {name : String} {place : Nat}
    (found : m.jumpTarget? name = some place) :
    m.loadedInstruction (.branchIfZero name) = ⟨.branchEqualZero, Int32.ofNat place⟩ :=
  loadedInstruction_place (by decide) (by decide) found

theorem loadedInstruction_branchIfNotZero {m : Machine} {name : String} {place : Nat}
    (found : m.jumpTarget? name = some place) :
    m.loadedInstruction (.branchIfNotZero name) = ⟨.branchNotZero, Int32.ofNat place⟩ :=
  loadedInstruction_place (by decide) (by decide) found

/-- A place below 2³¹ survives being an argument. -/
theorem target_ofNat {place : Nat} (h : place < 2147483648) : target (Int32.ofNat place) = place := by
  unfold target
  rw [Int32.toInt_ofNat_of_lt h]
  omega

/-- A place below 2³² survives being an argument, or what becomes of it lies past every such place. -/
theorem target_ofNat_or {place : Nat} (h : place < 4294967296) :
    target (Int32.ofNat place) = place ∨ 4294967296 ≤ target (Int32.ofNat place) := by
  by_cases low : place < 2147483648
  · exact .inl (target_ofNat low)
  · have value : (Int32.ofNat place).toInt = (place : Int) - 4294967296 := by
      rw [Int32.toInt_ofNat', Int.bmod_def, show (Int32.size : Int) = 4294967296 from rfl]
      split <;> omega
    refine .inr ?_
    unfold target
    rw [value]
    omega

end Machine

end MiniC
