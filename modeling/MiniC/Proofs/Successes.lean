import MiniC.Machine.Run
import MiniC.Proofs.Instructions
import MiniC.Proofs.Results

/-!
# Steps that succeed

What a step that does not fault has found on the stack, and what it has left. Every opcode takes its
operands from the top of the stack and puts its result there.
-/

namespace MiniC.Machine

variable {capacity : Nat} {s s' : State} {value argument : Int32} {op : OpCode}

/-- The state with other values on the stack. -/
def State.withValues (s : State) (values : List Int32) : State :=
  { s with stack := .ofValues values }

/-- A pop that succeeds found a value. -/
theorem exists_of_pop (h : pop s = .ok value s') :
    ∃ rest, s.stack.values = value :: rest ∧ s' = s.withValues rest := by
  obtain ⟨pc, ⟨values, height, height_eq⟩, memory, console⟩ := s
  cases values with
  | nil => cases h
  | cons top rest =>
    cases h
    subst height_eq
    exact ⟨rest, rfl, rfl⟩

/-- A push that succeeds found room. -/
theorem exists_of_push (h : push capacity value s = .ok () s') :
    s.stack.values.length < capacity ∧ s' = s.withValues (value :: s.stack.values) := by
  obtain ⟨pc, ⟨values, height, height_eq⟩, memory, console⟩ := s
  subst height_eq
  unfold push at h
  by_cases room : values.length < capacity
  · rw [if_pos room] at h
    cases h
    exact ⟨room, rfl⟩
  · rw [if_neg room] at h
    cases h

/-- A computation that succeeds leaves the state as it is. -/
theorem exists_of_liftFault {α : Type} {result : Except Fault α} {a : α}
    (h : liftFault result s = .ok a s') : result = .ok a ∧ s' = s := by
  cases result with
  | ok b =>
    cases h
    exact ⟨rfl, rfl⟩
  | error fault => cases h

/-- An address that is accepted lies in memory, and its slot has the same number. -/
theorem exists_of_slotAt {address : Int32} {index : Nat} (h : slotAt address s = .ok index s') :
    0 ≤ address.toInt ∧ address.toInt < s.memory.size ∧ index = address.toInt.toNat ∧ s' = s := by
  obtain ⟨_, _, got, h⟩ := bind_eq_ok.1 h
  cases got
  obtain ⟨found, same⟩ := exists_of_liftFault h
  unfold slot at found
  by_cases inside : 0 ≤ address.toInt ∧ address.toInt < s.memory.size
  · rw [if_pos inside] at found
    cases found
    exact ⟨inside.1, inside.2, rfl, same⟩
  · rw [if_neg inside] at found
    cases found

/-- An operator that succeeds found two operands, the right one on top. -/
theorem exists_of_applyBinary {f : Int32 → Int32 → Except Fault Int32}
    (h : applyBinary capacity f s = .ok () s') :
    ∃ a b rest result, s.stack.values = b :: a :: rest ∧ f a b = .ok result ∧
      s' = s.withValues (result :: rest) := by
  obtain ⟨b, _, popped, h⟩ := bind_eq_ok.1 h
  obtain ⟨below, values, rfl⟩ := exists_of_pop popped
  obtain ⟨a, _, popped, h⟩ := bind_eq_ok.1 h
  obtain ⟨rest, rfl, rfl⟩ := exists_of_pop popped
  obtain ⟨result, _, lifted, h⟩ := bind_eq_ok.1 h
  obtain ⟨applied, rfl⟩ := exists_of_liftFault lifted
  obtain ⟨-, rfl⟩ := exists_of_push h
  exact ⟨a, b, rest, result, values, applied, rfl⟩

/-- An operator before its operand found one. -/
theorem exists_of_applyUnary {f : Int32 → Int32} (h : applyUnary capacity f s = .ok () s') :
    ∃ a rest, s.stack.values = a :: rest ∧ s' = s.withValues (f a :: rest) := by
  obtain ⟨a, _, popped, h⟩ := bind_eq_ok.1 h
  obtain ⟨rest, values, rfl⟩ := exists_of_pop popped
  obtain ⟨-, rfl⟩ := exists_of_push h
  exact ⟨a, rest, values, rfl⟩

/-- A duplicate found a value and room for another. -/
theorem exists_of_duplicate (h : duplicate capacity s = .ok () s') :
    ∃ top rest, s.stack.values = top :: rest ∧ s.stack.values.length < capacity ∧
      s' = s.withValues (top :: top :: rest) := by
  obtain ⟨_, _, got, h⟩ := bind_eq_ok.1 h
  cases got
  cases values : s.stack.values with
  | nil =>
    rw [show s.stack.top? = none from congrArg List.head? values] at h
    cases h
  | cons top rest =>
    rw [show s.stack.top? = some top from congrArg List.head? values] at h
    obtain ⟨room, rfl⟩ := exists_of_push h
    rw [values] at room ⊢
    exact ⟨top, rest, rfl, room, rfl⟩

/-- A load found an address in memory, which it replaced by what is there. -/
theorem exists_of_loadSlot (h : loadSlot capacity s = .ok () s') :
    ∃ address rest, s.stack.values = address :: rest ∧ 0 ≤ address.toInt ∧
      address.toInt < s.memory.size ∧
      s' = s.withValues (s.memory.getD address.toInt.toNat 0 :: rest) := by
  obtain ⟨address, _, popped, h⟩ := bind_eq_ok.1 h
  obtain ⟨rest, values, rfl⟩ := exists_of_pop popped
  obtain ⟨index, _, slot, h⟩ := bind_eq_ok.1 h
  obtain ⟨lower, upper, rfl, rfl⟩ := exists_of_slotAt slot
  obtain ⟨_, _, got, h⟩ := bind_eq_ok.1 h
  cases got
  obtain ⟨-, rfl⟩ := exists_of_push h
  exact ⟨address, rest, values, lower, upper, rfl⟩

/-- A store found a value and below it an address in memory. -/
theorem exists_of_storeSlot (h : storeSlot s = .ok () s') :
    ∃ value address rest, s.stack.values = value :: address :: rest ∧ 0 ≤ address.toInt ∧
      address.toInt < s.memory.size ∧
      s' = { s.withValues rest with memory := s.memory.setIfInBounds address.toInt.toNat value } := by
  obtain ⟨value, _, popped, h⟩ := bind_eq_ok.1 h
  obtain ⟨below, values, rfl⟩ := exists_of_pop popped
  obtain ⟨address, _, popped, h⟩ := bind_eq_ok.1 h
  obtain ⟨rest, rfl, rfl⟩ := exists_of_pop popped
  obtain ⟨index, _, slot, h⟩ := bind_eq_ok.1 h
  obtain ⟨lower, upper, rfl, rfl⟩ := exists_of_slotAt slot
  cases h
  exact ⟨value, address, rest, values, lower, upper, rfl⟩

/-- A branch found a condition, which it took whether or not it went to its target. -/
theorem exists_of_branch {condition : Int32 → Bool} (h : branch condition argument s = .ok () s') :
    ∃ value rest, s.stack.values = value :: rest ∧
      s' = { s.withValues rest with pc := if condition value then target argument else s.pc } := by
  obtain ⟨value, _, popped, h⟩ := bind_eq_ok.1 h
  obtain ⟨rest, values, rfl⟩ := exists_of_pop popped
  refine ⟨value, rest, values, ?_⟩
  by_cases taken : condition value
  · rw [if_pos taken] at h ⊢
    cases h
    rfl
  · rw [if_neg taken] at h ⊢
    cases h
    rfl

/-- A print found a value. -/
theorem exists_of_printInt (h : printInt s = .ok () s') :
    ∃ value rest, s.stack.values = value :: rest ∧
      s' = { s.withValues rest with console := s.console.printInt value } := by
  obtain ⟨value, _, popped, h⟩ := bind_eq_ok.1 h
  obtain ⟨rest, values, rfl⟩ := exists_of_pop popped
  cases h
  exact ⟨value, rest, values, rfl⟩

/-- A print of a string found an address in memory. -/
theorem exists_of_printString (h : printString s = .ok () s') :
    ∃ address rest, s.stack.values = address :: rest ∧ 0 ≤ address.toInt ∧
      address.toInt < s.memory.size ∧
      s' = { s.withValues rest with
        console := s.console.printString (stringAt s.memory address.toInt.toNat) } := by
  obtain ⟨address, _, popped, h⟩ := bind_eq_ok.1 h
  obtain ⟨rest, values, rfl⟩ := exists_of_pop popped
  obtain ⟨index, _, slot, h⟩ := bind_eq_ok.1 h
  obtain ⟨lower, upper, rfl, rfl⟩ := exists_of_slotAt slot
  cases h
  exact ⟨address, rest, values, lower, upper, rfl⟩

/-- Reading found an integer on the console and room on the stack. -/
theorem exists_of_inputInt (h : inputInt capacity s = .ok () s') :
    ∃ value console, s.console.readInt = .ok value console ∧ s.stack.values.length < capacity ∧
      s' = { s.withValues (value :: s.stack.values) with console } := by
  obtain ⟨value, _, read, h⟩ := bind_eq_ok.1 h
  cases found : s.console.readInt with
  | error fault console =>
    rw [found] at read
    cases read
  | ok value' console =>
    rw [found] at read
    cases read
    obtain ⟨room, rfl⟩ := exists_of_push h
    exact ⟨value, console, rfl, room, rfl⟩

/-! ## Opcodes for operators -/

theorem step_of_binary? {f : Int32 → Int32 → Except Fault Int32} (h : binary? op = some f) :
    step capacity ⟨op, argument⟩ = applyBinary capacity f := by
  cases op <;> cases h <;> rfl

theorem step_of_unary? {f : Int32 → Int32} (h : unary? op = some f) :
    step capacity ⟨op, argument⟩ = applyUnary capacity f := by
  cases op <;> cases h <;> rfl

end MiniC.Machine
