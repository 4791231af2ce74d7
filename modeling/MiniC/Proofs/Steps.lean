import MiniC.Machine.Run
import MiniC.Proofs.Results

/-!
# Runs as steps

A run is a sequence of steps, and the capacity of the stack matters only where the stack is full. So
steps are taken on a stack with room (`freeStep`), and `step_eq_or_full` says that a machine either does
the same or reports that its stack is full. `runFrom_of_steps` and `runFrom_of_fault` carry this over to
runs.

A step raises the stack by at most one value. A run of `n` steps therefore fits into a stack with room
for `n` values more than there are at its start.
-/

namespace MiniC.Machine

/-! ## Capacity -/

/-- On the given state, the first computation does what the second does, unless the stack is full. -/
def SameUnlessFull {α : Type} (capacity : Nat) (x y : Exec α) (s : State) : Prop :=
  x s = y s ∨ capacity ≤ s.stack.height ∧ ∃ s', x s = .error (.stackOverflow capacity) s'

/-- A computation that raises the stack by at most the given number of values. -/
def Raises {α : Type} (count : Nat) (x : Exec α) : Prop :=
  ∀ s a s', x s = .ok a s' → s'.stack.height ≤ s.stack.height + count

theorem SameUnlessFull.refl {α : Type} (capacity : Nat) (x : Exec α) (s : State) :
    SameUnlessFull capacity x x s :=
  .inl rfl

/-- Computations that start alike and do not raise the stack there do the same unless it is full. -/
theorem SameUnlessFull.bind {α β : Type} {capacity : Nat} {x : Exec α} (level : Raises 0 x)
    {f g : α → Exec β} {s : State}
    (h : ∀ a s', s'.stack.height ≤ s.stack.height → SameUnlessFull capacity (f a) (g a) s') :
    SameUnlessFull capacity (x >>= f) (x >>= g) s := by
  cases first : x s with
  | error fault s' => exact .inl (by rw [bind_of_error first, bind_of_error first])
  | ok a s' =>
    have low := level s a s' first
    rcases h a s' low with same | ⟨full, s'', overflow⟩
    · exact .inl (by rw [bind_of_ok first, bind_of_ok first, same])
    · exact .inr ⟨Nat.le_trans full low, s'', by rw [bind_of_ok first, overflow]⟩

/-- Two machines push alike unless the stack of the first is full. The second must not be full where the first is not.
-/
theorem SameUnlessFull.push {capacity room : Nat} (value : Int32) {s : State}
    (h : capacity ≤ room ∨ s.stack.height < room) :
    SameUnlessFull capacity (push capacity value) (push room value) s := by
  by_cases fits : s.stack.height < capacity
  · have fits' : s.stack.height < room := by omega
    exact .inl (by simp [Machine.push, fits, fits'])
  · exact .inr ⟨Nat.le_of_not_lt fits, s, by simp [Machine.push, fits]⟩

/-- Popping lowers the stack or faults. -/
theorem raises_pop : Raises 0 pop := by
  intro s a s' h
  unfold pop at h
  obtain ⟨pc, ⟨values, height, height_eq⟩, memory, console⟩ := s
  cases values with
  | nil => cases h
  | cons value rest =>
    cases h
    exact Nat.sub_le height 1

/-- What only computes leaves the stack alone. -/
theorem raises_liftFault {α : Type} (result : Except Fault α) : Raises 0 (liftFault result) := by
  intro s a s' h
  cases result with
  | ok b =>
    cases h
    exact Nat.le_refl _
  | error fault => cases h

theorem raises_get : Raises 0 (get : Exec State) := by
  intro s a s' h
  cases h
  exact Nat.le_refl _

/-- A change of state raises the stack no more than it says. -/
theorem raises_modify {f : State → State} (h : ∀ s, (f s).stack.height ≤ s.stack.height) :
    Raises 0 (modify f : Exec Unit) := by
  intro s a s' ok
  cases ok
  exact h s

/-- Going on elsewhere leaves the stack alone. -/
theorem raises_goTo (target : Nat) : Raises 0 (goTo target) := by
  intro s a s' ok
  cases ok
  exact Nat.le_refl _

/-- The check of an address leaves the stack alone. -/
theorem raises_slotAt (address : Int32) : Raises 0 (slotAt address) := by
  intro s a s' h
  obtain ⟨_, _, first, h⟩ := bind_eq_ok.1 h
  cases first
  exact raises_liftFault _ _ _ _ h

/-- Reading changes the console only. -/
theorem raises_readInt : Raises 0 (fun s =>
    match s.console.readInt with
    | .ok value console => .ok value { s with console }
    | .error fault console => .error fault { s with console } : Exec Int32) := by
  intro s a s' ok
  cases read : s.console.readInt with
  | ok value console =>
    simp only [read] at ok
    cases ok
    exact Nat.le_refl _
  | error fault console =>
    simp only [read] at ok
    cases ok

section Full

variable {capacity room : Nat} {s : State}

/-- Operators pop before they push, so they meet a full stack only if it was overfull before. -/
theorem sameUnlessFull_applyBinary (f : Int32 → Int32 → Except Fault Int32)
    (h : capacity ≤ room ∨ s.stack.height < room) :
    SameUnlessFull capacity (applyBinary capacity f) (applyBinary room f) s :=
  .bind raises_pop fun _ _ low₁ => .bind raises_pop fun _ _ low₂ =>
    .bind (raises_liftFault _) fun _ _ low₃ => .push _ (by omega)

theorem sameUnlessFull_applyUnary (f : Int32 → Int32)
    (h : capacity ≤ room ∨ s.stack.height < room) :
    SameUnlessFull capacity (applyUnary capacity f) (applyUnary room f) s :=
  .bind raises_pop fun _ _ low => .push _ (by omega)

/-- Duplicating pushes without popping first, and so needs room. -/
theorem sameUnlessFull_duplicate (h : capacity ≤ room ∨ s.stack.height < room) :
    SameUnlessFull capacity (duplicate capacity) (duplicate room) s := by
  refine .bind raises_get fun top s' low => ?_
  cases top.stack.top? with
  | none => exact .refl _ _ _
  | some value => exact .push _ (by omega)

theorem sameUnlessFull_loadSlot (h : capacity ≤ room ∨ s.stack.height < room) :
    SameUnlessFull capacity (loadSlot capacity) (loadSlot room) s :=
  .bind raises_pop fun _ _ low₁ => .bind (raises_slotAt _) fun _ _ low₂ =>
    .bind raises_get fun _ _ low₃ => .push _ (by omega)

theorem sameUnlessFull_inputInt (h : capacity ≤ room ∨ s.stack.height < room) :
    SameUnlessFull capacity (inputInt capacity) (inputInt room) s :=
  .bind raises_readInt fun _ _ low => .push _ (by omega)

/-- Two machines do the same with an instruction, unless the stack of the first is full: the second has a
higher stack, or room on it. -/
theorem sameUnlessFull_step (i : LoadedInstruction) (h : capacity ≤ room ∨ s.stack.height < room) :
    SameUnlessFull capacity (step capacity i) (step room i) s := by
  obtain ⟨op, argument⟩ := i
  cases op
  case push => exact .push _ h
  case dup => exact sameUnlessFull_duplicate h
  case load => exact sameUnlessFull_loadSlot h
  case inputInt => exact sameUnlessFull_inputInt h
  case neg | bitNot | logicNot | notZero => exact sameUnlessFull_applyUnary _ h
  case add | sub | mul | div | mod | bitOr | bitAnd | bitXor | bitShLeft | bitShRight | equals | notEquals
      | gt | lt | gtEq | ltEq | logicAnd | logicOr =>
    exact sameUnlessFull_applyBinary _ h
  all_goals exact .refl _ _ _

end Full

/-- One instruction on a stack with room. -/
def freeStep (i : LoadedInstruction) : Exec Unit :=
  fun s => step (s.stack.height + 1) i s

/-- A machine does what it would with room on its stack, unless the stack is full. -/
theorem step_eq_or_full (capacity : Nat) (i : LoadedInstruction) (s : State) :
    SameUnlessFull capacity (step capacity i) (freeStep i) s :=
  sameUnlessFull_step i (.inr (Nat.lt_succ_self s.stack.height))

/-! ## Height -/

/-- What comes first must not raise the stack, then the rest may raise it by as much as the whole. -/
theorem Raises.bind {α β : Type} {n : Nat} {x : Exec α} {f : α → Exec β} (h : Raises 0 x)
    (h' : ∀ a, Raises n (f a)) : Raises n (x >>= f) := by
  intro s b s'' ok
  obtain ⟨a, s', first, second⟩ := bind_eq_ok.1 ok
  have low := h s a s' first
  have high := h' a s' b s'' second
  omega

theorem Raises.mono {α : Type} {m n : Nat} {x : Exec α} (h : Raises m x) (le : m ≤ n) : Raises n x :=
  fun s a s' ok => Nat.le_trans (h s a s' ok) (Nat.add_le_add_left le _)

/-- A push adds one value. -/
theorem raises_push (capacity : Nat) (value : Int32) : Raises 1 (push capacity value) := by
  intro s a s' ok
  unfold push at ok
  split at ok
  · cases ok
    exact Nat.le_refl _
  · cases ok

theorem raises_throw {α : Type} (fault : Fault) : Raises 0 (throw fault : Exec α) := by
  intro s a s' ok
  cases ok

theorem raises_pure {α : Type} (a : α) : Raises 0 (pure a : Exec α) := by
  intro s b s' ok
  cases ok
  exact Nat.le_refl _

/-- A duplicate is one more value. -/
theorem raises_duplicate (capacity : Nat) : Raises 1 (duplicate capacity) := by
  refine raises_get.bind fun top => ?_
  cases top.stack.top? with
  | none => exact (raises_throw _).mono (Nat.zero_le 1)
  | some value => exact raises_push capacity value

/-- A load puts a value in the place of its address. -/
theorem raises_loadSlot (capacity : Nat) : Raises 1 (loadSlot capacity) :=
  raises_pop.bind fun _ => (raises_slotAt _).bind fun _ => raises_get.bind fun _ =>
    raises_push capacity _

/-- A store takes two values and adds none. -/
theorem raises_storeSlot : Raises 0 storeSlot :=
  raises_pop.bind fun _ => raises_pop.bind fun _ => (raises_slotAt _).bind fun _ =>
    raises_modify fun _ => Nat.le_refl _

/-- A branch takes its condition. -/
theorem raises_branch (condition : Int32 → Bool) (argument : Int32) :
    Raises 0 (branch condition argument) := by
  refine raises_pop.bind fun value => ?_
  split
  · exact raises_goTo _
  · exact raises_pure ()

theorem raises_printInt : Raises 0 printInt :=
  raises_pop.bind fun _ => raises_modify fun _ => Nat.le_refl _

theorem raises_printString : Raises 0 printString :=
  raises_pop.bind fun _ => (raises_slotAt _).bind fun _ => raises_modify fun _ => Nat.le_refl _

/-- Reading a number adds it. -/
theorem raises_inputInt (capacity : Nat) : Raises 1 (inputInt capacity) :=
  raises_readInt.bind fun _ => raises_push capacity _

/-- An operator puts its result in the place of its operands. -/
theorem raises_applyBinary (capacity : Nat) (f : Int32 → Int32 → Except Fault Int32) :
    Raises 1 (applyBinary capacity f) :=
  raises_pop.bind fun _ => raises_pop.bind fun _ => (raises_liftFault _).bind fun _ =>
    raises_push capacity _

theorem raises_applyUnary (capacity : Nat) (f : Int32 → Int32) : Raises 1 (applyUnary capacity f) :=
  raises_pop.bind fun _ => raises_push capacity _

/-- An instruction adds at most one value to the stack. -/
theorem raises_step (capacity : Nat) (i : LoadedInstruction) : Raises 1 (step capacity i) := by
  obtain ⟨op, argument⟩ := i
  cases op
  case push => exact raises_push capacity argument
  case pop => exact raises_pop.bind fun _ => (raises_pure ()).mono (Nat.zero_le 1)
  case dup => exact raises_duplicate capacity
  case load => exact raises_loadSlot capacity
  case store => exact raises_storeSlot.mono (Nat.zero_le 1)
  case jump => exact (raises_goTo _).mono (Nat.zero_le 1)
  case branchEqualZero | branchNotZero => exact (raises_branch _ _).mono (Nat.zero_le 1)
  case label => exact (raises_pure ()).mono (Nat.zero_le 1)
  case printInt => exact raises_printInt.mono (Nat.zero_le 1)
  case printStr => exact raises_printString.mono (Nat.zero_le 1)
  case inputInt => exact raises_inputInt capacity
  case call | ret | inputStr => exact (raises_throw _).mono (Nat.zero_le 1)
  case neg | bitNot | logicNot | notZero => exact raises_applyUnary capacity _
  case add | sub | mul | div | mod | bitOr | bitAnd | bitXor | bitShLeft | bitShRight | equals | notEquals
      | gt | lt | gtEq | ltEq | logicAnd | logicOr =>
    exact raises_applyBinary capacity _

/-! ## Sequences of steps -/

/-- A state leads to another in the given number of steps, with room on the stack. -/
inductive Steps (code : Array LoadedInstruction) : (count : Nat) → State → State → Prop
  | refl (s : State) : Steps code 0 s s
  | step {count : Nat} {s s' s'' : State} {i : LoadedInstruction} :
    code[s.pc]? = some i → freeStep i { s with pc := s.pc + 1 } = .ok () s' → Steps code count s' s'' →
      Steps code (count + 1) s s''

/-- A state leads to a fault, with room on the stack. -/
inductive Faults (code : Array LoadedInstruction) (cause : Fault) : State → State → Prop
  | now {s final : State} {i : LoadedInstruction} :
    code[s.pc]? = some i → freeStep i { s with pc := s.pc + 1 } = .error cause final →
      Faults code cause s final
  | later {s s' final : State} {i : LoadedInstruction} :
    code[s.pc]? = some i → freeStep i { s with pc := s.pc + 1 } = .ok () s' →
      Faults code cause s' final → Faults code cause s final

section Steps

variable {code : Array LoadedInstruction} {m n : Nat} {s s' s'' final : State} {cause : Fault}

/-- Steps follow one another. -/
theorem Steps.trans (h : Steps code m s s') (h' : Steps code n s' s'') : Steps code (m + n) s s'' := by
  induction h with
  | refl s => rwa [Nat.zero_add]
  | step found went _ ih =>
    rw [Nat.add_right_comm]
    exact .step found went (ih h')

theorem Steps.one {i : LoadedInstruction} (found : code[s.pc]? = some i)
    (went : freeStep i { s with pc := s.pc + 1 } = .ok () s') : Steps code 1 s s' :=
  .step found went (.refl s')

/-- A fault after some steps is a fault from their start on. -/
theorem Steps.faults (h : Steps code n s s') (h' : Faults code cause s' final) :
    Faults code cause s final := by
  induction h with
  | refl s => exact h'
  | step found went _ ih => exact .later found went (ih h')

/-- The end of a run, where it takes a machine beyond its capacity. -/
def Overflows (capacity : Nat) (result : Option Ended) : Prop :=
  ∃ final, result = some ⟨.error (.stackOverflow capacity), final⟩

/-- More fuel does not change how a run ends. -/
theorem runFrom_add {capacity fuel : Nat} {s : State} {ended : Ended}
    (h : runFrom capacity code fuel s = some ended) (more : Nat) :
    runFrom capacity code (fuel + more) s = some ended := by
  induction fuel generalizing s with
  | zero => cases h
  | succ fuel ih =>
    rw [Nat.add_right_comm]
    simp only [runFrom] at h ⊢
    split
    · rename_i none
      simpa only [none] using h
    · rename_i i found
      simp only [found] at h
      split
      · rename_i went
        simp only [went] at h
        exact ih h
      · rename_i failed
        simpa only [failed] using h

/-- A run has one end. -/
theorem runFrom_unique {capacity fuel fuel' : Nat} {s : State} {ended ended' : Ended}
    (h : runFrom capacity code fuel s = some ended) (h' : runFrom capacity code fuel' s = some ended') :
    ended = ended' := by
  have more := runFrom_add h fuel'
  have more' := runFrom_add h' fuel
  rw [Nat.add_comm] at more'
  exact Option.some.inj (more.symm.trans more')

/-- A run goes on where its steps lead, unless it overflows the stack on the way. -/
theorem runFrom_of_steps (h : Steps code n s s') (capacity fuel : Nat) :
    runFrom capacity code (n + fuel) s = runFrom capacity code fuel s' ∨
      capacity < s.stack.height + n ∧ Overflows capacity (runFrom capacity code (n + fuel) s) := by
  induction h with
  | refl s => exact .inl (by rw [Nat.zero_add])
  | @step count s s' s'' i found went _ ih =>
    rw [Nat.add_right_comm]
    rcases step_eq_or_full capacity i { s with pc := s.pc + 1 } with same | ⟨full, final, overflow⟩
    · have first : runFrom capacity code (count + fuel + 1) s = runFrom capacity code (count + fuel) s' := by
        simp only [runFrom, found, same, went]
      rw [first]
      refine ih.imp_right fun ⟨low, overflows⟩ => ⟨?_, overflows⟩
      have raised := raises_step _ i _ _ _ went
      simp only at raised
      omega
    · refine .inr ⟨?_, final, by simp only [runFrom, found, overflow]⟩
      simp only at full
      omega

/-- A run has no answer before its steps are over, unless it overflows the stack. -/
theorem runFrom_of_steps_le (h : Steps code n s s') (capacity : Nat) {fuel : Nat} (le : fuel ≤ n) :
    runFrom capacity code fuel s = none ∨ Overflows capacity (runFrom capacity code fuel s) := by
  induction h generalizing fuel with
  | refl s =>
    cases Nat.le_zero.1 le
    exact .inl rfl
  | @step count s s' s'' i found went _ ih =>
    cases fuel with
    | zero => exact .inl rfl
    | succ fuel =>
      rcases step_eq_or_full capacity i { s with pc := s.pc + 1 } with same | ⟨-, final, overflow⟩
      · have first : runFrom capacity code (fuel + 1) s = runFrom capacity code fuel s' := by
          simp only [runFrom, found, same, went]
        rw [first]
        exact ih (by omega)
      · exact .inr ⟨final, by simp only [runFrom, found, overflow]⟩

/-- A run that leads to a fault ends with it, unless it overflows the stack before; with enough room on
the stack it does not. -/
theorem runFrom_of_faults (h : Faults code cause s final) :
    ∃ n, ∀ capacity, runFrom capacity code n s = some ⟨.error cause, final⟩ ∨
      capacity < s.stack.height + n ∧ Overflows capacity (runFrom capacity code n s) := by
  induction h with
  | @now s final i found went =>
    refine ⟨1, fun capacity => ?_⟩
    rcases step_eq_or_full capacity i { s with pc := s.pc + 1 } with same | ⟨full, final, overflow⟩
    · exact .inl (by simp only [runFrom, found, same, went])
    · exact .inr ⟨Nat.lt_succ_of_le full, final, by simp only [runFrom, found, overflow]⟩
  | @later s s' final i found went _ ih =>
    obtain ⟨n, ih⟩ := ih
    refine ⟨1 + n, fun capacity => ?_⟩
    have raised := raises_step _ i _ _ _ went
    simp only at raised
    rcases runFrom_of_steps (.one found went) capacity n with same | ⟨full, overflows⟩
    · rw [same]
      refine (ih capacity).imp_right fun ⟨full, overflows⟩ => ⟨by omega, overflows⟩
    · exact .inr ⟨by omega, overflows⟩

end Steps

end MiniC.Machine
