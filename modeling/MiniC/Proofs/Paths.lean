import MiniC.Proofs.Steps
import MiniC.Proofs.Successes

/-!
# Paths

`Machine.Path` is what a machine does between two states of a run, with the places of the instructions
that it carries out on the way; `Machine.Stops` is how a run ends. `exists_path_of_runFrom` takes every
run apart into these two.

`step_eq_error` says what is true of every instruction that faults. It leaves memory as it is. And if the
cause is a full stack, then with room the instruction would have made the stack higher than the machine
allows; so a bound on the heights that a program comes to with room is a capacity that is enough for it.
-/

namespace MiniC.Machine

/-- The machine leads from a state to another, by the instructions at the given places. -/
inductive Path (m : Machine) : State → List Nat → State → Prop
  | refl (s : State) : m.Path s [] s
  | step {s s' s'' : State} {i : LoadedInstruction} {places : List Nat} :
    m.code[s.pc]? = some i → Machine.step m.capacity i { s with pc := s.pc + 1 } = .ok () s' →
      m.Path s' places s'' → m.Path s (s.pc :: places) s''

/-- The machine stops at a state: there is no next instruction, or it faults. -/
inductive Stops (m : Machine) (s : State) : Ended → Prop
  | done : m.code[s.pc]? = none → m.Stops s ⟨.ok (s.stack.top?.getD 0), s⟩
  | fault {i : LoadedInstruction} {cause : Fault} {final : State} :
    m.code[s.pc]? = some i → Machine.step m.capacity i { s with pc := s.pc + 1 } = .error cause final →
      m.Stops s ⟨.error cause, final⟩

/-- A run that ends is a path to a state where the machine stops. -/
theorem exists_path_of_runFrom {m : Machine} {fuel : Nat} {s : State} {ended : Ended}
    (ran : runFrom m.capacity m.code fuel s = some ended) :
    ∃ places last, m.Path s places last ∧ m.Stops last ended := by
  induction fuel generalizing s with
  | zero => cases ran
  | succ fuel ih =>
    rw [runFrom] at ran
    split at ran
    · rename_i past
      cases ran
      exact ⟨[], s, .refl s, .done past⟩
    · rename_i i found
      split at ran
      · rename_i s' went
        obtain ⟨places, last, path, stops⟩ := ih ran
        exact ⟨s.pc :: places, last, .step found went path, stops⟩
      · rename_i cause final failed
        cases ran
        exact ⟨[], s, .refl s, .fault found failed⟩

/-- The state after a number of instructions, if none of them faults. -/
def advance (m : Machine) : (count : Nat) → State → Option State
  | 0, s => some s
  | count + 1, s =>
    match m.code[s.pc]? with
    | none => none
    | some i =>
      match step m.capacity i { s with pc := s.pc + 1 } with
      | .ok () s' => m.advance count s'
      | .error _ _ => none

/-- As many instructions are on the path as were carried out. -/
theorem exists_path_of_advance {m : Machine} {count : Nat} {s s' : State}
    (went : m.advance count s = some s') : ∃ places, m.Path s places s' ∧ places.length = count := by
  induction count generalizing s with
  | zero =>
    cases went
    exact ⟨[], .refl _, rfl⟩
  | succ count ih =>
    rw [advance] at went
    split at went
    · cases went
    · rename_i i found
      split at went
      · rename_i next first
        obtain ⟨places, path, length⟩ := ih went
        exact ⟨s.pc :: places, .step found first path, congrArg Nat.succ length⟩
      · cases went

/-! ## Faults -/

/-- The computation neither writes to memory nor raises the stack, and asks nothing of the capacity. -/
structure Calm {α : Type} (x : Exec α) : Prop where
  ok : ∀ s a s', x s = .ok a s' → s'.memory = s.memory ∧ s'.stack.height ≤ s.stack.height
  error : ∀ s cause s', x s = .error cause s' →
    s'.memory = s.memory ∧ ∀ full, cause ≠ .stackOverflow full

/-- Where the first computation faults, memory is as it was; and where it finds the stack full, the second
one, which has room, makes the stack higher than the capacity. -/
def FaultsLike {α : Type} (capacity : Nat) (x y : Exec α) (s : State) : Prop :=
  ∀ cause final, x s = .error cause final → final.memory = s.memory ∧
    ∀ full, cause = .stackOverflow full → ∃ a s', y s = .ok a s' ∧ capacity < s'.stack.height

section Calm

variable {α : Type}

/-- A pop may find the stack empty, but never full. -/
theorem calm_pop : Calm pop where
  ok s value s' popped := by
    refine ⟨?_, raises_pop s value s' popped⟩
    obtain ⟨rest, -, rfl⟩ := exists_of_pop popped
    rfl
  error s cause s' failed := by
    unfold pop at failed
    split at failed
    · cases failed
    · cases failed
      exact ⟨rfl, by simp⟩

/-- To look at the state changes nothing. -/
theorem calm_get : Calm (get : Exec State) where
  ok s a s' got := by
    cases got
    exact ⟨rfl, Nat.le_refl _⟩
  error s cause s' failed := by cases failed

/-- A computation without state is calm if it knows nothing of stacks. -/
theorem calm_liftFault {result : Except Fault α} (h : ∀ full, result ≠ .error (.stackOverflow full)) :
    Calm (liftFault result) where
  ok s a s' lifted := by
    rw [(exists_of_liftFault lifted).2]
    exact ⟨rfl, Nat.le_refl _⟩
  error s cause s' failed := by
    cases result with
    | ok a => cases failed
    | error cause =>
      cases failed
      refine ⟨rfl, fun full same => h full ?_⟩
      rw [same]

/-- A bad address is a fault of its own. -/
theorem calm_slotAt (address : Int32) : Calm (slotAt address) where
  ok s a s' found := by
    rw [(exists_of_slotAt found).2.2.2]
    exact ⟨rfl, Nat.le_refl _⟩
  error s cause s' failed := by
    rcases bind_eq_error.1 failed with failed | ⟨_, _, got, failed⟩
    · cases failed
    · cases got
      refine (calm_liftFault fun full same => ?_).error s cause s' failed
      unfold slot at same
      split at same <;> cases same

/-- A fault that is not about the stack changes nothing. -/
theorem calm_throw {cause : Fault} (h : ∀ full, cause ≠ .stackOverflow full) :
    Calm (throw cause : Exec α) where
  ok s a s' went := by cases went
  error s cause s' failed := by
    cases failed
    exact ⟨rfl, h⟩

/-- A console has no stack that could be full. -/
theorem readInt_eq_error {c c' : Console} {cause : Fault} (failed : c.readInt = .error cause c')
    (full : Nat) : cause ≠ .stackOverflow full := by
  rintro rfl
  rcases bind_eq_error.1 failed with failed | ⟨line, c₁, -, failed⟩
  · unfold Console.readLine at failed
    split at failed <;> cases failed
  · cases read : Console.integerOf line with
    | ok value =>
      rw [read] at failed
      cases failed
    | error cause' =>
      rw [read] at failed
      cases failed
      simp only [Console.integerOf] at read
      split at read <;> cases read

/-- Reading an integer, as an instruction does it. -/
theorem calm_readInt : Calm (fun s =>
    match s.console.readInt with
    | .ok value console => .ok value { s with console }
    | .error fault console => .error fault { s with console } : Exec Int32) where
  ok s value s' went := by
    split at went
    · cases went
      exact ⟨rfl, Nat.le_refl _⟩
    · cases went
  error s cause s' failed := by
    split at failed
    · cases failed
    · rename_i read
      cases failed
      exact ⟨rfl, readInt_eq_error read⟩

end Calm

section FaultsLike

variable {α β : Type} {capacity room : Nat} {s : State} {x y : Exec α} {f g : α → Exec β}

/-- Computations that start alike. -/
theorem FaultsLike.bind (calm : Calm x)
    (h : ∀ a s', s'.stack.height ≤ s.stack.height → FaultsLike capacity (f a) (g a) s') :
    FaultsLike capacity (x >>= f) (x >>= g) s := by
  intro cause final failed
  rcases bind_eq_error.1 failed with failed | ⟨a, s', went, failed⟩
  · obtain ⟨memory, other⟩ := calm.error s cause final failed
    exact ⟨memory, fun full same => absurd same (other full)⟩
  · obtain ⟨memory, low⟩ := calm.ok s a s' went
    obtain ⟨memory', high⟩ := h a s' low cause final failed
    refine ⟨memory'.trans memory, fun full same => ?_⟩
    obtain ⟨b, s'', went', high⟩ := high full same
    exact ⟨b, s'', bind_eq_ok.2 ⟨a, s', went, went'⟩, high⟩

/-- A calm computation never finds the stack full, so there is nothing to compare it with. -/
theorem FaultsLike.of_calm (calm : Calm x) : FaultsLike capacity x y s := by
  intro cause final failed
  obtain ⟨memory, other⟩ := calm.error s cause final failed
  exact ⟨memory, fun full same => absurd same (other full)⟩

/-- What succeeds does not fault. -/
theorem FaultsLike.of_ok {a : α} {s' : State} (went : x s = .ok a s') : FaultsLike capacity x y s := by
  intro cause final failed
  cases failed.symm.trans went

/-- A push that finds the stack full would make it higher than the capacity if there were room. -/
theorem FaultsLike.push (value : Int32) (h : s.stack.height < room) :
    FaultsLike capacity (push capacity value) (push room value) s := by
  intro cause final failed
  unfold Machine.push at failed
  split at failed
  · cases failed
  · rename_i filled
    cases failed
    refine ⟨rfl, fun full same => ⟨(), _, if_pos h, ?_⟩⟩
    show capacity < s.stack.height + 1
    omega

/-- A duplicate is a push of the value on top. -/
theorem faultsLike_duplicate (h : s.stack.height < room) :
    FaultsLike capacity (duplicate capacity) (duplicate room) s := by
  refine .bind calm_get fun top s' low => ?_
  cases top.stack.top? with
  | none => exact .of_calm (calm_throw (by simp))
  | some value => exact .push value (by omega)

/-- A branch pushes nothing. -/
theorem faultsLike_branch (condition : Int32 → Bool) (argument : Int32) :
    FaultsLike capacity (branch condition argument) (branch condition argument) s := by
  refine .bind calm_pop fun value s' low => ?_
  split
  · exact .of_ok rfl
  · exact .of_ok rfl

theorem faultsLike_applyUnary (f : Int32 → Int32) (h : s.stack.height < room) :
    FaultsLike capacity (applyUnary capacity f) (applyUnary room f) s :=
  .bind calm_pop fun _ _ low => .push _ (by omega)

/-- An operator pushes its result after taking its operands, and its own faults are others. -/
theorem faultsLike_applyBinary {f : Int32 → Int32 → Except Fault Int32}
    (other : ∀ a b full, f a b ≠ .error (.stackOverflow full)) (h : s.stack.height < room) :
    FaultsLike capacity (applyBinary capacity f) (applyBinary room f) s :=
  .bind calm_pop fun _ _ low₁ => .bind calm_pop fun _ _ low₂ =>
    .bind (calm_liftFault (other _ _)) fun _ _ low₃ => .push _ (by omega)

end FaultsLike

/-- What is true of an instruction that faults. -/
theorem step_eq_error {capacity : Nat} {i : LoadedInstruction} {s final : State} {cause : Fault}
    (failed : step capacity i s = .error cause final) :
    final.memory = s.memory ∧ ∀ full, cause = .stackOverflow full →
      ∃ s', freeStep i s = .ok () s' ∧ capacity < s'.stack.height := by
  have room : s.stack.height < s.stack.height + 1 := Nat.lt_succ_self _
  -- Room for one more value is enough for any instruction.
  suffices FaultsLike capacity (step capacity i) (step (s.stack.height + 1) i) s by
    obtain ⟨memory, high⟩ := this cause final failed
    refine ⟨memory, fun full same => ?_⟩
    obtain ⟨⟨⟩, s', went, high⟩ := high full same
    exact ⟨s', went, high⟩
  obtain ⟨op, argument⟩ := i
  cases op
  case push => exact .push argument room
  case pop => exact .bind calm_pop fun _ _ _ => .of_ok rfl
  case dup => exact faultsLike_duplicate room
  case load =>
    exact .bind calm_pop fun _ _ low₁ => .bind (calm_slotAt _) fun _ _ low₂ =>
      .bind calm_get fun _ _ low₃ => .push _ (by omega)
  case store =>
    exact .bind calm_pop fun _ _ _ => .bind calm_pop fun _ _ _ => .bind (calm_slotAt _) fun _ _ _ =>
      .of_ok rfl
  case jump | label => exact .of_ok rfl
  case branchEqualZero | branchNotZero => exact faultsLike_branch _ argument
  case printInt => exact .bind calm_pop fun _ _ _ => .of_ok rfl
  case printStr => exact .bind calm_pop fun _ _ _ => .bind (calm_slotAt _) fun _ _ _ => .of_ok rfl
  case inputInt => exact .bind calm_readInt fun _ _ low => .push _ (by omega)
  case call | ret | inputStr => exact .of_calm (calm_throw (by simp))
  case neg | bitNot | logicNot | notZero => exact faultsLike_applyUnary _ room
  case div | mod =>
    refine faultsLike_applyBinary (fun a b full => ?_) room
    split <;> simp
  case add | sub | mul | bitOr | bitAnd | bitXor | bitShLeft | bitShRight | equals | notEquals | gt | lt
      | gtEq | ltEq | logicAnd | logicOr =>
    exact faultsLike_applyBinary (by simp) room

end MiniC.Machine
