import MiniC.Proofs.Paths

/-!
# What a run does with its console

A run takes lines from the front of those that wait and prints items after those that are there
(`Console.Passed`). It never looks at what was printed before, so it does the same with other items in front
(`runFrom_mapConsole`); and an instruction that neither prints nor reads does not look at the console at all.

Both follow from one law, `commutes_step`: a change of the console commutes with an instruction, in its
results and in its faults, if prints and reads do not see the change or if the instruction is none of these.
-/

namespace MiniC

/-! ## Steps and changes of the state -/

section Change

variable {ε σ α β : Type}

/-- The end of a step, with a change of the state. -/
def mapState (change : σ → σ) : EStateM.Result ε σ α → EStateM.Result ε σ α
  | .ok a s => .ok a (change s)
  | .error e s => .error e (change s)

/-- The state that a step ends in, with a result or with an error. -/
def endState : EStateM.Result ε σ α → σ
  | .ok _ s => s
  | .error _ s => s

/-- The step does not see the change of the state. -/
def Commutes (change : σ → σ) (x : EStateM ε σ α) : Prop :=
  ∀ s, x (change s) = mapState change (x s)

/-- The step ends in a state that its first state is related to. -/
def Follows (R : σ → σ → Prop) (x : EStateM ε σ α) : Prop :=
  ∀ s, R s (endState (x s))

variable {change : σ → σ} {x : EStateM ε σ α} {f : α → EStateM ε σ β}

/-- A step that only gives a result sees nothing. -/
theorem commutes_pure (a : α) : Commutes change (pure a : EStateM ε σ α) :=
  fun _ => rfl

/-- A step that only faults sees nothing, and leaves the change in place. -/
theorem commutes_throw (e : ε) : Commutes change (throw e : EStateM ε σ α) :=
  fun _ => rfl

/-- Two steps in a row do not see a change if neither does. A fault in the first is the end of both. -/
theorem Commutes.bind (h : Commutes change x) (h' : ∀ a, Commutes change (f a)) :
    Commutes change (x >>= f) := by
  intro s
  have first := h s
  cases went : x s with
  | ok a s' =>
    rw [went] at first
    rw [bind_of_ok first, bind_of_ok went]
    exact h' a s'
  | error e s' =>
    rw [went] at first
    rw [bind_of_error first, bind_of_error went]
    rfl

/-- What a step takes from the state is the same after the change. -/
theorem commutes_get {f : σ → EStateM ε σ β} (same : ∀ s, f (change s) = f s)
    (h : ∀ s, Commutes change (f s)) : Commutes change (get >>= f) := by
  intro s
  rw [bind_of_ok get_apply, bind_of_ok get_apply, same]
  exact h s s

/-- Two changes of the state commute as steps if they do as functions. -/
theorem commutes_modify {g : σ → σ} (h : ∀ s, g (change s) = change (g s)) :
    Commutes change (modify g : EStateM ε σ PUnit) := by
  intro s
  rw [modify_apply, modify_apply, h]
  rfl

/-- What relates every step's states relates those of two steps in a row, also if the first faults. -/
theorem Follows.bind {R : σ → σ → Prop} (trans : ∀ {s s' s''}, R s s' → R s' s'' → R s s'')
    (h : Follows R x) (h' : ∀ a, Follows R (f a)) : Follows R (x >>= f) := by
  intro s
  have first := h s
  cases went : x s with
  | ok a s' =>
    rw [went] at first
    rw [bind_of_ok went]
    exact trans first (h' a s')
  | error e s' =>
    rw [went] at first
    rw [bind_of_error went]
    exact first

end Change

/-! ## Consoles -/

/-- The instructions that print or read. -/
def OpCode.converses : OpCode → Bool
  | .printInt | .printStr | .inputInt => true
  | _ => false

namespace Console

/-- Between the two consoles the given lines were read and the given items printed. -/
structure Passed (before : Console) (read : List String) (printed : Array String) (after : Console) :
    Prop where
  pending : before.pending = read ++ after.pending
  printed : after.printed = before.printed ++ printed
  inputEnd : after.inputEnd = before.inputEnd

/-- Nothing but reads and prints happened between the two consoles. -/
def Leads (before after : Console) : Prop :=
  ∃ read printed, before.Passed read printed after

theorem Leads.refl (c : Console) : c.Leads c :=
  ⟨[], #[], rfl, by simp, rfl⟩

/-- Lines are read and items are printed one part after the other. -/
theorem Leads.trans {c c' c'' : Console} (h : c.Leads c') (h' : c'.Leads c'') : c.Leads c'' := by
  obtain ⟨read, printed, first⟩ := h
  obtain ⟨read', printed', second⟩ := h'
  refine ⟨read ++ read', printed ++ printed', ?_, ?_, second.inputEnd.trans first.inputEnd⟩
  · rw [first.pending, second.pending, List.append_assoc]
  · rw [second.printed, first.printed, Array.append_assoc]

/-- A print adds one item and reads nothing. -/
theorem leads_printString (c : Console) (text : String) : c.Leads (c.printString text) :=
  ⟨[], #[text], rfl, by simp [printString], rfl⟩

/-- Reading a line takes it from the front. Where no line waits, nothing is taken, be it a fault or an empty line. -/
theorem follows_readLine : Follows Leads readLine := by
  intro ⟨pending, printed, inputEnd⟩
  cases pending with
  | cons line rest => exact ⟨[line], #[], rfl, by simp [readLine, endState], rfl⟩
  | nil =>
    cases inputEnd with
    | emptyLine => exact .refl _
    | exhausted => exact .refl _

/-- Reading an integer takes the line that it looks at, also if there is no integer in it. -/
theorem follows_readInt : Follows Leads readInt := by
  refine follows_readLine.bind Leads.trans fun line => ?_
  cases integerOf line with
  | ok value => exact .refl
  | error fault => exact .refl

/-- The console with items in front of what it printed. -/
def withPrior (prior : Array String) (c : Console) : Console :=
  { c with printed := prior ++ c.printed }

/-- The change is not seen by prints and reads. -/
structure Unseen (change : Console → Console) : Prop where
  print : ∀ c text, change (c.printString text) = (change c).printString text
  read : Commutes change readInt

/-- Prints go after what is there and reads look at the lines only, so items in front are not seen. -/
theorem unseen_withPrior (prior : Array String) : Unseen (withPrior prior) where
  print c text := by simp [withPrior, printString]
  read := by
    have line : Commutes (withPrior prior) readLine := by
      intro ⟨pending, printed, inputEnd⟩
      cases pending with
      | cons line rest => rfl
      | nil =>
        cases inputEnd with
        | emptyLine => rfl
        | exhausted => rfl
    refine line.bind fun line => ?_
    cases integerOf line with
    | ok value => exact commutes_pure value
    | error fault => exact commutes_throw fault

/-- How much was printed and read so far: every item and every line counts for one. -/
def traffic (c : Console) : Int :=
  c.printed.size - c.pending.length

@[simp]
theorem traffic_printString (c : Console) (text : String) :
    (c.printString text).traffic = c.traffic + 1 := by
  simp only [traffic, printString, Array.size_push]
  omega

/-- An integer is read from a line: the empty line that stands for the end of a text holds none. -/
theorem traffic_of_readInt {c c' : Console} {value : Int32} (read : c.readInt = .ok value c') :
    c'.traffic = c.traffic + 1 := by
  obtain ⟨line, c₁, taken, found⟩ := bind_eq_ok.1 read
  have same : c' = c₁ := by
    cases number : integerOf line with
    | error fault =>
      rw [number] at found
      cases found
    | ok value' =>
      rw [number] at found
      cases found
      rfl
  obtain ⟨pending, printed, inputEnd⟩ := c
  cases pending with
  | cons first rest =>
    cases taken
    rw [same]
    simp only [traffic, List.length_cons]
    omega
  | nil =>
    cases inputEnd with
    | exhausted => cases taken
    | emptyLine =>
      cases taken
      cases found

end Console

namespace Machine

/-! ## Instructions -/

/-- The state with a change of its console. -/
def State.mapConsole (change : Console → Console) (s : State) : State :=
  { s with console := change s.console }

section Commutes

variable {change : Console → Console}

/-- The stack is not the console. -/
theorem commutes_pop : Commutes (State.mapConsole change) pop := by
  intro ⟨pc, ⟨values, height, height_eq⟩, memory, console⟩
  cases values with
  | nil => rfl
  | cons value rest => rfl

/-- Whether there is room for a value depends on the stack only. -/
theorem commutes_push (capacity : Nat) (value : Int32) :
    Commutes (State.mapConsole change) (push capacity value) := by
  intro s
  by_cases room : s.stack.height < capacity
  · have room' : (s.mapConsole change).stack.height < capacity := room
    rw [push, push, if_pos room, if_pos room']
    rfl
  · have full : ¬(s.mapConsole change).stack.height < capacity := room
    rw [push, push, if_neg room, if_neg full]
    rfl

/-- A computation without state sees nothing of it. -/
theorem commutes_liftFault {α : Type} (result : Except Fault α) :
    Commutes (State.mapConsole change) (liftFault result) := by
  cases result with
  | ok a => exact commutes_pure a
  | error fault => exact commutes_throw fault

/-- An address is checked against the memory, which the change leaves as it is. -/
theorem commutes_slotAt (address : Int32) : Commutes (State.mapConsole change) (slotAt address) :=
  commutes_get (fun _ => rfl) fun _ => commutes_liftFault _

/-- The top of the stack is the same after the change. -/
theorem commutes_duplicate (capacity : Nat) : Commutes (State.mapConsole change) (duplicate capacity) := by
  refine commutes_get (fun _ => rfl) fun s => ?_
  cases s.stack.top? with
  | none => exact commutes_throw Fault.stackUnderflow
  | some value => exact commutes_push capacity value

/-- A load reads the memory and the stack. -/
theorem commutes_loadSlot (capacity : Nat) : Commutes (State.mapConsole change) (loadSlot capacity) :=
  commutes_pop.bind fun _ => (commutes_slotAt _).bind fun _ =>
    commutes_get (fun _ => rfl) fun _ => commutes_push capacity _

/-- A store writes to the memory, and the change writes to the console; they do not meet. -/
theorem commutes_storeSlot : Commutes (State.mapConsole change) storeSlot :=
  commutes_pop.bind fun _ => commutes_pop.bind fun _ => (commutes_slotAt _).bind fun _ =>
    commutes_modify fun _ => rfl

/-- A branch goes by the value on the stack. -/
theorem commutes_branch (condition : Int32 → Bool) (argument : Int32) :
    Commutes (State.mapConsole change) (branch condition argument) := by
  refine commutes_pop.bind fun value => ?_
  split
  · exact fun _ => rfl
  · exact commutes_pure ()

/-- Operators work on the stack alone, be it that they give a value or fault. -/
theorem commutes_applyBinary (capacity : Nat) (f : Int32 → Int32 → Except Fault Int32) :
    Commutes (State.mapConsole change) (applyBinary capacity f) :=
  commutes_pop.bind fun _ => commutes_pop.bind fun _ => (commutes_liftFault _).bind fun _ =>
    commutes_push capacity _

/-- Operators before their operand work on the stack alone. -/
theorem commutes_applyUnary (capacity : Nat) (f : Int32 → Int32) :
    Commutes (State.mapConsole change) (applyUnary capacity f) :=
  commutes_pop.bind fun _ => commutes_push capacity _

/-- An integer is printed as a string, which the change does not disturb. -/
theorem commutes_printInt (h : Console.Unseen change) : Commutes (State.mapConsole change) printInt := by
  refine commutes_pop.bind fun value => commutes_modify fun s => ?_
  simp only [State.mapConsole, Console.printInt, h.print]

/-- The string comes from the memory; only that it is printed concerns the console. -/
theorem commutes_printString (h : Console.Unseen change) :
    Commutes (State.mapConsole change) printString := by
  refine commutes_pop.bind fun address => (commutes_slotAt _).bind fun index => commutes_modify fun s => ?_
  simp only [State.mapConsole, h.print]

/-- What is read is the same after the change, and so is the fault if there is no integer. The push sees only the
stack. -/
theorem commutes_inputInt (h : Console.Unseen change) (capacity : Nat) :
    Commutes (State.mapConsole change) (inputInt capacity) := by
  refine Commutes.bind (fun s => ?_) fun value => commutes_push capacity value
  have read := h.read s.console
  have console : (s.mapConsole change).console = change s.console := rfl
  rw [console, read]
  cases s.console.readInt with
  | ok value c => rfl
  | error fault c => rfl

/-- Prints and reads are all that an instruction can see of the console. -/
theorem commutes_step (capacity : Nat) (i : LoadedInstruction)
    (h : i.op.converses → Console.Unseen change) : Commutes (State.mapConsole change) (step capacity i) := by
  obtain ⟨op, argument⟩ := i
  cases op
  case push => exact commutes_push capacity argument
  case pop => exact commutes_pop.bind fun _ => commutes_pure ()
  case dup => exact commutes_duplicate capacity
  case load => exact commutes_loadSlot capacity
  case store => exact commutes_storeSlot
  case jump => exact fun _ => rfl
  case branchEqualZero | branchNotZero => exact commutes_branch _ argument
  case label => exact commutes_pure ()
  case printInt => exact commutes_printInt (h rfl)
  case printStr => exact commutes_printString (h rfl)
  case inputInt => exact commutes_inputInt (h rfl) capacity
  case call | ret | inputStr => exact commutes_throw _
  case neg | bitNot | logicNot | notZero => exact commutes_applyUnary capacity _
  case add | sub | mul | div | mod | bitOr | bitAnd | bitXor | bitShLeft | bitShRight | equals | notEquals
      | gt | lt | gtEq | ltEq | logicAnd | logicOr =>
    exact commutes_applyBinary capacity _

/-- An instruction that neither prints nor reads does not see the console. -/
theorem commutes_of_silent {i : LoadedInstruction} (silent : i.op.converses = false) (capacity : Nat) :
    Commutes (State.mapConsole change) (step capacity i) :=
  commutes_step capacity i fun talks => absurd (silent.symm.trans talks) Bool.false_ne_true

end Commutes

/-- What does not see any change of the console does not change it. -/
theorem console_of_commutes {α : Type} {x : Exec α} (h : ∀ change, Commutes (State.mapConsole change) x)
    (s : State) : (endState (x s)).console = s.console := by
  have same : x s = mapState (State.mapConsole fun _ => s.console) (x s) := h (fun _ => s.console) s
  rw [same]
  cases x s with
  | ok a s' => rfl
  | error fault s' => rfl

/-- An instruction that neither prints nor reads leaves the console as it is. -/
theorem console_of_silent {i : LoadedInstruction} (silent : i.op.converses = false) (capacity : Nat)
    (s : State) : (endState (step capacity i s)).console = s.console :=
  console_of_commutes (fun _ => commutes_of_silent silent capacity) s

/-- Between the two states there were only reads and prints. -/
def State.Leads (s s' : State) : Prop :=
  s.console.Leads s'.console

/-- States lead on from one to the next as their consoles do. -/
theorem State.Leads.trans {s s' s'' : State} (h : s.Leads s') (h' : s'.Leads s'') : s.Leads s'' :=
  Console.Leads.trans h h'

/-- A step that does not see the console leaves it alone, which is to read and to print nothing. -/
theorem follows_of_commutes {α : Type} {x : Exec α} (h : ∀ change, Commutes (State.mapConsole change) x) :
    Follows State.Leads x := by
  intro s
  rw [State.Leads, console_of_commutes h s]
  exact .refl _

/-- A print of an integer prints one item. -/
theorem follows_printInt : Follows State.Leads printInt :=
  (follows_of_commutes fun _ => commutes_pop).bind State.Leads.trans fun _ _ =>
    Console.leads_printString _ _

/-- A print of a string prints one item, or faults before it does. -/
theorem follows_printString : Follows State.Leads printString :=
  (follows_of_commutes fun _ => commutes_pop).bind State.Leads.trans fun _ =>
    (follows_of_commutes fun _ => commutes_slotAt _).bind State.Leads.trans fun _ _ =>
      Console.leads_printString _ _

/-- Reading an integer into the stack reads from the console, whether or not there is room for the integer. -/
theorem follows_inputInt (capacity : Nat) : Follows State.Leads (inputInt capacity) := by
  refine Follows.bind State.Leads.trans (fun s => ?_) fun value =>
    follows_of_commutes fun _ => commutes_push capacity value
  have read := Console.follows_readInt s.console
  cases went : s.console.readInt with
  | ok value c =>
    rw [went] at read
    exact read
  | error fault c =>
    rw [went] at read
    exact read

/-- An instruction reads lines and prints items, and does nothing else with the console. -/
theorem follows_step (capacity : Nat) (i : LoadedInstruction) : Follows State.Leads (step capacity i) := by
  obtain ⟨op, argument⟩ := i
  cases talks : op.converses with
  | false => exact follows_of_commutes fun _ => @commutes_of_silent _ ⟨op, argument⟩ talks capacity
  | true =>
    cases op
    case printInt => exact follows_printInt
    case printStr => exact follows_printString
    case inputInt => exact follows_inputInt capacity
    all_goals cases talks

/-! ## Runs -/

/-- How a run ended, with a change of the console. -/
def Ended.mapConsole (change : Console → Console) (ended : Ended) : Ended :=
  { ended with final := ended.final.mapConsole change }

/-- A run does not see what its instructions do not see. -/
theorem runFrom_mapConsole {change : Console → Console} (h : Console.Unseen change) (capacity : Nat)
    (code : Array LoadedInstruction) (fuel : Nat) (s : State) :
    runFrom capacity code fuel (s.mapConsole change) =
      (runFrom capacity code fuel s).map (Ended.mapConsole change) := by
  induction fuel generalizing s with
  | zero => rfl
  | succ fuel ih =>
    have found' : code[(s.mapConsole change).pc]? = code[s.pc]? := rfl
    cases found : code[s.pc]? with
    | none =>
      rw [found] at found'
      simp only [runFrom, found, found']
      rfl
    | some i =>
      rw [found] at found'
      have went' : step capacity i { s.mapConsole change with pc := (s.mapConsole change).pc + 1 } =
          mapState (State.mapConsole change) (step capacity i { s with pc := s.pc + 1 }) :=
        commutes_step capacity i (fun _ => h) { s with pc := s.pc + 1 }
      cases went : step capacity i { s with pc := s.pc + 1 } with
      | ok u s' =>
        simp only [runFrom, found, found', went, went', mapState]
        exact ih s'
      | error fault final =>
        simp only [runFrom, found, found', went, went', mapState]
        rfl

/-- A run reads lines and prints items, and does nothing else with its console. -/
theorem leads_of_runFrom {capacity : Nat} {code : Array LoadedInstruction} {fuel : Nat} {s : State}
    {ended : Ended} (ran : runFrom capacity code fuel s = some ended) :
    s.console.Leads ended.final.console := by
  induction fuel generalizing s with
  | zero => cases ran
  | succ fuel ih =>
    rw [runFrom] at ran
    split at ran
    · cases ran
      exact .refl _
    · rename_i i found
      have first := follows_step capacity i { s with pc := s.pc + 1 }
      split at ran
      · rename_i s' went
        rw [went] at first
        exact first.trans (ih ran)
      · rename_i fault final went
        rw [went] at first
        cases ran
        exact first

end Machine

end MiniC
