import MiniC.Proofs.Annotation
import MiniC.Proofs.TruthValues

/-!
# The faults of compiled sources

A compiled source stops for few reasons: its stack is full, a divisor is zero, there is nothing or
nothing sensible to read, or an address is not in memory. The last one takes an index expression,
because the variables and the literals of a source lie in memory and nothing else is ever addressed.

The frames of `MiniC.Proofs.Discipline` are what makes this true. An instruction finds as many values on the
stack as it takes, and without index expressions what it takes for an address is that of a variable or of a
literal; so the faults of an instruction are followed through its parts (`Machine.FaultsExpected`), and the
rest is that every state of a run has its frame. `Source.run_faults_expected` puts this together.
-/

namespace MiniC

/-- The faults that a compiled source can come to besides a stack overflow, where `indexed` says whether
it has an index expression. -/
def Fault.Expected (indexed : Prop) : Fault → Prop
  | .divisionByZero | .inputExhausted | .notAnInteger _ => True
  | .invalidAddress .. => indexed
  | .stackOverflow _ | .stackUnderflow | .unknownLabel _ | .labelAlreadyInUse _ | .emptyLabel _
  | .invalidAlignment .. | .invalidInstruction _ => False

theorem Fault.Expected.mono {indexed indexed' : Prop} (weaker : indexed → indexed') {cause : Fault}
    (expected : cause.Expected indexed) : cause.Expected indexed' := by
  cases cause with
  | invalidAddress => exact weaker expected
  | divisionByZero | inputExhausted | notAnInteger => trivial
  | stackOverflow | stackUnderflow | unknownLabel | labelAlreadyInUse | emptyLabel | invalidAlignment
  | invalidInstruction => exact expected.elim

/-- An address is in a memory of the given size. -/
def Inside (size : Nat) (address : Int32) : Prop :=
  0 ≤ address.toInt ∧ address.toInt < size

/-- Offsets in a memory that is not too large are addresses in it. -/
theorem Inside.of_lt {size offset : Nat} (fits : size ≤ 2147483647) (lt : offset < size) :
    Inside size (.ofNat offset) := by
  unfold Inside
  rw [Int32.toInt_ofNat_of_lt (by omega)]
  omega

/-! ## Parts of an instruction -/

/-- Reading fails for the reasons that it has in the source as well: there is no line, or no number in it. -/
theorem Console.expected_readInt {indexed : Prop} {c c' : Console} {cause : Fault}
    (failed : c.readInt = .error cause c') : cause.Expected indexed := by
  rcases bind_eq_error.1 failed with failed | ⟨line, c₁, -, failed⟩
  · unfold Console.readLine at failed
    split at failed <;> cases failed
    trivial
  · cases read : Console.integerOf line with
    | ok value =>
      rw [read] at failed
      cases failed
    | error cause' =>
      rw [read] at failed
      cases failed
      simp only [Console.integerOf] at read
      split at read <;> cases read
      trivial

/-- An operator fails for a zero divisor only. -/
theorem BinaryOp.expected_apply {indexed : Prop} {op : BinaryOp} {a b : Int32} {cause : Fault}
    (failed : op.apply a b = .error cause) : cause.Expected indexed := by
  cases op with
  | div | mod =>
    simp only [BinaryOp.apply] at failed
    split at failed
    · cases failed
      trivial
    · cases failed
  | add | sub | mul | bitAnd | bitOr | bitXor | shiftLeft | shiftRight | and | or | eq | notEq | lt | gt | ltEq
  | gtEq => cases failed

namespace Machine

/-- On the given state the computation comes to no faults but a full stack and the expected ones. -/
def FaultsExpected {α : Type} (capacity : Nat) (indexed : Prop) (x : Exec α) (s : State) : Prop :=
  ∀ cause final, x s = .error cause final → cause = .stackOverflow capacity ∨ cause.Expected indexed

namespace FaultsExpected

variable {α β : Type} {capacity : Nat} {indexed : Prop} {x : Exec α} {f : α → Exec β} {s s' : State}

theorem of_ok {a : α} (went : x s = .ok a s') : FaultsExpected capacity indexed x s := by
  intro cause final failed
  cases failed.symm.trans went

theorem bind (first : FaultsExpected capacity indexed x s)
    (second : ∀ a s', x s = .ok a s' → FaultsExpected capacity indexed (f a) s') :
    FaultsExpected capacity indexed (x >>= f) s := by
  intro cause final failed
  rcases bind_eq_error.1 failed with failed | ⟨a, s', went, failed⟩
  · exact first cause final failed
  · exact second a s' went cause final failed

theorem push (value : Int32) : FaultsExpected capacity indexed (push capacity value) s := by
  intro cause final failed
  unfold Machine.push at failed
  split at failed
  · cases failed
  · cases failed
    exact .inl rfl

theorem liftFault {result : Except Fault α} (expected : ∀ cause, result = .error cause → cause.Expected indexed) :
    FaultsExpected capacity indexed (liftFault result) s := by
  intro cause final failed
  cases result with
  | ok a => cases failed
  | error cause =>
    cases failed
    exact .inr (expected cause rfl)

/-- A value is taken from a stack that has one. -/
theorem pop_bind {f : Int32 → Exec β} {value : Int32} {rest : List Int32}
    (stack : s.stack.values = value :: rest)
    (next : FaultsExpected capacity indexed (f value) (s.withValues rest)) :
    FaultsExpected capacity indexed (pop >>= f) s := by
  have popped : pop s = .ok value (s.withValues rest) := by
    obtain ⟨pc, ⟨values, height, height_eq⟩, memory, console⟩ := s
    subst height_eq
    cases stack
    rfl
  refine .bind (.of_ok popped) fun a s' went => ?_
  cases popped.symm.trans went
  exact next

/-- A slot is looked up at an address that is in memory, if there is no index expression. -/
theorem slotAt_bind {f : Nat → Exec β} {address : Int32} (inside : ¬indexed → Inside s.memory.size address)
    (next : ∀ index, FaultsExpected capacity indexed (f index) s) :
    FaultsExpected capacity indexed (slotAt address >>= f) s := by
  refine .bind (.bind (.of_ok rfl) fun _ _ got => ?_) fun index s' found => ?_
  · cases got
    refine .liftFault fun cause failed => ?_
    unfold slot at failed
    split at failed
    · cases failed
    · rename_i outside
      cases failed
      exact Classical.byContradiction fun plain => outside (inside plain)
  · obtain ⟨-, -, -, rfl⟩ := exists_of_slotAt found
    exact next index

/-- A value is loaded from an address on the stack that is in memory, if there is no index expression. -/
theorem load {address : Int32} {rest : List Int32} (argument : Int32)
    (stack : s.stack.values = address :: rest) (inside : ¬indexed → Inside s.memory.size address) :
    FaultsExpected capacity indexed (step capacity ⟨.load, argument⟩) s := by
  refine .pop_bind stack (.slotAt_bind inside fun index => ?_)
  exact .bind (.of_ok rfl) fun _ _ _ => .push _

theorem inputInt : FaultsExpected capacity indexed (inputInt capacity) s := by
  refine .bind (fun cause final failed => .inr ?_) fun value s' _ => .push value
  cases read : s.console.readInt with
  | ok value console =>
    rw [read] at failed
    cases failed
  | error fault console =>
    rw [read] at failed
    cases failed
    exact Console.expected_readInt read

end FaultsExpected

end Machine

/-! ## Instructions and their frames -/

namespace Discipline

variable {d : Discipline} {σ μ : Frame} {i : Instruction} {s : Machine.State} {values kept : List Int32}

/-- An instruction of a frame comes to expected faults only, on a stack with the values of the frame and in a
memory that holds the variables and the literals. -/
theorem faultsExpected_of_moves (capacity : Nat) (moves : Moves d.vocabulary σ i μ)
    (holds : List.Forall₂ d.Holds values σ) (stack : s.stack.values = values ++ kept)
    (inside : ¬d.vocabulary.indexed → ∀ {label address},
      d.vocabulary.IsVariable label ∨ d.vocabulary.IsLiteral label →
        (Word.address label).Means d.machine address → Inside s.memory.size address) :
    Machine.FaultsExpected capacity d.vocabulary.indexed
      (Machine.step capacity (d.machine.loadedInstruction i)) s := by
  cases moves with
  | pushInt | pushTruth | pushLabel => exact .push _
  | load known =>
    cases holds with
    | cons first _ =>
      -- Without index expressions the address is that of a variable, and so inside memory.
      refine .load _ stack fun plain => ?_
      obtain ⟨label, rfl, stored⟩ := known plain
      exact inside plain (.inl stored) (first plain)
  | loadBool bool =>
    cases holds with
    | cons first _ =>
      refine .load _ stack fun plain => ?_
      obtain ⟨id, labelled, -⟩ := bool
      exact inside plain (.inl ⟨id, labelled⟩) (first plain)
  | @unary σ op code w found =>
    rw [Machine.loadedInstruction_plain, Machine.step_of_unary? (Machine.unary?_unaryOpCode found).1]
    cases holds with
    | cons _ _ => exact .pop_bind stack (.push _)
  | binary op b a =>
    rw [Machine.loadedInstruction_plain, Machine.step_of_binary? (Machine.binary?_binaryOpCode op)]
    cases holds with
    | cons _ holds =>
      cases holds with
      | cons _ _ =>
        refine .pop_bind stack (.pop_bind rfl (.bind (.liftFault fun cause failed => ?_) fun _ _ _ => .push _))
        exact BinaryOp.expected_apply failed
  | store suits =>
    cases holds with
    | cons _ holds =>
      cases holds with
      | cons second _ =>
        refine .pop_bind stack (.pop_bind rfl (.slotAt_bind (fun plain => ?_) fun _ => .of_ok rfl))
        obtain ⟨label, rfl, known, -⟩ := suits plain
        exact inside plain (.inl known) (second plain)
  | mark | jump => exact .of_ok rfl
  | branchIfZero | branchIfNotZero =>
    cases holds with
    | cons _ _ =>
      refine .pop_bind stack ?_
      split
      · exact .of_ok rfl
      · exact .of_ok rfl
  | printInt =>
    cases holds with
    | cons _ _ => exact .pop_bind stack (.of_ok rfl)
  | printStr literal =>
    cases holds with
    | cons first _ =>
      refine .pop_bind stack (.slotAt_bind (fun plain => ?_) fun _ => .of_ok rfl)
      obtain ⟨label, rfl, known⟩ := literal plain
      exact inside plain (.inr known) (first plain)
  | inputInt => exact .inputInt

/-- Where a state of the frames has an instruction that faults, the fault is expected. -/
theorem Situated.fault_expected (h : d.Situated kept s)
    (inside : ¬d.vocabulary.indexed → d.Intact s.memory → ∀ {label address},
      d.vocabulary.IsVariable label ∨ d.vocabulary.IsLiteral label →
        (Word.address label).Means d.machine address → Inside s.memory.size address)
    {i : LoadedInstruction} (found : d.machine.code[s.pc]? = some i) {cause : Fault} {final : Machine.State}
    (failed : Machine.step d.machine.capacity i { s with pc := s.pc + 1 } = .error cause final) :
    cause = .stackOverflow d.capacity ∨ cause.Expected d.vocabulary.indexed := by
  obtain ⟨cell, values, σ, μ, -, rfl, stack, holds, moves, -⟩ := h.exists_moves found
  have capacity : d.machine.capacity = d.capacity := d.program.capacity_machine d.capacity
  rw [capacity] at failed
  exact faultsExpected_of_moves (s := { s with pc := s.pc + 1 }) d.capacity moves holds stack
    (fun plain => inside plain (h.intact plain)) cause final failed

end Discipline

/-! ## Runs -/

namespace CheckedSource.Lowers

variable {checked : CheckedSource} (h : checked.Lowers) {capacity : Nat}
  (fits : (checked.program.machine capacity).memory.size ≤ 2147483647)

include h fits

/-- The variables and the literals of a checked source lie in the memory of its program. -/
theorem inside_of_means {indexed : Prop} {label : String} {address : Int32}
    (known : (h.vocabulary indexed).IsVariable label ∨ (h.vocabulary indexed).IsLiteral label)
    (means : (Word.address label).Means (checked.program.machine capacity) address) :
    Inside (checked.program.machine capacity).memory.size address := by
  have offset : ∃ offset, (checked.program.machine capacity).dataOffset? label = some offset ∧
      offset < (checked.program.machine capacity).memory.size := by
    rcases known with ⟨id, labelled⟩ | ⟨entry, mem, rfl⟩
    · obtain ⟨offset, found, inside⟩ := h.exists_variableOffset labelled capacity
      exact ⟨offset, found, Nat.lt_of_lt_of_le (Nat.lt_add_of_pos_right (by decide)) inside⟩
    · obtain ⟨b, -, label, size, offset, found, inside⟩ := h.exists_literalOffset mem capacity
      exact ⟨offset, label ▸ found, by omega⟩
  obtain ⟨offset, found, lt⟩ := offset
  rw [Word.Means, found, Option.getD_some] at means
  rw [means]
  exact .of_lt fits lt

/-- A run of a checked source that faults does so with a full stack or an expected fault. With an index expression
every address is expected to be wrong, and only the heights of the frames matter; without one also their words. -/
theorem fault_expected (short : checked.program.code.length ≤ 4294967296) {console : Console} {places : List Nat}
    {s : Machine.State}
    (path : (checked.program.machine capacity).Path ((checked.program.machine capacity).start console) places s)
    {i : LoadedInstruction} (found : (checked.program.machine capacity).code[s.pc]? = some i) {cause : Fault}
    {final : Machine.State}
    (failed : Machine.step (checked.program.machine capacity).capacity i { s with pc := s.pc + 1 } =
      .error cause final) :
    cause = .stackOverflow capacity ∨ cause.Expected checked.tree.HasIndex := by
  by_cases index : checked.tree.HasIndex
  · obtain ⟨kept, situated, -⟩ := (h.situated_start capacity short console).path path
    exact (situated.fault_expected (fun plain => absurd trivial plain) found failed).imp_right
      (Fault.Expected.mono fun _ => index)
  · obtain ⟨kept, situated, -⟩ := (h.typed_start index fits short console).path path
    refine (situated.fault_expected (fun _ typed => ?_) found failed).imp_right (Fault.Expected.mono False.elim)
    intro label address known means
    rw [show s.memory.size = _ from typed.size]
    exact h.inside_of_means fits known means

end CheckedSource.Lowers

/-- A compiled source loads, and each of its runs that ends does so without a fault, with a stack
overflow, or with an expected fault: a division by zero, a failed read, or an address that is not in
memory, which takes an index expression in the source. The bound on memory is that within which every address
fits into an argument, and the bound on the code that within which the place of a mark can be told from a
lower one by the 32 bits of an argument. -/
theorem Source.run_faults_expected {source : String} {options : Options} {p : Program}
    (lowered : Source.lower source options = .ok p) (capacity : Nat) :
    ∃ (tree : Block) (m : Machine), Source.parse source (!options.stripComments) = .ok tree ∧
      Machine.load p { capacity } = .ok () m ∧
      (m.memory.size ≤ 2147483647 → p.code.length ≤ 4294967296 →
        ∀ (console : Console) (fuel : Nat) (ended : Machine.Ended), m.run fuel console = some ended →
          (∃ value, ended.outcome = .ok value) ∨ ∃ cause, ended.outcome = .error cause ∧
            (cause = .stackOverflow capacity ∨ cause.Expected tree.HasIndex)) := by
  obtain ⟨checked, table, hcheck, -, h, rfl, -⟩ := Source.lower_eq_ok lowered
  obtain ⟨tree, hparse, erased⟩ := Source.erase_check hcheck
  refine ⟨tree, checked.program.machine capacity, hparse, ?_, fun fits short console fuel ended ran => ?_⟩
  · exact Machine.load_eq_ok_iff.2 ⟨h.wellLabelled, rfl⟩
  have index : checked.tree.HasIndex = tree.HasIndex := by
    rw [← checked.tree.hasIndex_erase, erased, tree.hasIndex_erase]
  obtain ⟨places, last, path, stops⟩ := Machine.exists_path_of_runFrom ran
  cases stops with
  | done past => exact .inl ⟨_, rfl⟩
  | fault found failed =>
    rw [← index]
    exact .inr ⟨_, rfl, h.fault_expected fits short path found failed⟩

set_option maxRecDepth 100000 in
/-- An element far out of range leads out of memory, and it takes an index expression to get there. -/
theorem Source.run_faults_expected_element :
    ∃ (source : String) (p : Program) (tree : Block) (m : Machine) (ended : Machine.Ended),
      source = "\x7b int[2] s; int i = 100; print s[i]; \x7d" ∧ Source.lower source = .ok p ∧
      Source.parse source false = .ok tree ∧ Machine.load p {} = .ok () m ∧
      m.memory.size ≤ 2147483647 ∧ p.code.length ≤ 4294967296 ∧ m.run 200 {} = some ended ∧
      ended.outcome = .error (.invalidAddress 404 12) ∧ tree.HasIndex := by
  generalize hsource : "\x7b int[2] s; int i = 100; print s[i]; \x7d" = source
  have runs : (Source.lower source).toOption.any (fun p =>
      ((p.machine 1024).run 200 {}).any fun ended =>
        decide ((p.machine 1024).memory.size ≤ 2147483647 ∧ p.code.length ≤ 4294967296) &&
          ended.outcome.casesOn (motive := fun _ => Bool) (· == .invalidAddress 404 12) fun _ => false) =
      true := by
    subst hsource
    decide +kernel
  refine ⟨source, ?_⟩
  cases lowered : Source.lower source with
  | error e => simp [lowered, Except.toOption] at runs
  | ok p =>
    obtain ⟨tree, m, hparse, loads, faults⟩ := Source.run_faults_expected lowered 1024
    obtain rfl := (Machine.load_eq_ok_iff.1 loads).2
    simp only [lowered, Except.toOption, Option.any_some, Option.any_eq_true, Bool.and_eq_true,
      decide_eq_true_eq] at runs
    obtain ⟨ended, ran, ⟨fits, short⟩, failed⟩ := runs
    rcases faults fits short {} 200 ended ran with ⟨value, other⟩ | ⟨cause, outcome, expected⟩
    · simp [other] at failed
    · rw [outcome] at failed
      obtain rfl := beq_iff_eq.1 failed
      refine ⟨p, tree, _, ended, rfl, rfl, hparse, loads, fits, short, ran, outcome, ?_⟩
      rcases expected with overflow | indexed
      · cases overflow
      · exact indexed

end MiniC
