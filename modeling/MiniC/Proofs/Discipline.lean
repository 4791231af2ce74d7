import Mathlib.Data.List.Forall2
import MiniC.Proofs.Frames

/-!
# Runs keep to the frames

A program whose code flows from an empty frame to an empty frame runs as its frames say. At every state of
a run the stack is what the expression statements so far have kept, and on top of it the values of the
frame at that place (`Discipline.Situated`). One step leads from such a state to such a state
(`Situated.step`), and so does a path (`Situated.path`), which keeps a value for each expression statement
that it completes.

What is known of memory is a parameter: it has to survive stores that suit their variable, and it has to
say of the variables of type `bool` that they hold 0 or 1. Where there are index expressions nothing is
asked of it.
-/

namespace MiniC

/-- The value is of the kind that the word says, where data lies as in the given machine. -/
def Word.Means (m : Machine) (value : Int32) : Word → Prop
  | .any => True
  | .truth => value = 0 ∨ value = 1
  | .address label => value = .ofNat ((m.dataOffset? label).getD 0)

/-- Comparisons and logic give 0 or 1, as their word says. -/
theorem BinaryOp.word_means {op : BinaryOp} {a b result : Int32} (h : op.apply a b = .ok result)
    (m : Machine) : op.word.Means m result := by
  have truth : ∀ c : Bool, (if c then 1 else 0 : Int32) = 0 ∨ (if c then 1 else 0 : Int32) = 1 := by
    decide
  cases op
  case and | or | eq | notEq | lt | gt | ltEq | gtEq =>
    cases h
    exact truth _
  all_goals trivial

/-- The logical operator before its operand gives 0 or 1, as its word says. -/
theorem UnaryOp.word_means (op : UnaryOp) (a : Int32) (m : Machine) : op.word.Means m (op.apply a) := by
  cases op
  case not =>
    show (if a = 0 then 1 else 0 : Int32) = 0 ∨ (if a = 0 then 1 else 0 : Int32) = 1
    split
    · exact .inr rfl
    · exact .inl rfl
  all_goals trivial

/-- A jump or a branch. -/
def Instruction.Jumps (i : Instruction) : Prop :=
  ∃ name, i = .jump name ∨ i = .branchIfZero name ∨ i = .branchIfNotZero name

/-- A program with frames, and what is known of memory along its runs. -/
structure Discipline where
  vocabulary : Vocabulary
  program : Program
  capacity : Nat
  limit : Nat
  cells : List Cell
  Intact : Array Int32 → Prop
  code_eq : cells.map Cell.instruction = program.code
  flows : Flows vocabulary limit [] cells []
  labelled : program.WellLabelled
  short : program.code.length ≤ 4294967296
  resolves : ¬vocabulary.indexed → ∀ label, vocabulary.IsVariable label ∨ vocabulary.IsLiteral label →
    ∃ offset, (program.machine capacity).dataOffset? label = some offset
  loads : ¬vocabulary.indexed → ∀ {memory label address}, Intact memory → vocabulary.IsBool label →
    (Word.address label).Means (program.machine capacity) address →
      Word.truth.Means (program.machine capacity) (memory.getD address.toInt.toNat 0)
  stores : ¬vocabulary.indexed → ∀ {memory label address value}, Intact memory →
    vocabulary.IsVariable label → (Word.address label).Means (program.machine capacity) address →
      (vocabulary.IsBool label → Word.truth.Means (program.machine capacity) value) →
        Intact (memory.setIfInBounds address.toInt.toNat value)

namespace Discipline

variable (d : Discipline)

/-- The machine with the program in it. -/
def machine : Machine :=
  d.program.machine d.capacity

/-- The value is of the kind that the word says, where that matters. -/
def Holds (value : Int32) (w : Word) : Prop :=
  ¬d.vocabulary.indexed → w.Means d.machine value

/-- The stack holds what was kept, and on top of it the values of a frame of the code that is left. -/
structure Situated (kept : List Int32) (s : Machine.State) : Prop where
  frame : ∃ values σ, s.stack.values = values ++ kept ∧ List.Forall₂ d.Holds values σ ∧
    Flows d.vocabulary d.limit σ (d.cells.drop s.pc) []
  intact : ¬d.vocabulary.indexed → d.Intact s.memory

variable {d}

/-! ## One instruction -/

/-- What is taken from a stack with the values of a frame is what the frame has on top. -/
theorem exists_of_cons {w : Word} {σ : Frame} {a : Int32} {values kept rest : List Int32}
    (holds : List.Forall₂ d.Holds values (w :: σ)) (taken : a :: rest = values ++ kept) :
    d.Holds a w ∧ ∃ values', rest = values' ++ kept ∧ List.Forall₂ d.Holds values' σ := by
  cases holds with
  | cons first holds =>
    cases taken
    exact ⟨first, _, rfl, holds⟩

/-- An instruction of a frame, on a stack with the values of the frame. -/
theorem step_of_moves {capacity : Nat} {σ μ : Frame} {i : Instruction} {s s' : Machine.State}
    {values kept : List Int32} (moves : Moves d.vocabulary σ i μ) (holds : List.Forall₂ d.Holds values σ)
    (stack : s.stack.values = values ++ kept) (intact : ¬d.vocabulary.indexed → d.Intact s.memory)
    (went : Machine.step capacity (d.machine.loadedInstruction i) s = .ok () s') :
    (∃ values', s'.stack.values = values' ++ kept ∧ List.Forall₂ d.Holds values' μ) ∧
      (¬d.vocabulary.indexed → d.Intact s'.memory) ∧
        (s'.pc = s.pc ∨ μ = [] ∧ i.Jumps ∧
          s'.pc = Machine.target (d.machine.loadedInstruction i).argument) := by
  cases moves with
  | pushInt value =>
    obtain ⟨-, rfl⟩ := Machine.exists_of_push went
    exact ⟨⟨value :: values, congrArg (value :: ·) stack, .cons (fun _ => trivial) holds⟩, intact, .inl rfl⟩
  | pushTruth value =>
    obtain ⟨-, rfl⟩ := Machine.exists_of_push went
    refine ⟨⟨_ :: values, congrArg (_ :: ·) stack, .cons (fun _ => ?_) holds⟩, intact, .inl rfl⟩
    cases value with
    | true => exact .inr rfl
    | false => exact .inl rfl
  | @pushLabel σ label known =>
    obtain ⟨-, rfl⟩ := Machine.exists_of_push went
    refine ⟨⟨_ :: values, congrArg (_ :: ·) stack, .cons (fun plain => ?_) holds⟩, intact, .inl rfl⟩
    -- Only without index expressions does the frame say what a pushed label stands for.
    obtain ⟨offset, found⟩ := d.resolves plain label known
    have found : d.machine.dataOffset? label = some offset := found
    rw [Machine.loadedInstruction_pushLabel found, Word.Means, found]
    rfl
  | load known =>
    obtain ⟨address, rest, taken, -, -, rfl⟩ := Machine.exists_of_loadSlot went
    obtain ⟨-, values', rfl, holds⟩ := exists_of_cons holds (taken.symm.trans stack)
    exact ⟨⟨_ :: values', rfl, .cons (fun _ => trivial) holds⟩, intact, .inl rfl⟩
  | loadBool bool =>
    obtain ⟨address, rest, taken, -, -, rfl⟩ := Machine.exists_of_loadSlot went
    obtain ⟨first, values', rfl, holds⟩ := exists_of_cons holds (taken.symm.trans stack)
    refine ⟨⟨_ :: values', rfl, .cons (fun plain => ?_) holds⟩, intact, .inl rfl⟩
    exact d.loads plain (intact plain) bool (first plain)
  | @unary σ op code w found =>
    rw [Machine.loadedInstruction_plain, Machine.step_of_unary? (Machine.unary?_unaryOpCode found).1] at went
    obtain ⟨a, rest, taken, rfl⟩ := Machine.exists_of_applyUnary went
    obtain ⟨-, values', rfl, holds⟩ := exists_of_cons holds (taken.symm.trans stack)
    exact ⟨⟨_ :: values', rfl, .cons (fun _ => op.word_means a d.machine) holds⟩, intact, .inl rfl⟩
  | binary op b a =>
    rw [Machine.loadedInstruction_plain, Machine.step_of_binary? (Machine.binary?_binaryOpCode op)] at went
    obtain ⟨a, b, rest, result, taken, applied, rfl⟩ := Machine.exists_of_applyBinary went
    obtain ⟨-, _, taken, holds⟩ := exists_of_cons holds (taken.symm.trans stack)
    obtain ⟨-, values', rfl, holds⟩ := exists_of_cons holds taken
    exact ⟨⟨_ :: values', rfl, .cons (fun _ => BinaryOp.word_means applied d.machine) holds⟩, intact, .inl rfl⟩
  | store suits =>
    obtain ⟨value, address, rest, taken, -, -, rfl⟩ := Machine.exists_of_storeSlot went
    obtain ⟨first, _, taken, holds⟩ := exists_of_cons holds (taken.symm.trans stack)
    obtain ⟨second, values', rfl, holds⟩ := exists_of_cons holds taken
    refine ⟨⟨values', rfl, holds⟩, fun plain => ?_, .inl rfl⟩
    -- The word below the value names the variable; into a `bool` only a truth value is stored.
    obtain ⟨label, rfl, stored, truth⟩ := suits plain
    exact d.stores plain (intact plain) stored (second plain) fun bool => truth bool ▸ first plain
  | mark name =>
    cases went
    exact ⟨⟨values, stack, holds⟩, intact, .inl rfl⟩
  | jump name =>
    cases went
    exact ⟨⟨values, stack, holds⟩, intact, .inr ⟨rfl, ⟨name, .inl rfl⟩, rfl⟩⟩
  | branchIfZero name truth =>
    obtain ⟨value, rest, taken, rfl⟩ := Machine.exists_of_branch went
    obtain ⟨-, values', rfl, holds⟩ := exists_of_cons holds (taken.symm.trans stack)
    refine ⟨⟨values', rfl, holds⟩, intact, ?_⟩
    by_cases zero : value = 0
    · exact .inr ⟨rfl, ⟨name, .inr (.inl rfl)⟩, by simp [zero]⟩
    · exact .inl (by simp [zero])
  | branchIfNotZero name truth =>
    obtain ⟨value, rest, taken, rfl⟩ := Machine.exists_of_branch went
    obtain ⟨-, values', rfl, holds⟩ := exists_of_cons holds (taken.symm.trans stack)
    refine ⟨⟨values', rfl, holds⟩, intact, ?_⟩
    by_cases zero : value = 0
    · exact .inl (by simp [zero])
    · exact .inr ⟨rfl, ⟨name, .inr (.inr rfl)⟩, by simp [zero]⟩
  | printInt w =>
    obtain ⟨value, rest, taken, rfl⟩ := Machine.exists_of_printInt went
    obtain ⟨-, values', rfl, holds⟩ := exists_of_cons holds (taken.symm.trans stack)
    exact ⟨⟨values', rfl, holds⟩, intact, .inl rfl⟩
  | printStr literal =>
    obtain ⟨address, rest, taken, -, -, rfl⟩ := Machine.exists_of_printString went
    obtain ⟨-, values', rfl, holds⟩ := exists_of_cons holds (taken.symm.trans stack)
    exact ⟨⟨values', rfl, holds⟩, intact, .inl rfl⟩
  | inputInt =>
    obtain ⟨value, console, -, -, rfl⟩ := Machine.exists_of_inputInt went
    exact ⟨⟨value :: values, congrArg (value :: ·) stack, .cons (fun _ => trivial) holds⟩, intact, .inl rfl⟩

/-! ## Places -/

/-- The instructions of a disciplined program are its cells, loaded. -/
theorem getElem?_code (d : Discipline) (place : Nat) :
    d.machine.code[place]? =
      (d.cells[place]?).map fun cell => d.machine.loadedInstruction cell.instruction := by
  rw [machine, Program.getElem?_code_machine, ← d.code_eq, List.getElem?_map, Option.map_map]
  rfl

/-- A mark finds the frame empty, however control comes there. -/
theorem flows_of_mark {place : Nat} {cell : Cell} (found : d.cells[place]? = some cell)
    (mark : cell.instruction.op = .label) :
    Flows d.vocabulary d.limit [] (d.cells.drop place) [] := by
  have whole := d.flows
  rw [← List.take_append_drop place d.cells] at whole
  obtain ⟨σ, -, rest⟩ := whole.exists_of_append
  have here : d.cells.drop place = cell :: d.cells.drop (place + 1) := by
    obtain ⟨lt, rfl⟩ := List.getElem?_eq_some_iff.1 found
    exact List.drop_eq_getElem_cons lt
  have empty : σ = [] := by
    rw [here] at rest
    cases rest with
    | next moves _ _ => exact moves.eq_nil_of_mark mark
    | keep moves _ _ => exact moves.eq_nil_of_mark mark
  rwa [empty] at rest

/-- A jump leads to a mark, or past the end of the code. -/
theorem flows_of_jumps {i : Instruction} (mem : i ∈ d.program.code) (jumps : i.Jumps) :
    Flows d.vocabulary d.limit []
      (d.cells.drop (Machine.target (d.machine.loadedInstruction i).argument)) [] := by
  obtain ⟨name, jumps⟩ := jumps
  have marked : name ∈ marks d.program.code := by
    rcases jumps with rfl | rfl | rfl
    all_goals
      rcases d.labelled.resolved _ mem (by rintro ⟨⟩) name rfl with marked | ⟨⟨⟩, -⟩
      exact marked
  obtain ⟨j, held, rfl⟩ := List.mem_map.1 marked
  obtain ⟨held, mark⟩ := List.mem_filter.1 held
  have mark : j.op = .label := of_decide_eq_true mark
  obtain ⟨before, after, split⟩ := List.append_of_mem held
  have found : d.machine.jumpTarget? (Machine.markName j) = some before.length :=
    d.labelled.jumpTarget?_machine split mark
  have argument : (d.machine.loadedInstruction i).argument = Int32.ofNat before.length := by
    rcases jumps with rfl | rfl | rfl
    · rw [Machine.loadedInstruction_jump found]
    · rw [Machine.loadedInstruction_branchIfZero found]
    · rw [Machine.loadedInstruction_branchIfNotZero found]
  have length : d.cells.length = d.program.code.length := by rw [← d.code_eq, List.length_map]
  have short : before.length < 4294967296 := by
    have short := d.short
    rw [split, List.length_append, List.length_cons] at short
    omega
  rw [argument]
  -- A place from 2³¹ on is a negative argument, and leads past the code, where nothing is left to follow.
  rcases Machine.target_ofNat_or short with same | past
  · have here : (d.cells.map Cell.instruction)[before.length]? = some j := by
      rw [d.code_eq, split]
      simp
    rw [List.getElem?_map] at here
    obtain ⟨cell, standing, rfl⟩ := Option.map_eq_some_iff.1 here
    rw [same]
    exact flows_of_mark standing mark
  · have short := d.short
    rw [List.drop_eq_nil_of_le (by omega)]
    exact .nil []

/-! ## Steps and paths -/

/-- Whether the instruction at a place completes an expression statement. -/
def completes (cells : List Cell) (place : Nat) : Bool :=
  (cells[place]?).any Cell.keeps

/-- The instruction at a state of the frames, with the frame that it leads to. -/
theorem Situated.exists_moves {kept : List Int32} {s : Machine.State} (h : d.Situated kept s)
    {i : LoadedInstruction} (found : d.machine.code[s.pc]? = some i) :
    ∃ cell values σ μ, d.cells[s.pc]? = some cell ∧ i = d.machine.loadedInstruction cell.instruction ∧
      s.stack.values = values ++ kept ∧ List.Forall₂ d.Holds values σ ∧
      Moves d.vocabulary σ cell.instruction μ ∧ μ.length ≤ d.limit ∧
      if cell.keeps then μ.length = 1 ∧ Flows d.vocabulary d.limit [] (d.cells.drop (s.pc + 1)) []
      else Flows d.vocabulary d.limit μ (d.cells.drop (s.pc + 1)) [] := by
  rw [d.getElem?_code] at found
  obtain ⟨cell, here, rfl⟩ := Option.map_eq_some_iff.1 found
  obtain ⟨values, σ, stack, holds, flows⟩ := h.frame
  have rest : d.cells.drop s.pc = cell :: d.cells.drop (s.pc + 1) := by
    obtain ⟨lt, rfl⟩ := List.getElem?_eq_some_iff.1 here
    exact List.drop_eq_getElem_cons lt
  rw [rest] at flows
  cases flows with
  | next moves low later => exact ⟨_, values, σ, _, here, rfl, stack, holds, moves, low, later⟩
  | keep moves low later => exact ⟨_, values, σ, _, here, rfl, stack, holds, moves, low, rfl, later⟩

/-- A step leads from the frames to the frames, and keeps a value if it completes an expression
statement. -/
theorem Situated.step {kept : List Int32} {s s' : Machine.State} (h : d.Situated kept s)
    {i : LoadedInstruction} (found : d.machine.code[s.pc]? = some i)
    (went : Machine.step d.machine.capacity i { s with pc := s.pc + 1 } = .ok () s') :
    ∃ more, d.Situated (more ++ kept) s' ∧ more.length = if completes d.cells s.pc then 1 else 0 := by
  obtain ⟨cell, values, σ, μ, here, rfl, stack, holds, moves, -, later⟩ := h.exists_moves found
  obtain ⟨⟨values', stack', holds'⟩, intact, pc⟩ := step_of_moves (s := { s with pc := s.pc + 1 })
    moves holds stack h.intact went
  have mem : cell.instruction ∈ d.program.code := by
    rw [← d.code_eq]
    exact List.mem_map_of_mem (List.mem_of_getElem? here)
  have completed : completes d.cells s.pc = cell.keeps := by simp [completes, here]
  rw [completed]
  cases keeps : cell.keeps with
  | false =>
    rw [keeps] at later
    refine ⟨[], ⟨⟨values', μ, stack', holds', ?_⟩, intact⟩, rfl⟩
    rcases pc with pc | ⟨rfl, jumps, pc⟩
    · rw [pc]
      exact later
    · rw [pc]
      exact flows_of_jumps mem jumps
  | true =>
    rw [keeps] at later
    refine ⟨values', ⟨⟨[], [], stack', .nil, ?_⟩, intact⟩, holds'.length_eq.trans later.1⟩
    rcases pc with pc | ⟨rfl, -, -⟩
    · rw [pc]
      exact later.2
    · cases later.1

/-- A path leads from the frames to the frames, and keeps a value for each expression statement that it
completes. -/
theorem Situated.path {kept : List Int32} {s s' : Machine.State} (h : d.Situated kept s)
    {places : List Nat} (path : d.machine.Path s places s') :
    ∃ more, d.Situated (more ++ kept) s' ∧ more.length = places.countP (completes d.cells) := by
  induction path generalizing kept with
  | refl s => exact ⟨[], h, rfl⟩
  | step found went _ ih =>
    obtain ⟨first, situated, count⟩ := h.step found went
    obtain ⟨later, situated', count'⟩ := ih situated
    refine ⟨later ++ first, by rwa [List.append_assoc], ?_⟩
    rw [List.length_append, count, count', List.countP_cons]

/-- Where the code that is left starts with an empty frame, there is nothing on the stack but what was
kept. -/
theorem Situated.values_eq {kept : List Int32} {s : Machine.State} (h : d.Situated kept s)
    (flows : Flows d.vocabulary d.limit [] (d.cells.drop s.pc) []) : s.stack.values = kept := by
  obtain ⟨values, σ, stack, holds, flows'⟩ := h.frame
  have empty : values = [] := by
    rw [← List.length_eq_zero_iff, holds.length_eq]
    exact flows'.length_eq flows rfl
  rw [stack, empty]
  rfl

end Discipline

end MiniC
