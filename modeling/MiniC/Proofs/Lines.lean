import MiniC.Proofs.Labels
import MiniC.Proofs.Paths

/-!
# Straight code

`Machine.line` carries instructions out one after the other. It needs no place for them in a program, so it
also says what code does that lowering would emit. `Expr.yields` says that the code of an expression pushes
the value that the evaluator gives to it, or faults with the evaluator, and the same of the code of an
address.

Instructions that do not jump are carried out in the same way wherever they stand. `Path.line` says so of a
path through them, and `Steps.of_line` of the steps of a machine with room on its stack.
-/

namespace MiniC

/-- Where a loaded program has put the data of a tree. -/
def Machine.placement (m : Machine) (labels : SymbolId → Option String) : Placement where
  variableAt id := .ofNat (((labels id).bind m.dataOffset?).getD 0)
  literalAt number := .ofNat ((m.dataOffset? (literalLabel number)).getD 0)

namespace Machine

/-- Carries instructions out one after the other, as the machine loads them and with room on the stack. -/
def line (m : Machine) : List Instruction → Exec Unit
  | [] => pure ()
  | i :: rest => do
    modify fun s => { s with pc := s.pc + 1 }
    freeStep (m.loadedInstruction i)
    m.line rest

/-- The machine has data under the label of every symbol and of every literal. -/
structure Provides (m : Machine) (labels : SymbolId → Option String) (literals : List (Nat × String)) :
    Prop where
  storage : ∀ id label, labels id = some label → ∃ offset, m.dataOffset? label = some offset
  literal : ∀ entry ∈ literals, ∃ offset, m.dataOffset? (literalLabel entry.1) = some offset

/-- A loaded program has data under its labels. -/
theorem provides_of_supplied {labels : SymbolId → Option String} {literals : List (Nat × String)} {p : Program}
    (h : Supplied labels literals p.dataLabels) (capacity : Nat) : (p.machine capacity).Provides labels literals where
  storage id label labelled := Option.isSome_iff_exists.1
    ((isSome_dataOffset?_laidOut p capacity label).2 (h.storage id label labelled))
  literal entry mem := Option.isSome_iff_exists.1
    ((isSome_dataOffset?_laidOut p capacity _).2 (h.literal entry mem))

/-- The code leads from a situation to another, with the value of a computation on top, or it faults as the
computation does. -/
def Yields (m : Machine) (code : List Instruction) (s s' : Situation) (result : Except Fault Int32) : Prop :=
  match result with
  | .ok value => ∀ pc, m.line code (s.stateAt pc) = .ok () ((s'.push value).stateAt (pc + code.length))
  | .error cause => ∀ pc, ∃ final, m.line code (s.stateAt pc) = .error cause final ∧
      final.memory = s'.memory ∧ final.console = s'.console

section Line

variable {m : Machine} {code code' : List Instruction} {i : Instruction}

theorem line_cons (m : Machine) (i : Instruction) (code : List Instruction) (s : State) :
    m.line (i :: code) s =
      (freeStep (m.loadedInstruction i) >>= fun _ => m.line code) { s with pc := s.pc + 1 } :=
  rfl

/-- Code in two parts is carried out part by part; a fault in the first is the end. -/
theorem line_append (m : Machine) (code code' : List Instruction) (s : State) :
    m.line (code ++ code') s = (m.line code >>= fun _ => m.line code') s := by
  induction code generalizing s with
  | nil => rfl
  | cons i code ih =>
    rw [List.cons_append, line_cons]
    cases went : freeStep (m.loadedInstruction i) { s with pc := s.pc + 1 } with
    | ok u s' =>
      rw [bind_of_ok went, ih]
      have first : m.line (i :: code) s = m.line code s' := by rw [line_cons, bind_of_ok went]
      cases rest : m.line code s' with
      | ok u' s'' => rw [bind_of_ok rest, bind_of_ok (first.trans rest)]
      | error cause final => rw [bind_of_error rest, bind_of_error (first.trans rest)]
    | error cause final =>
      have first : m.line (i :: code) s = .error cause final := by rw [line_cons, bind_of_error went]
      rw [bind_of_error went, bind_of_error first]

variable {s s' s'' : Situation} {result : Except Fault Int32}

/-- Code that goes on with the value that other code has pushed. -/
theorem Yields.bind {next : Int32 → Except Fault Int32} (h : m.Yields code s s' result)
    (h' : ∀ value, m.Yields code' (s'.push value) s'' (next value)) (memory : s'.memory = s''.memory)
    (console : s'.console = s''.console) : m.Yields (code ++ code') s s'' (result >>= next) := by
  cases result with
  | error cause =>
    intro pc
    obtain ⟨final, failed, memory', console'⟩ := h pc
    exact ⟨final, by rw [line_append, bind_of_error failed], memory'.trans memory, console'.trans console⟩
  | ok value =>
    have whole : ∀ pc, m.line (code ++ code') (s.stateAt pc) =
        m.line code' ((s'.push value).stateAt (pc + code.length)) := by
      intro pc
      rw [line_append, bind_of_ok (h pc)]
    have second := h' value
    show m.Yields (code ++ code') s s'' (next value)
    cases result : next value with
    | ok value' =>
      intro pc
      rw [result] at second
      rw [whole, List.length_append, ← Nat.add_assoc]
      exact second _
    | error cause =>
      intro pc
      rw [result] at second
      rw [whole]
      exact second _

/-- Where code succeeds that starts with code for a computation, the computation succeeds, and the rest of
the code goes on with its value. -/
theorem Yields.exists_of_line (h : m.Yields code s s' result) {pc : Nat} {final : State}
    (went : m.line (code ++ code') (s.stateAt pc) = .ok () final) :
    ∃ value, result = .ok value ∧
      m.line code' ((s'.push value).stateAt (pc + code.length)) = .ok () final := by
  rw [line_append] at went
  cases result with
  | error cause =>
    obtain ⟨_, failed, -⟩ := h pc
    rw [bind_of_error failed] at went
    cases went
  | ok value =>
    rw [bind_of_ok (h pc)] at went
    exact ⟨value, rfl, went⟩

/-- A single instruction whose effect is a computation. -/
theorem Yields.one (went : ∀ pc, freeStep (m.loadedInstruction i) (s.stateAt pc) = resume result s' s'.push pc) :
    m.Yields [i] s s' result := by
  cases result with
  | ok value => exact fun pc => bind_of_ok (went (pc + 1))
  | error cause =>
    intro pc
    have failed : m.line [i] (s.stateAt pc) = .error cause (s'.stateAt (pc + 1)) := by
      rw [line_cons]
      exact bind_of_error (went (pc + 1))
    exact ⟨_, failed, rfl, rfl⟩

theorem Yields.nil (s : Situation) (value : Int32) : m.Yields [] (s.push value) s (.ok value) :=
  fun _ => rfl

end Line

/-! ## Instructions of expressions -/

section Instructions

variable {m : Machine} {labels : SymbolId → Option String} {literals : List (Nat × String)} {s : Situation}

theorem yields_pushInt (value : Int32) : m.Yields [.pushInt value] s s (.ok value) :=
  .one fun _ => freeStep_push

/-- A label that leads to data pushes its place in memory. -/
theorem yields_pushLabel {label : String} (known : ∃ offset, m.dataOffset? label = some offset) :
    m.Yields [.pushLabel label] s s (.ok (.ofNat ((m.dataOffset? label).getD 0))) := by
  obtain ⟨offset, found⟩ := known
  refine .one fun pc => ?_
  rw [loadedInstruction_pushLabel found, found]
  exact freeStep_push

/-- The label of a name leads to its address. -/
theorem yields_name (provides : m.Provides labels literals) {symbol : Option SymbolId}
    (has : ∃ id label, symbol = some id ∧ labels id = some label) :
    m.Yields [.pushLabel (labelOf labels symbol)] s s (.ok ((m.placement labels).addressOf symbol)) := by
  obtain ⟨id, label, rfl, labelled⟩ := has
  have label_eq : labelOf labels (some id) = label := by simp [labelOf, labelled]
  have address : (m.placement labels).addressOf (some id) = .ofNat ((m.dataOffset? label).getD 0) := by
    simp [placement, Placement.addressOf, labelled]
  rw [label_eq, address]
  exact yields_pushLabel (provides.storage id label labelled)

/-- A load replaces the address on top by what is there. -/
theorem yields_load {address : Int32} :
    m.Yields [⟨.load, .none⟩] (s.push address) s (readSlot s.memory address) := by
  refine .one fun pc => ?_
  rw [loadedInstruction_plain]
  exact freeStep_load

/-- An operator replaces its operands by what it computes. -/
theorem yields_binary (op : BinaryOp) {a b : Int32} :
    m.Yields [⟨Lowering.binaryOpCode op, .none⟩] ((s.push a).push b) s (op.apply a b) := by
  refine .one fun pc => ?_
  rw [loadedInstruction_plain]
  exact freeStep_binary op

/-- An operator replaces its operand by what it computes. A plus sign has no code and computes nothing. -/
theorem yields_unary (op : UnaryOp) {a : Int32} :
    m.Yields ((Lowering.unaryOpCode? op).toList.map (⟨·, .none⟩)) (s.push a) s (.ok (op.apply a)) := by
  cases hop : Lowering.unaryOpCode? op with
  | none =>
    cases op <;> cases hop
    exact .nil s a
  | some code =>
    refine .one fun pc => ?_
    rw [loadedInstruction_plain]
    exact freeStep_unary hop

/-- The address of an element, from that of what it is an element of and the index. -/
theorem yields_element {start i stride : Int32} :
    m.Yields [.pushInt stride, ⟨.mul, .none⟩, ⟨.add, .none⟩] ((s.push start).push i) s
      (.ok (start + i * stride)) := by
  have multiplied : ∀ b, m.Yields [⟨.mul, .none⟩] (((s.push start).push i).push b) (s.push start)
      (.ok (i * b)) := by
    intro b
    rw [mul_eq]
    exact yields_binary .mul
  have added : ∀ b, m.Yields [⟨.add, .none⟩] ((s.push start).push b) s (.ok (start + b)) := by
    intro b
    rw [add_eq]
    exact yields_binary .add
  exact (yields_pushInt stride).bind (fun b => (multiplied b).bind added rfl rfl) rfl rfl

end Instructions

end Machine

/-! ## Expressions -/

open Machine in
/-- The code of an expression pushes its value, and its code without the last load its address. By
induction on the types. -/
theorem Expr.yields {m : Machine} {labels : SymbolId → Option String} {literals : List (Nat × String)}
    (provides : m.Provides labels literals) {types : SymbolId → Option Ty} {x : Expr} {ty : Ty}
    (typed : x.Typed types ty) (has : x.HasCode labels) {number : Nat}
    (sub : x.literals number ⊆ literals) :
    (∀ s, m.Yields (x.code labels number) s s (x.value (m.placement labels) s.memory number)) ∧
    (x.isLvalue → ∀ s, m.Yields (x.addressCode labels number) s s
      (x.address (m.placement labels) s.memory number)) := by
  induction typed generalizing number with
  | literal value =>
    refine ⟨fun s => ?_, nofun⟩
    cases value with
    | string value => exact yields_pushLabel (provides.literal (number, value) (sub (.head _)))
    | float value => exact has.elim
    | int | bool | char => exact yields_pushInt _
  | @name spelling id ty found =>
    refine ⟨fun s => ?_, fun _ s => yields_name provides has⟩
    exact (yields_name provides has).bind (fun _ => yields_load) rfl rfl
  | @unary op operand ty result _ _ ih =>
    refine ⟨fun s => ?_, nofun⟩
    exact ((ih has sub).1 s).bind (fun a => yields_unary op) rfl rfl
  | @binary op left right ty ty' result _ _ _ ihl ihr =>
    refine ⟨fun s => ?_, nofun⟩
    obtain ⟨sub₁, sub₂⟩ := List.append_subset.1 sub
    have first := (ihl has.1 sub₁).1 s
    have second := fun a => (ihr has.2 sub₂).1 (s.push a)
    exact first.bind (fun a => (second a).bind (fun b => yields_binary op) rfl rfl) rfl rfl
  | @index base position ty element baseTyped _ qualified ihb ihp =>
    obtain ⟨sub₁, sub₂⟩ := List.append_subset.1 sub
    have address : ∀ s, m.Yields ((Expr.index base position (some element)).addressCode labels number) s s
        ((Expr.index base position (some element)).address (m.placement labels) s.memory number) := by
      intro s
      have first := (ihb has.2.1 sub₁).2 (baseTyped.isLvalue_of_element qualified) s
      have second := fun start => (ihp has.2.2 sub₂).1 (s.push start)
      exact first.bind (fun start => (second start).bind (fun i => yields_element) rfl rfl) rfl rfl
    refine ⟨fun s => ?_, fun _ => address⟩
    rw [Expr.code_index, Expr.value_index]
    refine (address s).bind (fun a => ?_) rfl rfl
    cases loaded : isLoaded (some element) with
    | true => exact yields_load
    | false => exact .nil s a

/-! ## Code that does not jump -/

/-- The instruction may go on elsewhere than at the next one. -/
def OpCode.leads : OpCode → Bool
  | .jump | .branchEqualZero | .branchNotZero => true
  | _ => false

/-- No instruction of the code goes on elsewhere than at the next one. -/
def IsStraight (code : List Instruction) : Prop :=
  ∀ i ∈ code, i.op.leads = false

/-- Code in parts goes straight on exactly if each part does. -/
theorem isStraight_append {code code' : List Instruction} :
    IsStraight (code ++ code') ↔ IsStraight code ∧ IsStraight code' :=
  List.forall_mem_append

theorem isStraight_one {i : Instruction} (h : i.op.leads = false) : IsStraight [i] :=
  List.forall_mem_singleton.2 h

/-- Expressions do not jump. -/
theorem Expr.isStraight (labels : SymbolId → Option String) (x : Expr) (number : Nat) :
    IsStraight (x.code labels number) ∧ IsStraight (x.addressCode labels number) := by
  have nil : IsStraight [] := List.forall_mem_nil _
  induction x using Expr.shallowInduction generalizing number with
  | literal value ty => exact ⟨isStraight_one (by cases value <;> rfl), nil⟩
  | name spelling symbol ty =>
    exact ⟨List.forall_mem_cons.2 ⟨rfl, isStraight_one rfl⟩, isStraight_one rfl⟩
  | unary op operand ty ih =>
    refine ⟨isStraight_append.2 ⟨(ih number).1, ?_⟩, nil⟩
    cases op with
    | plus => exact nil
    | neg | bitNot | not => exact isStraight_one rfl
  | binary op left right ty ihl ihr =>
    refine ⟨isStraight_append.2 ⟨(ihl _).1, isStraight_append.2 ⟨(ihr _).1, ?_⟩⟩, nil⟩
    cases op <;> exact isStraight_one rfl
  | index base position ty ihb ihp =>
    have last : IsStraight [.pushInt (strideOf ty), ⟨.mul, .none⟩, ⟨.add, .none⟩] := by
      simp [IsStraight, Instruction.pushInt, OpCode.leads]
    have address : IsStraight ((Expr.index base position ty).addressCode labels number) :=
      isStraight_append.2 ⟨(ihb _).2, isStraight_append.2 ⟨(ihp _).1, last⟩⟩
    refine ⟨?_, address⟩
    rw [code_index]
    refine isStraight_append.2 ⟨address, ?_⟩
    split
    · exact isStraight_one rfl
    · exact nil
  | call callee arguments ty => exact ⟨nil, nil⟩

namespace Machine

/-- An instruction that does not jump leaves the place to the next one. -/
theorem pc_of_step {capacity : Nat} {i : LoadedInstruction} {s s' : State} (straight : i.op.leads = false)
    (went : step capacity i s = .ok () s') : s'.pc = s.pc := by
  obtain ⟨op, argument⟩ := i
  cases op
  case jump | branchEqualZero | branchNotZero => cases straight
  case call | ret | inputStr => cases went
  case label =>
    cases went
    rfl
  case push =>
    obtain ⟨-, rfl⟩ := exists_of_push went
    rfl
  case pop =>
    obtain ⟨_, _, popped, last⟩ := bind_eq_ok.1 went
    obtain ⟨rest, -, rfl⟩ := exists_of_pop popped
    cases last
    rfl
  case dup =>
    obtain ⟨_, _, -, -, rfl⟩ := exists_of_duplicate went
    rfl
  case load =>
    obtain ⟨_, _, -, -, -, rfl⟩ := exists_of_loadSlot went
    rfl
  case store =>
    obtain ⟨_, _, _, -, -, -, rfl⟩ := exists_of_storeSlot went
    rfl
  case printInt =>
    obtain ⟨_, _, -, rfl⟩ := exists_of_printInt went
    rfl
  case printStr =>
    obtain ⟨_, _, -, -, -, rfl⟩ := exists_of_printString went
    rfl
  case inputInt =>
    obtain ⟨_, _, -, -, rfl⟩ := exists_of_inputInt went
    rfl
  case neg | bitNot | logicNot | notZero =>
    obtain ⟨_, _, -, rfl⟩ := exists_of_applyUnary went
    rfl
  all_goals
    obtain ⟨_, _, _, _, -, -, rfl⟩ := exists_of_applyBinary went
    rfl

/-- An instruction that succeeds would succeed with more room on the stack. -/
theorem freeStep_of_step {capacity : Nat} {i : LoadedInstruction} {s s' : State}
    (went : step capacity i s = .ok () s') : freeStep i s = .ok () s' := by
  rcases step_eq_or_full capacity i s with same | ⟨-, final, full⟩
  · exact same.symm.trans went
  · cases went.symm.trans full

section Places

variable {p : Program} {capacity : Nat} {code : List Instruction} {s s' : State}

/-- A path through straight code carries it out. -/
theorem Path.line (holds : p.Holds s.pc code) (straight : IsStraight code) {places : List Nat}
    (path : (p.machine capacity).Path s places s') (length : places.length = code.length) :
    (p.machine capacity).line code s = .ok () s' := by
  induction code generalizing s places with
  | nil =>
    cases path with
    | refl => rfl
    | step => cases length
  | cons i code ih =>
    cases path with
    | refl => cases length
    | step found went rest =>
      cases found.symm.trans (holds.getElem?_code capacity)
      obtain ⟨first, later⟩ := List.forall_mem_cons.1 straight
      have pc := pc_of_step first went
      rw [line_cons, bind_of_ok (freeStep_of_step went)]
      refine ih ?_ later rest (Nat.succ.inj length)
      rw [pc]
      exact holds.tail

/-- Straight code is carried out step by step. -/
theorem Steps.of_line (holds : p.Holds s.pc code) (straight : IsStraight code)
    (went : (p.machine capacity).line code s = .ok () s') :
    Steps (p.machine capacity).code code.length s s' := by
  induction code generalizing s with
  | nil =>
    cases went
    exact .refl _
  | cons i code ih =>
    rw [line_cons] at went
    obtain ⟨_, s₁, first, later⟩ := bind_eq_ok.1 went
    obtain ⟨straight, straight'⟩ := List.forall_mem_cons.1 straight
    have pc : s₁.pc = s.pc + 1 := pc_of_step straight first
    exact .step (holds.getElem?_code capacity) first (ih (by rw [pc]; exact holds.tail) straight' later)

/-- Straight code that faults leads to the fault step by step. -/
theorem Faults.of_line (holds : p.Holds s.pc code) (straight : IsStraight code) {cause : Fault}
    (failed : (p.machine capacity).line code s = .error cause s') :
    Faults (p.machine capacity).code cause s s' := by
  induction code generalizing s with
  | nil => cases failed
  | cons i code ih =>
    obtain ⟨straight, straight'⟩ := List.forall_mem_cons.1 straight
    rw [line_cons] at failed
    rcases bind_eq_error.1 failed with failed | ⟨_, s₁, first, failed⟩
    · exact .now (holds.getElem?_code capacity) failed
    · have pc : s₁.pc = s.pc + 1 := pc_of_step straight first
      exact .later (holds.getElem?_code capacity) first (ih (by rw [pc]; exact holds.tail) straight' failed)

end Places

end Machine

end MiniC
