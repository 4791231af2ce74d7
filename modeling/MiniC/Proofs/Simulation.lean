import MiniC.Proofs.Lines

/-!
# Lowering preserves meaning

The code of a tree does on the machine what the evaluator says of the tree. `Expr.computes` and
`Stmt.carries` say so for every part of a tree, wherever its code stands in a program; they follow the
constructors of the tree, and a loop is followed turn by turn.

The evaluator bounds the turns of a loop and the machine bounds nothing, so a statement that the
evaluator does not finish within `turns` turns is only known to keep the machine busy for that many
steps. That is enough: a run that ends is finished by the evaluator within as many turns.
-/

namespace MiniC

/-- A program and what has to be true of it for the code of trees in it to work: its names resolve, its
places fit into an argument, every label and every literal in question is one of its data, symbols with
a label have a type with a layout, and no two literals share an address. -/
structure Setting where
  program : Program
  capacity : Nat
  types : SymbolId → Option Ty
  labels : SymbolId → Option String
  literals : List (Nat × String)
  labelled : program.WellLabelled
  short : program.code.length ≤ 2147483648
  supplied : Supplied labels literals program.dataLabels
  sized : ∀ id label, labels id = some label → ∃ ty size, types id = some ty ∧ ty.size = .ok size
  apart : ∀ e ∈ literals, ∀ e' ∈ literals, e.1 ≠ e'.1 →
    ((program.machine capacity).placement labels).literalAt e.1 ≠
      ((program.machine capacity).placement labels).literalAt e'.1

namespace Setting

/-- The machine with the program in it. -/
def machine (g : Setting) : Machine :=
  g.program.machine g.capacity

/-- Where the data lies. -/
def place (g : Setting) : Placement :=
  g.machine.placement g.labels

variable (g : Setting)

/-- From a situation at a place, the machine faults and leaves the memory and the console of another. -/
def Faults (cause : Fault) (start : Machine.State) (s : Situation) : Prop :=
  ∃ final, Machine.Faults g.machine.code cause start final ∧ final.memory = s.memory ∧
    final.console = s.console

/-- From a state, the machine comes to a situation with the computed value on top, at a place, or faults
as the computation does. -/
def Computes (start : Machine.State) (s : Situation) (pc : Nat) (result : Except Fault Int32) : Prop :=
  match result with
  | .ok value => ∃ n, Machine.Steps g.machine.code n start ((s.push value).stateAt pc)
  | .error cause => g.Faults cause start s

/-- From a state, the machine comes to the situation of an outcome, at a place, or faults as the outcome
does; without an outcome it goes on for at least `turns` steps. -/
def Carries (turns : Nat) (start : Machine.State) (pc : Nat) (outcome : Option Outcome) : Prop :=
  match outcome with
  | some (.done s) => ∃ n, Machine.Steps g.machine.code n start (s.stateAt pc)
  | some (.fault cause s) => g.Faults cause start s
  | none => ∃ n s, turns ≤ n ∧ Machine.Steps g.machine.code n start s

variable {g} {start middle : Machine.State} {s s' : Situation} {pc n turns : Nat}

/-- A fault after some steps is a fault from their start on. -/
theorem Faults.of_steps {cause : Fault} (steps : Machine.Steps g.machine.code n start middle)
    (h : g.Faults cause middle s) : g.Faults cause start s := by
  obtain ⟨final, faults, memory, console⟩ := h
  exact ⟨final, steps.faults faults, memory, console⟩

/-- Steps before an outcome lead to the same outcome, and count where there is none. -/
theorem Carries.of_steps {outcome : Option Outcome}
    (steps : Machine.Steps g.machine.code n start middle) (h : g.Carries turns middle pc outcome) :
    g.Carries (n + turns) start pc outcome := by
  match outcome, h with
  | some (.done s), ⟨m, rest⟩ => exact ⟨n + m, steps.trans rest⟩
  | some (.fault cause s), h => exact Faults.of_steps steps h
  | none, ⟨m, s, le, rest⟩ => exact ⟨n + m, s, Nat.add_le_add_left le n, steps.trans rest⟩

/-- To go on for long is to go on for less long. -/
theorem Carries.mono {outcome : Option Outcome} {turns' : Nat} (h : g.Carries turns start pc outcome)
    (le : turns' ≤ turns) : g.Carries turns' start pc outcome := by
  match outcome, h with
  | some (.done _), h => exact h
  | some (.fault _ _), h => exact h
  | none, ⟨m, s, le', rest⟩ => exact ⟨m, s, Nat.le_trans le le', rest⟩

/-- Steps before an outcome, not counted. -/
theorem Carries.after_steps {outcome : Option Outcome}
    (steps : Machine.Steps g.machine.code n start middle) (h : g.Carries turns middle pc outcome) :
    g.Carries turns start pc outcome :=
  (h.of_steps steps).mono (Nat.le_add_left _ _)

/-- What follows a computation. -/
theorem Computes.after {pc' : Nat} {result : Except Fault Int32} {next : Int32 → Option Outcome}
    (h : g.Computes start s pc result)
    (h' : ∀ value, g.Carries turns ((s.push value).stateAt pc) pc' (next value))
    (memory : s.memory = s'.memory) (console : s.console = s'.console) :
    g.Carries turns start pc' (Outcome.after result s' next) := by
  cases result with
  | ok value =>
    obtain ⟨n, steps⟩ := h
    exact (h' value).after_steps steps
  | error cause =>
    obtain ⟨final, faults, memory', console'⟩ := h
    exact ⟨final, faults, memory'.trans memory, console'.trans console⟩

/-- Two parts, one after the other. -/
theorem Carries.andThen {pc' : Nat} {first : Option Outcome} {next : Situation → Option Outcome}
    (h : g.Carries turns start pc first)
    (h' : ∀ s, g.Carries turns (s.stateAt pc) pc' (next s)) :
    g.Carries turns start pc' (Outcome.andThen first next) := by
  match first, h with
  | some (.done s), ⟨n, steps⟩ => exact (h' s).after_steps steps
  | some (.fault cause s), h => exact h
  | none, h => exact h

/-! ## Single instructions -/

section Instructions

variable {i : Instruction} {rest : List Instruction}

/-- One instruction is one step, if the stack has room. -/
theorem steps_one {final : Machine.State} (holds : g.program.Holds pc (i :: rest))
    (went : Machine.freeStep (g.machine.loadedInstruction i) (s.stateAt (pc + 1)) = .ok () final) :
    Machine.Steps g.machine.code 1 (s.stateAt pc) final :=
  .one (holds.getElem?_code g.capacity) went

/-- An instruction that changes the situation or faults. -/
theorem carries_one {α : Type} {result : Except Fault α} {next : α → Situation}
    (holds : g.program.Holds pc (i :: rest))
    (went : Machine.freeStep (g.machine.loadedInstruction i) (s.stateAt (pc + 1)) =
      Machine.resume result s' next (pc + 1)) :
    g.Carries turns (s.stateAt pc) (pc + 1)
      (Outcome.after result s' fun value => some (.done (next value))) := by
  cases result with
  | ok value => exact ⟨1, steps_one holds went⟩
  | error cause => exact ⟨_, .now (holds.getElem?_code g.capacity) went, rfl, rfl⟩

/-- Straight code that yields a value computes it, wherever it stands. -/
theorem Computes.of_yields {code : List Instruction} {result : Except Fault Int32}
    (holds : g.program.Holds pc code) (straight : IsStraight code)
    (h : g.machine.Yields code s s' result) :
    g.Computes (s.stateAt pc) s' (pc + code.length) result := by
  cases result with
  | ok value => exact ⟨_, .of_line holds straight (h pc)⟩
  | error cause =>
    obtain ⟨final, failed, memory, console⟩ := h pc
    exact ⟨final, .of_line holds straight failed, memory, console⟩

variable (g) in
/-- The machine has the data that the code asks for. -/
theorem provides : g.machine.Provides g.labels g.literals :=
  Machine.provides_of_supplied g.supplied g.capacity

end Instructions

end Setting

/-! ## Expressions -/

open Setting

/-- The code of an expression computes its value, and its code without the last load its address. -/
theorem Expr.computes {g : Setting} {x : Expr} {ty : Ty} (typed : x.Typed g.types ty)
    (has : x.HasCode g.labels) {number : Nat} (sub : x.literals number ⊆ g.literals) :
    (∀ {pc : Nat} {s : Situation}, g.program.Holds pc (x.code g.labels number) →
      g.Computes (s.stateAt pc) s (pc + (x.code g.labels number).length)
        (x.value g.place s.memory number)) ∧
    (x.isLvalue → ∀ {pc : Nat} {s : Situation}, g.program.Holds pc (x.addressCode g.labels number) →
      g.Computes (s.stateAt pc) s (pc + (x.addressCode g.labels number).length)
        (x.address g.place s.memory number)) := by
  obtain ⟨straight, straight'⟩ := x.isStraight g.labels number
  obtain ⟨value, address⟩ := Expr.yields g.provides typed has sub
  exact ⟨fun holds => .of_yields holds straight (value _),
    fun lvalue _ _ holds => .of_yields holds straight' (address lvalue _)⟩

/-! ## Literals under other numbers -/

/-- The type of strings. -/
def Ty.string : Ty := ⟨.string, []⟩

/-- Operators before their operand keep its type, and none is for strings. -/
theorem UnaryOp.ne_string_of_result? {op : UnaryOp} {ty result : Ty} (h : op.result? ty = some result) :
    ty = result ∧ result ≠ .string := by
  unfold UnaryOp.result? at h
  split at h
  · rename_i accepted
    cases h
    refine ⟨rfl, ?_⟩
    rintro rfl
    cases op <;> simp [UnaryOp.operatorClass, OperatorClass.accepts, OperatorClass.accepted, Ty.string,
      Ty.isUnqualified] at accepted
  · cases h

/-- Operators between strings are comparisons for equality. -/
theorem BinaryOp.result?_string {op : BinaryOp} {ty ty' result : Ty} (h : op.result? ty ty' = some result) :
    ty = ty' ∧ result ≠ .string ∧ (ty = .string → op = .eq ∨ op = .notEq) := by
  unfold BinaryOp.result? at h
  split at h
  · rename_i accepted
    simp only [Bool.and_eq_true, decide_eq_true_eq] at accepted
    cases h
    obtain ⟨⟨-, rfl⟩, accepted⟩ := accepted
    refine ⟨rfl, ?_, ?_⟩
    · cases op <;> simp [BinaryOp.operatorClass, OperatorClass.isComparison, Ty.string, Ty.bool]
      all_goals
        rintro rfl
        simp [BinaryOp.operatorClass, OperatorClass.accepts, OperatorClass.accepted] at accepted
    · rintro rfl
      cases op <;> simp [BinaryOp.operatorClass, OperatorClass.accepts, OperatorClass.accepted,
        Ty.string] at accepted ⊢
  · cases h

/-- Strings have no layout, so they are never stored. -/
theorem Ty.size_string {size : Nat} : Ty.string.size ≠ .ok size := by
  intro h
  cases h

/-- No expression that has code is of type string but a literal: strings have no storage. -/
theorem Expr.Typed.eq_literal {g : Setting} {x : Expr} (typed : x.Typed g.types .string)
    (has : x.HasCode g.labels) : ∃ value, x = .literal (.string value) (some .string) := by
  generalize hty : Ty.string = ty at typed
  cases typed with
  | literal value =>
    cases value <;> cases hty
    exact ⟨_, rfl⟩
  | name found =>
    obtain ⟨_, label, ⟨⟩, labelled⟩ := has
    obtain ⟨ty', size, found', sized⟩ := g.sized _ label labelled
    cases found.symm.trans found'
    exact absurd (hty ▸ sized) Ty.size_string
  | unary _ result => exact absurd hty.symm (UnaryOp.ne_string_of_result? result).2
  | binary _ _ result => exact absurd hty.symm (BinaryOp.result?_string result).2.1
  | index _ _ _ =>
    obtain ⟨⟨element, size, same, sized⟩, -⟩ := has
    cases same
    exact absurd (hty ▸ sized) Ty.size_string

/-- The numbers of the literals in an expression matter only to its value as a string. -/
theorem Expr.value_renumber {g : Setting} {x : Expr} {ty : Ty} (typed : x.Typed g.types ty)
    (has : x.HasCode g.labels) (memory : Array Int32) {number number' : Nat}
    (sub : x.literals number ⊆ g.literals) (sub' : x.literals number' ⊆ g.literals) :
    (ty ≠ .string → x.value g.place memory number = x.value g.place memory number') ∧
      x.address g.place memory number = x.address g.place memory number' := by
  induction typed generalizing number number' with
  | literal value =>
    refine ⟨fun other => ?_, rfl⟩
    cases value <;> first | rfl | exact absurd rfl other
  | name _ => exact ⟨fun _ => rfl, rfl⟩
  | unary _ result ih =>
    obtain ⟨rfl, other⟩ := UnaryOp.ne_string_of_result? result
    refine ⟨fun _ => ?_, rfl⟩
    rw [Expr.value, Expr.value, (ih has sub sub').1 other]
  | @binary op left right ty ty' result leftTyped rightTyped accepted ihl ihr =>
    refine ⟨fun _ => ?_, rfl⟩
    obtain ⟨rfl, -, equality⟩ := BinaryOp.result?_string accepted
    by_cases string : ty = .string
    · -- Both operands are literals, and whatever their numbers, they have different addresses.
      subst string
      obtain ⟨v, rfl⟩ := leftTyped.eq_literal has.1
      obtain ⟨w, rfl⟩ := rightTyped.eq_literal has.2
      have different : ∀ {n : Nat},
          (Expr.binary op (.literal (.string v) (some .string)) (.literal (.string w) (some .string))
            (some result)).literals n ⊆ g.literals → g.place.literalAt n ≠ g.place.literalAt (n + 1) :=
        fun {n} sub => g.apart (n, v) (sub (.head _)) (n + 1, w) (sub (.tail _ (.head _))) (by simp)
      have first := different sub
      have second := different sub'
      rcases equality rfl with rfl | rfl
      · show Except.ok _ = Except.ok _
        simp [Expr.literalValue, Expr.numbers, first, second]
      · show Except.ok _ = Except.ok _
        simp [Expr.literalValue, Expr.numbers, first, second]
    · have first := (ihl has.1 (fun _ mem => sub (List.mem_append_left _ mem))
        (fun _ mem => sub' (List.mem_append_left _ mem))).1 string
      have second := (ihr has.2 (fun _ mem => sub (List.mem_append_right _ mem))
        (fun _ mem => sub' (List.mem_append_right _ mem))).1 string
      rw [Expr.value, Expr.value, first, second]
  | @index base position ty element baseTyped positionTyped qualified ihb ihp =>
    have first := (ihb has.2.1 (fun _ mem => sub (List.mem_append_left _ mem))
      (fun _ mem => sub' (List.mem_append_left _ mem))).2
    have second := (ihp has.2.2 (fun _ mem => sub (List.mem_append_right _ mem))
      (fun _ mem => sub' (List.mem_append_right _ mem))).1 (by decide)
    have address : (Expr.index base position (some element)).address g.place memory number =
        (Expr.index base position (some element)).address g.place memory number' := by
      rw [Expr.address, Expr.address, first, second]
    refine ⟨fun _ => ?_, address⟩
    rw [Expr.value_index, Expr.value_index, address]

/-! ## Statements -/

/-- What follows a computation and what follows that may be put together in either way. -/
theorem Outcome.andThen_after {α : Type} (result : Except Fault α) (s : Situation)
    (first : α → Option Outcome) (next : Situation → Option Outcome) :
    andThen (after result s first) next = after result s fun a => andThen (first a) next := by
  cases result with
  | ok value => rfl
  | error cause => rfl

namespace Setting

variable {g : Setting} {s : Situation} {pc turns : Nat} {rest rest' : List Instruction}

/-- A mark takes a step and does nothing. -/
theorem steps_mark {name : String} (holds : g.program.Holds pc (.mark name :: rest)) :
    Machine.Steps g.machine.code 1 (s.stateAt pc) (s.stateAt (pc + 1)) :=
  steps_one holds Machine.freeStep_label

/-- A place that is marked survives being an argument. -/
theorem target_eq {name : String} {target : Nat} (marked : g.program.Holds target (.mark name :: rest')) :
    Machine.target (.ofNat target) = target :=
  Machine.target_ofNat (Nat.lt_of_lt_of_le marked.lt_length g.short)

section Jumps

variable {stem : String} {number target : Nat} (control : stem ∈ controlStems)
  (marked : g.program.Holds target (.mark (numbered stem number) :: rest'))

include control marked

/-- A mark that stands in the code is found by its name: no other has the same. -/
theorem jumpTarget?_eq : g.machine.jumpTarget? (numbered stem number) = some target :=
  marked.jumpTarget? g.labelled g.capacity (markName_mark control number)

/-- A jump leads to its mark. -/
theorem steps_jump (holds : g.program.Holds pc (.jump (numbered stem number) :: rest)) :
    Machine.Steps g.machine.code 1 (s.stateAt pc) (s.stateAt target) := by
  refine steps_one holds ?_
  rw [Machine.loadedInstruction_jump (jumpTarget?_eq control marked), Machine.freeStep_jump,
    target_eq marked]

/-- A branch leads to its mark if the value on the stack is 0, and on if not. -/
theorem steps_branchIfZero (holds : g.program.Holds pc (.branchIfZero (numbered stem number) :: rest))
    (value : Int32) :
    Machine.Steps g.machine.code 1 ((s.push value).stateAt pc)
      (s.stateAt (if value = 0 then target else pc + 1)) := by
  refine steps_one holds ?_
  rw [Machine.loadedInstruction_branchIfZero (jumpTarget?_eq control marked),
    Machine.freeStep_branchEqualZero, target_eq marked]

/-- A branch on what is not zero leads on if the value on the stack is 0, and to its mark if not. -/
theorem steps_branchIfNotZero
    (holds : g.program.Holds pc (.branchIfNotZero (numbered stem number) :: rest)) (value : Int32) :
    Machine.Steps g.machine.code 1 ((s.push value).stateAt pc)
      (s.stateAt (if value = 0 then pc + 1 else target)) := by
  refine steps_one holds ?_
  rw [Machine.loadedInstruction_branchIfNotZero (jumpTarget?_eq control marked),
    Machine.freeStep_branchNotZero, target_eq marked]

end Jumps

/-- A store ends an assignment. -/
theorem carries_store {address value : Int32} (holds : g.program.Holds pc (⟨.store, .none⟩ :: rest)) :
    g.Carries turns (((s.push address).push value).stateAt pc) (pc + 1)
      (Outcome.after (writeSlot s.memory address value) s fun memory => some (.done { s with memory })) := by
  refine carries_one holds ?_
  rw [Machine.loadedInstruction_plain]
  exact Machine.freeStep_store

/-- A print takes the value, which for a string is the address of its characters. -/
theorem carries_print {ty : Option Ty} {value : Int32}
    (holds : g.program.Holds pc (⟨printOp ty, .none⟩ :: rest)) :
    g.Carries turns ((s.push value).stateAt pc) (pc + 1) (s.print ty value) := by
  unfold Situation.print
  split
  · rename_i string
    refine carries_one holds ?_
    rw [Machine.loadedInstruction_plain, printOp, if_pos string]
    exact Machine.freeStep_printStr
  · rename_i other
    refine ⟨1, steps_one holds ?_⟩
    rw [Machine.loadedInstruction_plain, printOp, if_neg other]
    exact Machine.freeStep_printInt

/-- The value that is read is stored at the address below it on the stack. -/
theorem carries_input {address : Int32}
    (holds : g.program.Holds pc (⟨.inputInt, .none⟩ :: ⟨.store, .none⟩ :: rest)) :
    g.Carries turns ((s.push address).stateAt pc) (pc + 2) (s.input address) := by
  have went : Machine.freeStep (g.machine.loadedInstruction ⟨.inputInt, .none⟩)
      ((s.push address).stateAt (pc + 1)) = _ := Machine.freeStep_inputInt
  unfold Situation.input
  cases read : s.console.readInt with
  | error cause console =>
    rw [show (s.push address).console.readInt = _ from read] at went
    exact ⟨_, .now (holds.getElem?_code g.capacity) went, rfl, rfl⟩
  | ok value console =>
    rw [show (s.push address).console.readInt = _ from read] at went
    have stored : g.Carries turns (((({ s with console } : Situation).push address).push value).stateAt
        (pc + 1)) (pc + 2) _ := carries_store holds.tail
    exact stored.after_steps (steps_one holds went)

end Setting

/-- The code of declared names stores their initial values. -/
theorem Declarator.carries {g : Setting} {turns : Nat} {ds : List Declarator}
    (typed : ∀ d ∈ ds, d.Typed g.types) (has : ∀ d ∈ ds, d.HasCode g.labels) {number : Nat}
    (sub : Declarator.allLiterals number ds ⊆ g.literals) {pc : Nat}
    (holds : g.program.Holds pc (Declarator.allCode g.labels number ds)) (s : Situation) :
    g.Carries turns (s.stateAt pc) (pc + (Declarator.allCode g.labels number ds).length)
      (Declarator.execAll g.place number ds s) := by
  induction ds generalizing number pc s with
  | nil => exact ⟨0, .refl _⟩
  | cons d ds ih =>
    obtain ⟨⟨id, ty, -, -, initTyped⟩, restTyped⟩ := List.forall_mem_cons.1 typed
    obtain ⟨⟨symbolHas, initHas⟩, restHas⟩ := List.forall_mem_cons.1 has
    obtain ⟨name, init, symbol⟩ := d
    cases init with
    | none => exact ih restTyped restHas sub holds s
    | some init =>
      have code : (Declarator.code g.labels number ⟨name, some init, symbol⟩).length =
          1 + (init.code g.labels (number + 1)).length + 1 := by
        simp [Declarator.code]
        omega
      have length : pc + (Declarator.allCode g.labels number (⟨name, some init, symbol⟩ :: ds)).length =
          pc + 1 + (init.code g.labels (number + 1)).length + 1 +
            (Declarator.allCode g.labels (number + 1 + init.numbers) ds).length := by
        rw [Declarator.allCode, List.length_append, code]
        simp
        omega
      have next := holds.right
      rw [code, ← Nat.add_assoc, ← Nat.add_assoc] at next
      rw [length]
      have label : g.program.Holds pc [.pushLabel (labelOf g.labels symbol)] := holds.left.left
      obtain ⟨n, pushed⟩ : g.Computes (s.stateAt pc) s (pc + 1) _ :=
        .of_yields label (isStraight_one rfl) (Machine.yields_name g.provides symbolHas)
      have computed := (Expr.computes (initTyped init rfl) (initHas init rfl)
        (fun _ mem => sub (List.mem_append_left _ mem))).1 (s := s.push (g.place.addressOf symbol))
        holds.left.tail.left
      refine Carries.after_steps pushed ?_
      show g.Carries turns _ _ (Outcome.after (init.value g.place s.memory (number + 1)) s _)
      refine computed.after (fun value => ?_) rfl rfl
      have stored : g.Carries turns (((s.push (g.place.addressOf symbol)).push value).stateAt
          (pc + 1 + (init.code g.labels (number + 1)).length)) _ _ :=
        carries_store holds.left.tail.right
      -- The evaluator and the machine go on with the other names from the memory with this value.
      have whole := stored.andThen fun s' =>
        ih restTyped restHas (fun _ mem => sub (List.mem_append_right _ mem)) next s'
      rwa [Outcome.andThen_after] at whole

namespace Setting

/-! ### Control -/

variable {g : Setting} {pc pc' turns number : Nat} {rest rest' rest'' : List Instruction}

/-- What follows without changing the situation. -/
theorem Carries.extend {start : Machine.State} {outcome : Option Outcome}
    (h : g.Carries turns start pc outcome)
    (h' : ∀ s : Situation, ∃ n, Machine.Steps g.machine.code n (s.stateAt pc) (s.stateAt pc')) :
    g.Carries turns start pc' outcome := by
  match outcome, h with
  | some (.done s), ⟨n, steps⟩ =>
    obtain ⟨m, more⟩ := h' s
    exact ⟨n + m, steps.trans more⟩
  | some (.fault _ _), h => exact h
  | none, h => exact h

section Control

variable {test : Situation → Except Fault Int32} {body otherwise : Situation → Option Outcome}
  {branch jump jump' : Nat}

/-- A condition that is 0 leads past the body, to the mark behind it; otherwise the body comes, and the jump behind it
leads to the same mark. -/
theorem carries_ifThen (computes : ∀ s, g.Computes (s.stateAt (pc + 1)) s branch (test s))
    (carries : ∀ s, g.Carries turns (s.stateAt (branch + 1)) jump (body s))
    (start : g.program.Holds pc (.mark (numbered "IF" number) :: rest))
    (branches : g.program.Holds branch (.branchIfZero (numbered "ENDIF" number) :: rest'))
    (jumps : g.program.Holds jump (.jump (numbered "ENDIF" number) ::
      .mark (numbered "ENDIF" number) :: rest'')) (s : Situation) :
    g.Carries turns (s.stateAt pc) (jump + 2)
      (Outcome.after (test s) s fun value => if value = 0 then some (.done s) else body s) := by
  have control : "ENDIF" ∈ controlStems := by decide
  have skip : ∀ s : Situation, Machine.Steps g.machine.code 1 (s.stateAt (jump + 1)) (s.stateAt (jump + 2)) :=
    fun s => steps_mark jumps.tail
  refine Carries.after_steps (steps_mark start) ((computes s).after (fun value => ?_) rfl rfl)
  refine Carries.after_steps (steps_branchIfZero control jumps.tail branches value) ?_
  split
  · exact ⟨1, skip s⟩
  · exact (carries s).extend fun s => ⟨1 + 1, (steps_jump control jumps.tail jumps).trans (skip s)⟩

/-- The body and the alternative both end at the same mark. -/
theorem carries_ifElse (computes : ∀ s, g.Computes (s.stateAt (pc + 1)) s branch (test s))
    (carries : ∀ s, g.Carries turns (s.stateAt (branch + 1)) jump (body s))
    (carries' : ∀ s, g.Carries turns (s.stateAt (jump + 2)) jump' (otherwise s))
    (start : g.program.Holds pc (.mark (numbered "IF" number) :: rest))
    (branches : g.program.Holds branch (.branchIfZero (numbered "ELSE" number) :: rest'))
    (jumps : g.program.Holds jump (.jump (numbered "ENDIF" number) ::
      .mark (numbered "ELSE" number) :: rest''))
    (jumps' : g.program.Holds jump' [.jump (numbered "ENDIF" number), .mark (numbered "ENDIF" number)])
    (s : Situation) :
    g.Carries turns (s.stateAt pc) (jump' + 2)
      (Outcome.after (test s) s fun value => if value = 0 then otherwise s else body s) := by
  have control : "ELSE" ∈ controlStems := by decide
  have control' : "ENDIF" ∈ controlStems := by decide
  have skip : ∀ s : Situation,
      Machine.Steps g.machine.code 1 (s.stateAt (jump' + 1)) (s.stateAt (jump' + 2)) :=
    fun s => steps_mark jumps'.tail
  refine Carries.after_steps (steps_mark start) ((computes s).after (fun value => ?_) rfl rfl)
  refine Carries.after_steps (steps_branchIfZero control jumps.tail branches value) ?_
  split
  · refine Carries.after_steps (steps_mark jumps.tail) ((carries' s).extend fun s => ?_)
    exact ⟨1 + 1, (steps_jump control' jumps'.tail jumps').trans (skip s)⟩
  · exact (carries s).extend fun s => ⟨1 + 1, (steps_jump control' jumps'.tail jumps).trans (skip s)⟩

/-- One turn of a loop and the way back, which takes a step and so pays for the turn. -/
theorem carries_turn {loopStem : String} {first final : Nat} (control : loopStem ∈ controlStems)
    (carries : ∀ s, g.Carries turns (s.stateAt first) jump (body s))
    (start : g.program.Holds pc (.mark (numbered loopStem number) :: rest))
    (jumps : g.program.Holds jump (.jump (numbered loopStem number) :: rest')) {count : Nat}
    (le : count + 1 ≤ turns)
    (again : ∀ s, g.Carries count (s.stateAt pc) final (Outcome.loop test body count s)) (s : Situation) :
    g.Carries (count + 1) (s.stateAt first) final
      (Outcome.andThen (body s) (Outcome.loop test body count)) := by
  refine ((carries s).mono le).andThen fun s' => ?_
  have back := (again s').of_steps (steps_jump control start jumps)
  rwa [Nat.add_comm] at back

/-- A loop with its test first, followed from its test on for as many turns as the evaluator takes. -/
theorem carries_loop {loopStem endStem : String} (control : loopStem ∈ controlStems)
    (control' : endStem ∈ controlStems) (computes : ∀ s, g.Computes (s.stateAt (pc + 1)) s branch (test s))
    (carries : ∀ s, g.Carries turns (s.stateAt (branch + 1)) jump (body s))
    (start : g.program.Holds pc (.mark (numbered loopStem number) :: rest))
    (branches : g.program.Holds branch (.branchIfZero (numbered endStem number) :: rest'))
    (jumps : g.program.Holds jump (.jump (numbered loopStem number) ::
      .mark (numbered endStem number) :: rest'')) {count : Nat} (le : count ≤ turns) (s : Situation) :
    g.Carries count (s.stateAt pc) (jump + 2) (Outcome.loop test body count s) := by
  induction count generalizing s with
  | zero => exact ⟨0, _, Nat.le_refl 0, .refl _⟩
  | succ count ih =>
    refine Carries.after_steps (steps_mark start) ((computes s).after (fun value => ?_) rfl rfl)
    refine Carries.after_steps (steps_branchIfZero control' jumps.tail branches value) ?_
    split
    · exact ⟨1, steps_mark jumps.tail⟩
    · exact carries_turn control carries start jumps le (ih (Nat.le_of_succ_le le)) s

/-- A loop with its test first whose first test stands apart: it leads into the loop past the test, or
to the test once more. -/
theorem carries_forLoop {first : Nat} (computes : ∀ s, g.Computes (s.stateAt pc) s first (test s))
    (computes' : ∀ s, g.Computes (s.stateAt (first + 2)) s branch (test s))
    (carries : ∀ s, g.Carries turns (s.stateAt (branch + 2)) jump (body s))
    (branches : g.program.Holds first (.branchIfNotZero (numbered "BODYFOR" number) ::
      .mark (numbered "CHECKFOR" number) :: rest))
    (branches' : g.program.Holds branch (.branchIfZero (numbered "ENDFOR" number) ::
      .mark (numbered "BODYFOR" number) :: rest'))
    (jumps : g.program.Holds jump [.jump (numbered "CHECKFOR" number), .mark (numbered "ENDFOR" number)])
    (s : Situation) :
    g.Carries turns (s.stateAt pc) (jump + 2) (Outcome.loop test body turns s) := by
  have control : "CHECKFOR" ∈ controlStems := by decide
  have control' : "BODYFOR" ∈ controlStems := by decide
  have carries' : ∀ s, g.Carries turns (s.stateAt (branch + 1)) jump (body s) :=
    fun s => (carries s).after_steps (steps_mark branches'.tail)
  have loops : ∀ {count : Nat}, count ≤ turns → ∀ s,
      g.Carries count (s.stateAt (first + 1)) (jump + 2) (Outcome.loop test body count s) :=
    fun le => carries_loop control (by decide) computes' carries' branches.tail branches' jumps le
  cases turns with
  | zero => exact ⟨0, _, Nat.le_refl 0, .refl _⟩
  | succ count =>
    cases tested : test s with
    | error cause =>
      have faults := computes s
      rw [tested] at faults
      rw [Outcome.loop, tested]
      exact faults
    | ok value =>
      obtain ⟨n, steps⟩ := tested ▸ computes s
      refine (Carries.after_steps (steps_branchIfNotZero control' branches'.tail branches value)
        ?_).after_steps steps
      -- A first test that fails is made once more at the head of the loop, with the same value.
      split
      · exact loops (Nat.le_refl _) s
      · rename_i nonzero
        rw [Outcome.loop, tested, Outcome.after, if_neg nonzero]
        exact carries_turn control carries' branches.tail jumps (Nat.le_refl _)
          (loops (Nat.le_succ count)) s

/-- A loop with its test last, followed from its test on. -/
theorem carries_doLoop (computes : ∀ s, g.Computes (s.stateAt pc) s branch (test s))
    {first : Nat} (carries : ∀ s, g.Carries turns (s.stateAt (first + 1)) pc (body s))
    (start : g.program.Holds first (.mark (numbered "WHILE" number) :: rest))
    (branches : g.program.Holds branch [.branchIfZero (numbered "ENDWHILE" number),
      .jump (numbered "WHILE" number), .mark (numbered "ENDWHILE" number)])
    {count : Nat} (le : count ≤ turns) (s : Situation) :
    g.Carries count (s.stateAt pc) (branch + 3) (Outcome.loop test body count s) := by
  have control : "WHILE" ∈ controlStems := by decide
  have control' : "ENDWHILE" ∈ controlStems := by decide
  induction count generalizing s with
  | zero => exact ⟨0, _, Nat.le_refl 0, .refl _⟩
  | succ count ih =>
    refine (computes s).after (fun value => ?_) rfl rfl
    refine Carries.after_steps (steps_branchIfZero control' branches.tail.tail branches value) ?_
    split
    · exact ⟨1, steps_mark branches.tail.tail⟩
    · have turn := ((carries s).mono (Nat.le_of_succ_le le)).andThen (ih (Nat.le_of_succ_le le))
      have back := turn.of_steps ((steps_jump control start branches.tail).trans (steps_mark start))
      exact back.mono (by omega)

end Control

end Setting

mutual

/-- The code of a statement does what the evaluator says of it. By induction on the statement: the parts
stand where the code of the whole has them, and each kind of statement puts them together as one of the
lemmas above says. -/
theorem Stmt.carries {g : Setting} (turns : Nat) :
    {st : Stmt} → st.Typed g.types → st.HasCode g.labels → {number : Nat} →
      st.literals number ⊆ g.literals → {pc : Nat} → g.program.Holds pc (st.code g.labels number) →
      ∀ s : Situation, g.Carries turns (s.stateAt pc) (pc + (st.code g.labels number).length)
        (st.exec g.place turns number s)
  | .block _, typed, has, _, sub, _, holds, s => Block.carries turns typed has sub holds s
  | .ifThen condition body, typed, has, number, sub, pc, holds, s => by
    obtain ⟨subC, subB⟩ := List.append_subset.1 sub
    have length : pc + ((Stmt.ifThen condition body).code g.labels number).length =
        pc + 1 + (condition.code g.labels (number + 1)).length + 1 +
          (body.code g.labels (number + 1 + condition.numbers)).length + 2 := by
      simp [Stmt.code]
      omega
    rw [length]
    exact carries_ifThen
      (fun s => (Expr.computes typed.1 has.1 subC).1 (s := s) holds.tail.left)
      (Block.carries turns typed.2 has.2 subB holds.tail.right.tail.left) holds holds.tail.right
      holds.tail.right.tail.right s
  | .ifElse condition body otherwise, typed, has, number, sub, pc, holds, s => by
    obtain ⟨subC, sub⟩ := List.append_subset.1 sub
    obtain ⟨subB, subO⟩ := List.append_subset.1 sub
    have jumps := holds.tail.right.tail.right
    have length : pc + ((Stmt.ifElse condition body otherwise).code g.labels number).length =
        pc + 1 + (condition.code g.labels (number + 1)).length + 1 +
          (body.code g.labels (number + 1 + condition.numbers)).length + 2 +
            (otherwise.code g.labels (number + 1 + condition.numbers + body.numbers)).length + 2 := by
      simp [Stmt.code]
      omega
    rw [length]
    exact carries_ifElse
      (fun s => (Expr.computes typed.1 has.1 subC).1 (s := s) holds.tail.left)
      (Block.carries turns typed.2.1 has.2.1 subB holds.tail.right.tail.left)
      (Stmt.carries turns typed.2.2 has.2.2 subO jumps.tail.tail.left) holds holds.tail.right jumps
      jumps.tail.tail.right s
  | .whileLoop condition body, typed, has, number, sub, pc, holds, s => by
    obtain ⟨subC, subB⟩ := List.append_subset.1 sub
    have length : pc + ((Stmt.whileLoop condition body).code g.labels number).length =
        pc + 1 + (condition.code g.labels (number + 1)).length + 1 +
          (body.code g.labels (number + 1 + condition.numbers)).length + 2 := by
      simp [Stmt.code]
      omega
    rw [length]
    exact carries_loop (by decide) (by decide)
      (fun s => (Expr.computes typed.1 has.1 subC).1 (s := s) holds.tail.left)
      (Block.carries turns typed.2 has.2 subB holds.tail.right.tail.left) holds holds.tail.right
      holds.tail.right.tail.right (Nat.le_refl turns) s
  | .doWhile body condition, typed, has, number, sub, pc, holds, s => by
    obtain ⟨subB, subC⟩ := List.append_subset.1 sub
    have turn := Block.carries turns typed.1 has.2 subB holds.tail.left
    have length : pc + ((Stmt.doWhile body condition).code g.labels number).length =
        pc + 1 + (body.code g.labels (number + 1)).length +
          (condition.code g.labels (number + 1 + body.numbers)).length + 3 := by
      simp [Stmt.code]
      omega
    rw [length]
    exact ((turn s).after_steps (steps_mark holds)).andThen fun s => carries_doLoop
      (fun s => (Expr.computes typed.2 has.1 subC).1 (s := s) holds.tail.right.left) turn holds
      holds.tail.right.right (Nat.le_refl turns) s
  | .forLoop init condition step body, typed, has, number, sub, pc, holds, s => by
    obtain ⟨subI, sub⟩ := List.append_subset.1 sub
    obtain ⟨subF, sub⟩ := List.append_subset.1 sub
    obtain ⟨subL, sub⟩ := List.append_subset.1 sub
    obtain ⟨subB, subS⟩ := List.append_subset.1 sub
    obtain ⟨typedI, typedC, typedS, typedB⟩ := typed
    obtain ⟨hasI, hasC, hasB, hasS⟩ := has
    have again := holds.tail.right.right.tail.tail
    have rest := again.right.tail.tail
    have started := (Stmt.carries turns typedI hasI subI holds.tail.left s).after_steps
      (steps_mark holds)
    have first := fun s => (Expr.computes typedC hasC subF).1 (s := s) holds.tail.right.left
    have later := fun s : Situation => (Expr.computes typedC hasC subL).1 (s := s) again.left
    have turn := fun s => (Block.carries turns typedB hasB subB rest.left s).andThen
      (Stmt.carries turns typedS hasS subS rest.right.left)
    -- The second copy of the condition has other literals and the same value.
    have same := fun s : Situation =>
      ((Expr.value_renumber typedC hasC s.memory subL subF).1 (by decide))
    have length : pc + ((Stmt.forLoop init condition step body).code g.labels number).length =
        pc + 1 + (init.code g.labels (number + 1)).length +
          (condition.code g.labels (number + 1 + init.numbers)).length + 2 +
          (condition.code g.labels (number + 1 + init.numbers + condition.numbers)).length + 2 +
          (body.code g.labels (number + 1 + init.numbers + condition.numbers +
            condition.numbers)).length +
          (step.code g.labels (number + 1 + init.numbers + condition.numbers + condition.numbers +
            body.numbers)).length + 2 := by
      simp [Stmt.code]
      omega
    rw [length]
    exact started.andThen (carries_forLoop first (fun s => same s ▸ later s) turn
      holds.tail.right.right again.right rest.right.right)
  | .declare _ _, typed, has, _, sub, _, holds, s => Declarator.carries typed has sub holds s
  | .assign target value, ⟨lvalue, ty, typedT, typedV⟩, has, number, sub, pc, holds, s => by
    obtain ⟨subT, subV⟩ := List.append_subset.1 sub
    have address := (Expr.computes typedT has.1 subT).2 lvalue (s := s) holds.left
    have computed := fun a =>
      (Expr.computes typedV has.2 subV).1 (s := s.push a) holds.right.left
    have length : pc + ((Stmt.assign target value).code g.labels number).length =
        pc + (target.addressCode g.labels number).length +
          (value.code g.labels (number + target.numbers)).length + 1 := by
      simp [Stmt.code]
      omega
    rw [length]
    exact address.after (fun a => (computed a).after
      (fun value => carries_store (s := s) holds.right.right) rfl rfl) rfl rfl
  | .eval value, ⟨ty, typed⟩, has, number, sub, pc, holds, s =>
    ((Expr.computes typed has sub).1 (s := s) holds).after (fun value => ⟨0, .refl _⟩) rfl rfl
  | .print value, ⟨ty, typed⟩, has, number, sub, pc, holds, s => by
    have length : pc + ((Stmt.print value).code g.labels number).length =
        pc + (value.code g.labels number).length + 1 := by
      simp [Stmt.code]
      omega
    rw [length]
    exact ((Expr.computes typed has.1 sub).1 (s := s) holds.left).after
      (fun value => carries_print holds.right) rfl rfl
  | .input target, ⟨lvalue, ty, typed, _⟩, has, number, sub, pc, holds, s => by
    -- A target of type string would have storage.
    have int : inputOp target.ty? = .inputInt := by
      rw [typed.ty?_eq]
      refine if_neg fun string => ?_
      cases string
      obtain ⟨value, rfl⟩ := Expr.Typed.eq_literal typed has.1
      cases lvalue
    have reads := holds.right
    rw [int] at reads
    have length : pc + ((Stmt.input target).code g.labels number).length =
        pc + (target.addressCode g.labels number).length + 2 := by
      simp [Stmt.code]
      omega
    rw [length]
    exact ((Expr.computes typed has.1 sub).2 lvalue (s := s) holds.left).after
      (fun address => carries_input reads) rfl rfl

theorem Block.carries {g : Setting} (turns : Nat) :
    {body : Block} → body.Typed g.types → body.HasCode g.labels → {number : Nat} →
      body.literals number ⊆ g.literals → {pc : Nat} →
      g.program.Holds pc (body.code g.labels number) →
      ∀ s : Situation, g.Carries turns (s.stateAt pc) (pc + (body.code g.labels number).length)
        (body.exec g.place turns number s)
  | ⟨_, _⟩, typed, has, _, sub, _, holds, s => Stmt.carries_all turns typed has sub holds s

theorem Stmt.carries_all {g : Setting} (turns : Nat) :
    {statements : List Stmt} → Stmt.AllTyped g.types statements →
      Stmt.AllHaveCode g.labels statements → {number : Nat} →
      Stmt.allLiterals number statements ⊆ g.literals → {pc : Nat} →
      g.program.Holds pc (Stmt.allCode g.labels number statements) →
      ∀ s : Situation,
        g.Carries turns (s.stateAt pc) (pc + (Stmt.allCode g.labels number statements).length)
          (Stmt.execAll g.place turns number statements s)
  | [], _, _, _, _, _, _, s => ⟨0, .refl _⟩
  | statement :: rest, typed, has, number, sub, pc, holds, s => by
    obtain ⟨subS, subR⟩ := List.append_subset.1 sub
    have whole := (Stmt.carries turns typed.1 has.1 subS holds.left s).andThen
      (Stmt.carries_all turns typed.2 has.2 subR holds.right)
    rwa [Nat.add_assoc, ← List.length_append] at whole

end

end MiniC
