import MiniC.Proofs.Simulation

/-!
# Compiled sources run as they mean

A source that can be lowered makes a program that loads, and the machine runs it as the evaluator
evaluates its checked tree: with the same result, the same memory and the same console, or the same
fault, unless the stack overflows. `Source.lower_preserves_meaning` puts this together from the
simulation of the tree's code; the two bounds in it are those within which every address and every place
in the code fits into an argument.
-/

namespace MiniC

/-! ## Loading with another capacity -/

theorem Machine.foldl_extend_capacity (blocks : List DataBlock) (m : Machine) (capacity : Nat) :
    blocks.foldl extend { m with capacity } = { blocks.foldl extend m with capacity } := by
  induction blocks generalizing m with
  | nil => rfl
  | cons b rest ih => exact ih (m.extend b)

/-- A program is loaded in the same way for every capacity of the stack. -/
theorem Program.machine_capacity (p : Program) (capacity capacity' : Nat) :
    p.machine capacity' = { p.machine capacity with capacity := capacity' } := by
  have laidOut : p.laidOut capacity' = { p.laidOut capacity with capacity := capacity' } :=
    Machine.foldl_extend_capacity p.blocks { capacity, jumpLabels := addMarks .empty 0 p.code } capacity'
  simp only [machine, laidOut]
  rfl

/-! ## The setting of a checked source -/

/-- Different numbers below 2³² are different words. -/
theorem ofNat_ne_ofNat {a b : Nat} (different : a ≠ b) (low : a < 4294967296) (low' : b < 4294967296) :
    Int32.ofNat a ≠ Int32.ofNat b := by
  intro same
  have digits := congrArg (·.toBitVec.toNat) same
  simp only [Int32.toBitVec_ofNat', BitVec.toNat_ofNat] at digits
  omega

namespace CheckedSource.Lowers

variable {checked : CheckedSource} (h : checked.Lowers)

include h

/-- Two literals of a checked source lie at different offsets. -/
theorem literalOffsets_apart {e e' : Nat × String} (mem : e ∈ checked.tree.literals 0)
    (mem' : e' ∈ checked.tree.literals 0) (different : e.1 ≠ e'.1) (capacity : Nat) :
    ∃ a b, (checked.program.machine capacity).dataOffset? (literalLabel e.1) = some a ∧
      (checked.program.machine capacity).dataOffset? (literalLabel e'.1) = some b ∧ a ≠ b ∧
      a < (checked.program.machine capacity).memory.size ∧ b < (checked.program.machine capacity).memory.size := by
  obtain ⟨b, held, label, size, offset, found, inside⟩ := h.exists_literalOffset mem capacity
  obtain ⟨b', held', label', size', offset', found', inside'⟩ := h.exists_literalOffset mem' capacity
  have apart := h.wellLabelled.dataOffset?_disjoint held held'
    (by rw [label, label']; exact fun same => different (numbered_inj.1 same).2) found found'
  refine ⟨offset, offset', label ▸ found, label' ▸ found', ?_, ?_, ?_⟩
  all_goals omega

/-- The literals of a checked source have different addresses, if every address fits into an argument. -/
theorem literals_apart {capacity : Nat}
    (fits : (checked.program.machine capacity).memory.size ≤ 2147483647) {e e' : Nat × String}
    (mem : e ∈ checked.tree.literals 0) (mem' : e' ∈ checked.tree.literals 0) (different : e.1 ≠ e'.1) :
    ((checked.program.machine capacity).placement checked.labels).literalAt e.1 ≠
      ((checked.program.machine capacity).placement checked.labels).literalAt e'.1 := by
  obtain ⟨a, b, found, found', apart, low, low'⟩ := h.literalOffsets_apart mem mem' different capacity
  simp only [Machine.placement, found, found', Option.getD_some]
  exact ofNat_ne_ofNat apart (by omega) (by omega)

/-- The program of a checked source is one in which the code of its tree works. -/
def setting (capacity : Nat) (fits : (checked.program.machine capacity).memory.size ≤ 2147483647)
    (short : checked.program.code.length ≤ 2147483648) : Setting where
  program := checked.program
  capacity := capacity
  types := checked.table.typeOf?
  labels := checked.labels
  literals := checked.tree.literals 0
  labelled := h.wellLabelled
  short := short
  supplied := h.supplied
  sized _ _ found := h.size_of_label found
  apart _ mem _ mem' different := h.literals_apart fits mem mem' different

end CheckedSource.Lowers

/-! ## Runs -/

namespace Outcome

/-- The result of an outcome: the value of the last expression statement, zero without one, or the fault. -/
def result : Outcome → Except Fault Int32
  | .done s => .ok (s.values.head?.getD 0)
  | .fault cause _ => .error cause

/-- The situation that an outcome leaves. -/
def final : Outcome → Situation
  | .done s | .fault _ s => s

end Outcome

/-- A run ended as an outcome says. -/
structure Machine.Ended.Agrees (ended : Machine.Ended) (outcome : Outcome) : Prop where
  outcome_eq : ended.outcome = outcome.result
  memory_eq : ended.final.memory = outcome.final.memory
  console_eq : ended.final.console = outcome.final.console

/-- A run stopped because its stack was full. -/
def Machine.Ended.IsOverflow (ended : Machine.Ended) (capacity : Nat) : Prop :=
  ended.outcome = .error (.stackOverflow capacity)

namespace Setting

variable {g : Setting} {start : Machine.State} {turns : Nat}

/-- Code that is carried to its end makes the run end, as the outcome says. -/
theorem Carries.ends {outcome : Outcome}
    (h : g.Carries turns start g.program.code.length (some outcome)) :
    ∃ fuel, ∀ capacity, ∃ ended,
      Machine.runFrom capacity g.machine.code fuel start = some ended ∧
        (ended.Agrees outcome ∨ capacity < start.stack.height + fuel ∧ ended.IsOverflow capacity) := by
  match outcome, h with
  | .done s', ⟨n, steps⟩ =>
    refine ⟨n + 1, fun capacity => ?_⟩
    have last : Machine.runFrom capacity g.machine.code 1 (s'.stateAt g.program.code.length) =
        some ⟨.ok (s'.values.head?.getD 0), s'.stateAt g.program.code.length⟩ := by
      have past : g.machine.code[g.program.code.length]? = none := by
        simp [machine, Program.getElem?_code_machine]
      simp only [Machine.runFrom, Situation.stateAt, past]
      rfl
    rcases Machine.runFrom_of_steps steps capacity 1 with same | ⟨full, final, overflows⟩
    · exact ⟨_, same.trans last, .inl ⟨rfl, rfl, rfl⟩⟩
    · exact ⟨_, overflows, .inr ⟨Nat.lt_succ_of_lt full, rfl⟩⟩
  | .fault cause s', ⟨final, faults, memory, console⟩ =>
    obtain ⟨n, ends⟩ := Machine.runFrom_of_faults faults
    refine ⟨n, fun capacity => ?_⟩
    rcases ends capacity with same | ⟨full, final, overflows⟩
    · exact ⟨_, same, .inl ⟨rfl, memory, console⟩⟩
    · exact ⟨_, overflows, .inr ⟨full, rfl⟩⟩

/-- A run of code that ends does so with an outcome of the code, unless the stack overflows. -/
theorem Carries.of_ends {outcome : Option Outcome} {capacity fuel : Nat} {ended : Machine.Ended}
    (h : g.Carries fuel start g.program.code.length outcome)
    (ran : Machine.runFrom capacity g.machine.code fuel start = some ended) :
    ended.IsOverflow capacity ∨ ∃ o, outcome = some o ∧ ended.Agrees o := by
  match outcome, h with
  | some o, h =>
    obtain ⟨fuel', ends⟩ := h.ends
    obtain ⟨ended', ran', agrees | ⟨-, overflow⟩⟩ := ends capacity
    · exact .inr ⟨o, rfl, Machine.runFrom_unique ran ran' ▸ agrees⟩
    · exact .inl (Machine.runFrom_unique ran ran' ▸ overflow)
  | none, ⟨n, s', le, steps⟩ =>
    rcases Machine.runFrom_of_steps_le steps capacity le with none | ⟨final, overflows⟩
    · cases ran.symm.trans none
    · cases ran.symm.trans overflows
      exact .inl rfl

end Setting

/-- Evaluates a checked source, each loop through at most `turns` turns. -/
def CheckedSource.evaluate (checked : CheckedSource) (place : Placement) (memory : Array Int32)
    (console : Console) (turns : Nat) : Option Outcome :=
  checked.tree.exec place turns 0 { memory, console }

/-- The code of a checked source does what the evaluator says of it. -/
theorem CheckedSource.Lowers.carries {checked : CheckedSource} (h : checked.Lowers) (capacity : Nat)
    (fits : (checked.program.machine capacity).memory.size ≤ 2147483647)
    (short : checked.program.code.length ≤ 2147483648) (console : Console) (turns : Nat) :
    (h.setting capacity fits short).Carries turns ((checked.program.machine capacity).start console)
      checked.program.code.length
      (checked.evaluate ((checked.program.machine capacity).placement checked.labels)
        (checked.program.machine capacity).image console turns) := by
  have holds : checked.program.Holds 0 (checked.tree.code checked.labels 0) :=
    ⟨[], [], (List.append_nil _).symm, rfl⟩
  have whole := Block.carries (g := h.setting capacity fits short) turns h.valid.typed h.hasCode
    (fun _ mem => mem) holds { memory := (checked.program.machine capacity).image, console }
  rwa [Nat.zero_add] at whole

/-- Lowering preserves meaning. The program of a source loads, for every capacity of the stack, and its
runs are evaluations of the checked tree, from the image of the program with every variable and literal
where the program has it: what the evaluator says within some number of turns, a run comes to, with a
stack that is large enough, and a run that ends without a stack overflow ends as the evaluator says. The
bounds are those within which every address and every place in the code fits into an argument. -/
theorem Source.lower_preserves_meaning {source : String} {options : Options} {p : Program}
    (lowered : Source.lower source options = .ok p) :
    ∃ (checked : CheckedSource) (table : SymbolTable) (m : Machine),
      Source.check source options = .ok checked ∧
      checked.tree.lower checked.table = (.ok p, table) ∧
      (∀ capacity, Machine.load p { capacity } = .ok () { m with capacity }) ∧
      (m.memory.size ≤ 2147483647 → p.code.length ≤ 2147483648 → ∀ console : Console,
        (∀ turns outcome,
          checked.evaluate (m.placement table.label?) m.image console turns = some outcome →
            ∃ fuel, ∀ capacity, ∃ ended : Machine.Ended,
              Machine.run { m with capacity } fuel console = some ended ∧
                (ended.Agrees outcome ∨ capacity < fuel ∧ ended.IsOverflow capacity)) ∧
        ∀ (capacity fuel : Nat) (ended : Machine.Ended),
          Machine.run { m with capacity } fuel console = some ended → ended.IsOverflow capacity ∨
            ∃ outcome, checked.evaluate (m.placement table.label?) m.image console fuel = some outcome ∧
              ended.Agrees outcome) := by
  obtain ⟨checked, table, hcheck, hlower, h, rfl, labels⟩ := Source.lower_eq_ok lowered
  refine ⟨checked, table, checked.program.machine 0, hcheck, hlower, fun capacity => ?_,
    fun fits short console => ?_⟩
  · rw [← Program.machine_capacity]
    exact Machine.load_eq_ok_iff.2 ⟨h.wellLabelled, rfl⟩
  rw [labels]
  refine ⟨fun turns outcome evaluated => ?_, fun capacity fuel ended ran => ?_⟩
  · have carried := h.carries 0 fits short console turns
    rw [evaluated] at carried
    obtain ⟨fuel, ends⟩ := Setting.Carries.ends carried
    refine ⟨fuel, fun capacity => ?_⟩
    obtain ⟨ended, ran, agrees⟩ := ends capacity
    rw [show ((checked.program.machine 0).start console).stack.height = 0 from rfl, Nat.zero_add] at agrees
    exact ⟨ended, ran, agrees⟩
  · exact Setting.Carries.of_ends (h.carries 0 fits short console fuel) ran

set_option maxRecDepth 100000 in
/-- A loop that adds up into an element of an array: the evaluator says what the run prints. -/
theorem Source.lower_preserves_meaning_sum :
    ∃ (source : String) (p : Program) (checked : CheckedSource) (table : SymbolTable) (m : Machine)
      (outcome : Outcome),
      source = "\x7b int[2] s; for (int i = 0; i < 3; i = i + 1) \x7b s[1] = s[1] + i; \x7d print \"sum\"; print s[1]; \x7d" ∧
      Source.lower source = .ok p ∧ Source.check source = .ok checked ∧
      checked.tree.lower checked.table = (.ok p, table) ∧ Machine.load p {} = .ok () m ∧
      m.memory.size ≤ 2147483647 ∧ p.code.length ≤ 2147483648 ∧
      checked.evaluate (m.placement table.label?) m.image {} 200 = some outcome ∧
      outcome.final.console.printed = #["sum", "3"] := by
  generalize hsource : "\x7b int[2] s; for (int i = 0; i < 3; i = i + 1) \x7b s[1] = s[1] + i; \x7d print \"sum\"; print s[1]; \x7d" = source
  have runs : (Source.lower source).toOption.any (fun p =>
      ((p.machine 1024).run 200 {}).any fun ended =>
        (p.machine 1024).memory.size ≤ 2147483647 ∧ p.code.length ≤ 2147483648 ∧
          ended.outcome.toOption.isSome ∧ ended.final.console.printed = #["sum", "3"]) = true := by
    subst hsource
    decide +kernel
  refine ⟨source, ?_⟩
  cases lowered : Source.lower source with
  | error e => simp [lowered, Except.toOption] at runs
  | ok p =>
    obtain ⟨checked, table, m, hcheck, hlower, loads, meaning⟩ := Source.lower_preserves_meaning lowered
    have loaded := (Machine.load_eq_ok_iff.1 (loads 1024)).2
    simp only [lowered, Except.toOption, Option.any_some, Option.any_eq_true, decide_eq_true_eq,
      ← loaded] at runs
    obtain ⟨ended, ran, fits, short, finished, printed⟩ := runs
    rcases (meaning fits short {}).2 1024 200 ended ran with overflow | ⟨outcome, evaluated, agrees⟩
    · rw [overflow] at finished
      cases finished
    · exact ⟨p, checked, table, _, outcome, rfl, rfl, hcheck, hlower, loads 1024, fits, short, evaluated,
        agrees.console_eq ▸ printed⟩

end MiniC
