import Mathlib.Data.List.Nodup
import MiniC.Compile
import MiniC.Proofs.Discipline

/-!
# Statements leave the stack as it was

Between two statements the stack holds the values of the expression statements that were completed so far,
and nothing else; and no later statement touches them. So without expression statements the stack is empty
between statements, and its height is bounded by the highest frame in the tree, `Block.depth`.
`Source.lower_stack_neutral` says this of every run of every source that can be lowered.
-/

namespace MiniC

/-! ## Borders -/

/-- A statement of the tree starts or ends at a place in its code. -/
def Block.IsBorder (labels : SymbolId → Option String) (b : Block) (place : Nat) : Prop :=
  ∃ before after, b.course 0 = before ++ .border :: after ∧
    place = (before.flatMap (Action.code labels)).length

/-- The piece of code is an expression statement. -/
def Action.isEval : Action → Bool
  | .eval .. => true
  | .border | .mark _ | .jump _ | .test .. | .assign .. | .print .. | .input .. => false

/-- There is an expression statement in the tree. -/
def Block.hasEval (b : Block) : Bool :=
  (b.course 0).any Action.isEval

theorem length_flatMap_cells (labels : SymbolId → Option String) (course : List Action) :
    (course.flatMap (Action.cells labels)).length = (course.flatMap (Action.code labels)).length := by
  induction course with
  | nil => rfl
  | cons a course ih =>
    rw [List.flatMap_cons, List.flatMap_cons, List.length_append, List.length_append, ih,
      ← a.map_instruction_cells labels, List.length_map]

/-- At a border the frame is empty. -/
theorem Block.IsBorder.flows {v : Vocabulary} {b : Block} {place : Nat}
    (border : b.IsBorder v.labels place) (sound : ∀ a ∈ b.course 0, a.Sound v) :
    Flows v b.depth [] ((b.cells v.labels).drop place) [] := by
  obtain ⟨before, after, split, rfl⟩ := border
  have rest : (b.cells v.labels).drop (before.flatMap (Action.code v.labels)).length =
      after.flatMap (Action.cells v.labels) := by
    rw [Block.cells, split, List.flatMap_append, ← length_flatMap_cells, List.drop_left]
    rfl
  rw [rest]
  have sub : ∀ a ∈ after, a ∈ b.course 0 := by
    intro a mem
    rw [split]
    exact List.mem_append_right _ (.tail _ mem)
  exact flows_course (fun a mem => sound a (sub a mem)) fun a mem => Block.depth_le (sub a mem)

theorem Block.completes_eq_false {labels : SymbolId → Option String} {b : Block}
    (h : b.hasEval = false) (place : Nat) : Discipline.completes (b.cells labels) place = false := by
  suffices ∀ cell ∈ b.cells labels, cell.keeps = false by
    unfold Discipline.completes
    cases found : (b.cells labels)[place]? with
    | none => rfl
    | some cell => exact this cell (List.mem_of_getElem? found)
  intro cell mem
  obtain ⟨a, held, mem⟩ := List.mem_flatMap.1 mem
  cases a with
  | eval number value => exact absurd rfl (List.any_eq_false.1 h _ held)
  | border | mark | jump | test | assign | print | input =>
    obtain ⟨i, -, rfl⟩ := List.mem_map.1 mem
    rfl

/-! ## Heights -/

namespace Discipline

variable {d : Discipline} {kept : List Int32} {s : Machine.State}

/-- Where the stack is found full, there is no room for the highest frame above what was kept. -/
theorem Situated.lt_of_overflow (h : d.Situated kept s) {i : LoadedInstruction} {full : Nat}
    {final : Machine.State} (found : d.machine.code[s.pc]? = some i)
    (failed : Machine.step d.machine.capacity i { s with pc := s.pc + 1 } =
      .error (.stackOverflow full) final) : d.capacity < d.limit + kept.length := by
  obtain ⟨cell, values, σ, μ, -, rfl, stack, holds, moves, low, -⟩ := h.exists_moves found
  obtain ⟨-, high⟩ := Machine.step_eq_error failed
  obtain ⟨s', went, high⟩ := high full rfl
  obtain ⟨⟨values', stack', holds'⟩, -⟩ :=
    step_of_moves (s := { s with pc := s.pc + 1 }) moves holds stack h.intact went
  have height : s'.stack.height = μ.length + kept.length := by
    rw [s'.stack.height_eq, stack', List.length_append, holds'.length_eq]
  have capacity : d.machine.capacity = d.capacity := d.program.capacity_machine d.capacity
  omega

end Discipline

/-! ## Checked sources -/

namespace CheckedSource.Lowers

variable {checked : CheckedSource} (h : checked.Lowers)

include h

/-- No two symbols share a label. -/
theorem labels_inj {id id' : SymbolId} {label : String} (found : checked.labels id = some label)
    (found' : checked.labels id' = some label) : id = id' := by
  obtain ⟨number, s, mem, -, rfl⟩ := h.labels_eq_some found
  obtain ⟨number', s', mem', -, same⟩ := h.labels_eq_some found'
  obtain ⟨-, rfl⟩ := numbered_inj.1 same
  have nodup : ((checked.tree.storage 0).map Prod.snd).Nodup := (Block.drawn_storage 0 checked.tree).nodup
  exact congrArg Prod.fst (List.inj_on_of_nodup_map nodup mem mem' rfl)

/-- What the names in a checked source stand for. -/
def vocabulary (indexed : Prop) : Vocabulary where
  types := checked.table.typeOf?
  labels := checked.labels
  literals := checked.tree.literals 0
  indexed := indexed
  sized _ _ found := h.size_of_label found
  distinct _ _ _ found found' := h.labels_inj found found'

/-- The course of a checked source is sound. -/
theorem sound_course {indexed : Prop} (index : checked.tree.HasIndex → indexed) :
    ∀ a ∈ checked.tree.course 0, a.Sound (h.vocabulary indexed) :=
  Block.sound_course (v := h.vocabulary indexed) h.valid.typed h.hasCode (fun _ mem => mem) index

omit h in
/-- The cells of a checked source are its code. -/
theorem code_cells : (checked.tree.cells checked.labels).map Cell.instruction = checked.program.code :=
  checked.tree.map_instruction_cells checked.labels

/-- The frames of a checked source, where nothing is asked of memory. -/
def discipline (capacity : Nat) (short : checked.program.code.length ≤ 4294967296) : Discipline where
  vocabulary := h.vocabulary True
  program := checked.program
  capacity := capacity
  limit := checked.tree.depth
  cells := checked.tree.cells checked.labels
  Intact _ := True
  code_eq := code_cells
  flows := flows_course (h.sound_course fun _ => trivial) fun _ mem => Block.depth_le mem
  labelled := h.wellLabelled
  short := short
  resolves plain := absurd trivial plain
  loads plain := absurd trivial plain
  stores plain := absurd trivial plain

theorem situated_start (capacity : Nat) (short : checked.program.code.length ≤ 4294967296)
    (console : Console) :
    (h.discipline capacity short).Situated [] ((checked.program.machine capacity).start console) where
  frame := ⟨[], [], rfl, .nil, (h.discipline capacity short).flows⟩
  intact _ := trivial

section Runs

variable {capacity : Nat} (short : checked.program.code.length ≤ 4294967296) {console : Console}

include short

/-- At a border the stack holds a value for each expression statement that was completed, and these values
stay where they are. -/
theorem height_of_border {places : List Nat} {s : Machine.State}
    (path : (checked.program.machine capacity).Path ((checked.program.machine capacity).start console) places s)
    (border : checked.tree.IsBorder checked.labels s.pc) :
    s.stack.height = places.countP (Discipline.completes (checked.tree.cells checked.labels)) ∧
      ∀ places' s', (checked.program.machine capacity).Path s places' s' →
        s.stack.values <:+ s'.stack.values := by
  obtain ⟨kept, situated, count⟩ := (h.situated_start capacity short console).path path
  rw [List.append_nil] at situated
  have values : s.stack.values = kept :=
    situated.values_eq (border.flows (h.sound_course fun _ => trivial))
  refine ⟨by rw [s.stack.height_eq, values, count]; rfl, fun places' s' path' => ?_⟩
  obtain ⟨more, situated', -⟩ := situated.path path'
  obtain ⟨above, σ, stack, -⟩ := situated'.frame
  exact ⟨above ++ more, by rw [values, stack, List.append_assoc]⟩

/-- Without expression statements nothing is kept. -/
theorem situated_nil (silent : checked.tree.hasEval = false) {places : List Nat} {s : Machine.State}
    (path : (checked.program.machine capacity).Path
      ((checked.program.machine capacity).start console) places s) :
    (h.discipline capacity short).Situated [] s := by
  obtain ⟨kept, situated, count⟩ := (h.situated_start capacity short console).path path
  have zero : places.countP (Discipline.completes (checked.tree.cells checked.labels)) = 0 := by
    simp [List.countP_eq_zero, Block.completes_eq_false silent]
  rw [List.append_nil, List.eq_nil_of_length_eq_zero (count.trans zero)] at situated
  exact situated

/-- Without expression statements a stack with room for the highest frame is never full. -/
theorem ne_overflow (silent : checked.tree.hasEval = false) (room : checked.tree.depth ≤ capacity) {fuel full : Nat}
    {ended : Machine.Ended} (ran : (checked.program.machine capacity).run fuel console = some ended) :
    ended.outcome ≠ .error (.stackOverflow full) := by
  obtain ⟨places, last, path, stops⟩ := Machine.exists_path_of_runFrom ran
  have situated := h.situated_nil short silent path
  cases stops with
  | done past => simp
  | fault found failed =>
    intro same
    cases same
    have exceeds : capacity < checked.tree.depth + 0 := situated.lt_of_overflow found failed
    omega

/-- Without expression statements the result of a run is zero. -/
theorem result_eq_zero (silent : checked.tree.hasEval = false) {fuel : Nat} {ended : Machine.Ended} {value : Int32}
    (ran : (checked.program.machine capacity).run fuel console = some ended)
    (ok : ended.outcome = .ok value) : value = 0 := by
  obtain ⟨places, last, path, stops⟩ := Machine.exists_path_of_runFrom ran
  have situated := h.situated_nil short silent path
  cases stops with
  | fault found failed => cases ok
  | done past =>
    have past' : (checked.tree.cells checked.labels).drop last.pc = [] := by
      have past : (h.discipline capacity short).machine.code[last.pc]? = none := past
      rw [Discipline.getElem?_code, Option.map_eq_none_iff, List.getElem?_eq_none_iff] at past
      exact List.drop_eq_nil_of_le past
    have empty : last.stack.values = [] := by
      refine situated.values_eq ?_
      show Flows _ _ [] ((checked.tree.cells checked.labels).drop last.pc) []
      rw [past']
      exact .nil []
    have top : last.stack.top? = none := congrArg List.head? empty
    rw [top] at ok
    cases ok
    rfl

end Runs

end CheckedSource.Lowers

/-- Statements are neutral to the stack. The program of a source loads into every machine, and in every run
of it, wherever a statement starts or ends, the height of the stack is the number of expression statements
completed so far, and the values there stay where they are from then on. If the source has no expression
statement, then no run finds the stack full whose capacity is at least the depth of the tree, and the
result of every run that ends well is zero. The bound is that within which the place of a mark can be told
from a lower one by the 32 bits of an argument. -/
theorem Source.lower_stack_neutral {source : String} {options : Options} {p : Program}
    (lowered : Source.lower source options = .ok p) (short : p.code.length ≤ 4294967296) :
    ∃ (checked : CheckedSource) (table : SymbolTable),
      Source.check source options = .ok checked ∧
      checked.tree.lower checked.table = (.ok p, table) ∧
      (checked.tree.cells table.label?).map Cell.instruction = p.code ∧
      ∀ blank : Machine, ∃ m, Machine.load p blank = .ok () m ∧ m.capacity = blank.capacity ∧
        ∀ console : Console,
          (∀ places s, m.Path (m.start console) places s → checked.tree.IsBorder table.label? s.pc →
            s.stack.height =
                places.countP (Discipline.completes (checked.tree.cells table.label?)) ∧
              ∀ places' s', m.Path s places' s' → s.stack.values <:+ s'.stack.values) ∧
          (checked.tree.hasEval = false →
            (checked.tree.depth ≤ m.capacity → ∀ fuel ended full, m.run fuel console = some ended →
              ended.outcome ≠ .error (.stackOverflow full)) ∧
            ∀ fuel ended value, m.run fuel console = some ended → ended.outcome = .ok value →
              value = 0) := by
  obtain ⟨checked, table, hcheck, hlower, h, rfl, labels⟩ := Source.lower_eq_ok lowered
  refine ⟨checked, table, hcheck, hlower, ?_, fun blank => ⟨checked.program.machine blank.capacity,
    Machine.load_eq_ok_iff.2 ⟨h.wellLabelled, rfl⟩, Program.capacity_machine _ _, fun console => ?_⟩⟩
  · rw [labels]
    exact CheckedSource.Lowers.code_cells
  rw [labels, Program.capacity_machine]
  refine ⟨fun places s path border => h.height_of_border short path border, fun silent => ⟨?_, ?_⟩⟩
  · intro room fuel ended full ran
    exact h.ne_overflow short silent room ran
  · intro fuel ended value ran ok
    exact h.result_eq_zero short silent ran ok

set_option maxRecDepth 100000 in
/-- A loop on a stack with room for three values, which is the depth of its tree: it ends with zero. -/
theorem Source.lower_stack_neutral_loop :
    ∃ (source : String) (p : Program) (checked : CheckedSource) (m : Machine) (ended : Machine.Ended),
      source = "\x7b int i = 0; while (i < 3) \x7b i = i + 1; \x7d print i; \x7d" ∧
      Source.lower source = .ok p ∧ p.code.length ≤ 4294967296 ∧ Source.check source = .ok checked ∧
      checked.tree.hasEval = false ∧ checked.tree.depth = 3 ∧
      Machine.load p { capacity := 3 } = .ok () m ∧ m.run 200 {} = some ended ∧ ended.outcome = .ok 0 := by
  generalize hsource : "\x7b int i = 0; while (i < 3) \x7b i = i + 1; \x7d print i; \x7d" = source
  have runs : (Source.lower source).toOption.any (fun p =>
      ((p.machine 3).run 200 {}).any fun ended => p.code.length ≤ 4294967296 &&
        ended.outcome.toOption.isSome) = true := by
    subst hsource
    decide +kernel
  have shape : (Source.check source).toOption.any (fun checked =>
      checked.tree.hasEval = false ∧ checked.tree.depth = 3) = true := by
    subst hsource
    decide +kernel
  refine ⟨source, ?_⟩
  cases lowered : Source.lower source with
  | error e => simp [lowered, Except.toOption] at runs
  | ok p =>
    simp only [lowered, Except.toOption, Option.any_some, Option.any_eq_true, Bool.and_eq_true,
      decide_eq_true_eq] at runs
    obtain ⟨ended, ran, short, finished⟩ := runs
    obtain ⟨checked, table, hcheck, -, -, loads⟩ := Source.lower_stack_neutral lowered short
    obtain ⟨m, loaded, -, neutral⟩ := loads { capacity := 3 }
    simp only [hcheck, Except.toOption, Option.any_some, decide_eq_true_eq] at shape
    have machine := (Machine.load_eq_ok_iff.1 loaded).2
    rw [← machine] at ran
    cases outcome : ended.outcome with
    | error cause => simp [outcome] at finished
    | ok value =>
      have zero : value = 0 := ((neutral {}).2 shape.1).2 200 ended value ran outcome
      exact ⟨p, checked, m, ended, rfl, rfl, short, hcheck, shape.1, shape.2, loaded, ran, zero ▸ outcome⟩

end MiniC
