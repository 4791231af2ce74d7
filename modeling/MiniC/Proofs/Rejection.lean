import MiniC.Proofs.Consoles
import MiniC.Proofs.Loading

/-!
# Programs that are not loaded

Loading stops at the first thing that it refuses and leaves what it came to. If that is a mark or a block of
data, there is no code yet. If it is a name that nobody defines, the instructions before it are already
there, without memory: a run carries them out (`load_eq_error`).

So a run after a refused program gives zero and leaves the console alone in the first case, and in the
second exactly if these instructions do (`run_rejected_iff`). They do exactly if they come to their end with
zero on top of the stack, or nothing, and no instruction on the way prints or reads (`silent_iff_quiet`).
-/

namespace MiniC

/-- Every name in the instruction is that of a mark of the program or, in a `push`, of data. -/
def Program.knows (p : Program) (i : Instruction) : Bool :=
  i.op = .label ||
    i.labelName?.all fun name => name ∈ marks p.code || (i.op = .push && name ∈ p.dataLabels)

/-- The instructions of a program before the first name that it does not define, on a machine without
memory. -/
def Program.fragment (p : Program) (capacity : Nat) : Machine :=
  { capacity, code := ((p.code.takeWhile p.knows).map (p.laidOut capacity).loadedInstruction).toArray }

namespace Machine

/-! ## What a failed loading leaves -/

theorem indexMarks_eq_error {index : Nat} {code : List Instruction} {m m' : Machine} {fault : Fault}
    (failed : indexMarks index code m = .error fault m') :
    m'.capacity = m.capacity ∧ m'.code = m.code ∧ m'.image = m.image ∧
      ∀ name, fault ≠ .unknownLabel name := by
  induction code generalizing index m with
  | nil => cases failed
  | cons i rest ih =>
    by_cases mark : i.op = .label
    · rw [indexMarks_cons_mark mark] at failed
      split at failed
      · cases failed
        exact ⟨rfl, rfl, rfl, by simp⟩
      · split at failed
        · cases failed
          exact ⟨rfl, rfl, rfl, by simp⟩
        · have later := ih failed
          exact later
    · rw [indexMarks_cons_other mark] at failed
      exact ih failed

theorem place_eq_error {m : Machine} {label : String} {alignment stop : Nat} {fault : Fault}
    (failed : m.place label alignment stop = .error fault) (name : String) : fault ≠ .unknownLabel name := by
  unfold place at failed
  split at failed
  · cases failed
    simp
  · split at failed
    · cases failed
      simp
    · cases failed

theorem reserveBlocks_eq_error {blocks : List DataBlock} {m m' : Machine} {fault : Fault}
    (failed : reserveBlocks blocks m = .error fault m') :
    m'.capacity = m.capacity ∧ m'.code = m.code ∧ m'.image = m.image ∧
      ∀ name, fault ≠ .unknownLabel name := by
  induction blocks generalizing m with
  | nil => cases failed
  | cons b rest ih =>
    cases placed : m.place b.label b.alignment m.memory.size with
    | error cause =>
      rw [reserveBlocks, bind_of_error (reserveBlock_of_error placed)] at failed
      cases failed
      exact ⟨rfl, rfl, rfl, place_eq_error placed⟩
    | ok start =>
      rw [reserveBlocks, bind_of_ok (reserveBlock_of_ok placed)] at failed
      have later := ih failed
      exact later

/-- The only reason to refuse an instruction is a name that stands for nothing. -/
theorem resolve_eq_error {m : Machine} {i : Instruction} {fault : Fault} (failed : m.resolve i = .error fault) :
    ∃ name, fault = .unknownLabel name := by
  unfold resolve at failed
  split at failed
  · cases failed
  · cases operand : i.operand with
    | none => simp [operand] at failed
    | immediate value => simp [operand] at failed
    | label name =>
      simp only [operand, resolveLabel] at failed
      split at failed
      · cases failed
      · cases failed
        exact ⟨name, rfl⟩

/-- Code is resolved up to the first name that stands for nothing. -/
theorem resolveCode_eq_error {code : List Instruction} {m m' : Machine} {fault : Fault}
    (failed : resolveCode code m = .error fault m') :
    m' = { m with
      code := m.code ++ ((code.takeWhile fun i => (m.resolve i).toOption.isSome).map m.loadedInstruction).toArray } ∧
      ∃ name, fault = .unknownLabel name := by
  induction code generalizing m with
  | nil => cases failed
  | cons i rest ih =>
    rw [resolveCode_cons] at failed
    cases resolved : m.resolve i with
    | error cause =>
      rw [resolved] at failed
      cases failed
      exact ⟨by simp [resolved, Except.toOption], resolve_eq_error resolved⟩
    | ok argument =>
      rw [resolved] at failed
      obtain ⟨left, unknown⟩ := ih failed
      refine ⟨?_, unknown⟩
      have same : ∀ j, ({ m with code := m.code.push ⟨i.op, argument⟩ } : Machine).resolve j =
          m.resolve j := fun j => resolve_congr rfl rfl j
      have same' : ({ m with code := m.code.push ⟨i.op, argument⟩ } : Machine).loadedInstruction =
          m.loadedInstruction := funext fun j => loadedInstruction_congr rfl rfl j
      have loaded : m.loadedInstruction i = ⟨i.op, argument⟩ := by
        simp [loadedInstruction, resolved, Except.toOption]
      simp only [same, same'] at left
      rw [left]
      simp [resolved, Except.toOption, loaded]

theorem knows_iff {p : Program} {i : Instruction} :
    p.knows i ↔ (i.op ≠ .label → ∀ name, i.operand = .label name →
      name ∈ marks p.code ∨ i.op = .push ∧ name ∈ p.dataLabels) := by
  obtain ⟨op, operand⟩ := i
  by_cases mark : op = .label
  · simp [Program.knows, mark]
  · cases operand with
    | none => simp [Program.knows, Instruction.labelName?]
    | immediate value => simp [Program.knows, Instruction.labelName?]
    | label name => simp [Program.knows, Instruction.labelName?, mark]

/-- The names that a program defines are those that can be resolved. -/
theorem isSome_resolve_laidOut (p : Program) (capacity : Nat) (i : Instruction) :
    ((p.laidOut capacity).resolve i).toOption.isSome = p.knows i := by
  have known := @isSome_resolve_iff (p.laidOut capacity) i
  simp only [isSome_jumpTarget?_laidOut, isSome_dataOffset?_laidOut, ← knows_iff] at known
  rw [Bool.eq_iff_iff, ← known]
  cases (p.laidOut capacity).resolve i with
  | ok argument => simp [Except.toOption]
  | error fault => simp [Except.toOption]

/-- What is left of a program that is refused: nothing of its code if a mark or a block of data is the
cause, and the instructions before the first unknown name if that is. There is no image. -/
theorem load_eq_error {p : Program} {m rejected : Machine} {fault : Fault}
    (rejects : load p m = .error fault rejected) :
    rejected.capacity = m.capacity ∧ rejected.image = #[] ∧
      (rejected.code = #[] ∧ (∀ name, fault ≠ .unknownLabel name) ∨
        rejected.code = (p.fragment m.capacity).code ∧ ∃ name, fault = .unknownLabel name) := by
  rw [load_eq_loadStages, loadStages] at rejects
  rcases bind_eq_error.1 rejects with failed | ⟨_, m₁, indexed, rejects⟩
  · obtain ⟨capacity, code, image, other⟩ := indexMarks_eq_error failed
    exact ⟨capacity, image, .inl ⟨code, other⟩⟩
  obtain ⟨-, -, -, rfl⟩ := indexMarks_eq_ok_iff.1 indexed
  rcases bind_eq_error.1 rejects with failed | ⟨_, m₂, reserved, rejects⟩
  · obtain ⟨capacity, code, image, other⟩ := reserveBlocks_eq_error failed
    exact ⟨capacity, image, .inl ⟨code, other⟩⟩
  obtain ⟨-, -, rfl⟩ := reserveBlocks_eq_ok_iff.1 reserved
  rcases bind_eq_error.1 rejects with failed | ⟨_, m₃, resolved, rejects⟩
  · obtain ⟨rfl, unknown⟩ := resolveCode_eq_error failed
    have laidOut : p.blocks.foldl extend { capacity := m.capacity, jumpLabels := addMarks .empty 0 p.code } =
        p.laidOut m.capacity := rfl
    simp only [laidOut, isSome_resolve_laidOut]
    refine ⟨capacity_foldl_extend _ _, image_foldl_extend _ _, .inr ⟨?_, unknown⟩⟩
    rw [show (p.laidOut m.capacity).code = #[] from code_foldl_extend _ _, Array.empty_append]
    rfl
  · cases rejects

/-! ## Runs without a word -/

/-- The instruction at the place prints or reads. -/
def converses (m : Machine) (place : Nat) : Bool :=
  m.code[place]?.any fun i => i.op.converses

/-- The machine comes to the end of its code and neither prints nor reads on the way; on top of the stack it
leaves zero or nothing. -/
def Quiet (m : Machine) : Prop :=
  ∃ places last, m.Path (m.start {}) places last ∧ m.code[last.pc]? = none ∧
    last.stack.top?.getD 0 = 0 ∧ ∀ place ∈ places, m.converses place = false

/-- Every print and every read shows. -/
theorem traffic_of_step {capacity : Nat} {i : LoadedInstruction} {s s' : State}
    (went : step capacity i s = .ok () s') :
    s'.console.traffic = s.console.traffic + if i.op.converses then 1 else 0 := by
  cases talks : i.op.converses with
  | false =>
    have same := console_of_silent talks capacity s
    rw [went] at same
    rw [show s'.console = s.console from same]
    simp
  | true =>
    obtain ⟨op, argument⟩ := i
    cases op
    case printInt =>
      obtain ⟨value, rest, -, rfl⟩ := exists_of_printInt went
      exact Console.traffic_printString _ _
    case printStr =>
      obtain ⟨address, rest, -, -, -, rfl⟩ := exists_of_printString went
      exact Console.traffic_printString _ _
    case inputInt =>
      obtain ⟨value, console, read, -, rfl⟩ := exists_of_inputInt went
      exact Console.traffic_of_readInt read
    all_goals cases talks

theorem traffic_of_path {m : Machine} {s s' : State} {places : List Nat} (path : m.Path s places s') :
    s'.console.traffic = s.console.traffic + places.countP m.converses := by
  induction path with
  | refl s => simp
  | @step s s' s'' i places found went _ ih =>
    rw [ih, traffic_of_step went, List.countP_cons]
    have here : m.converses s.pc = i.op.converses := by rw [converses, found, Option.any_some]
    rw [here]
    cases i.op.converses with
    | false => simp
    | true =>
      simp
      omega

/-- Where nothing is printed or read, the console does not matter. -/
theorem Path.mapConsole {m : Machine} {s s' : State} {places : List Nat} (path : m.Path s places s')
    (silent : ∀ place ∈ places, m.converses place = false) (change : Console → Console) :
    m.Path (s.mapConsole change) places (s'.mapConsole change) := by
  induction path with
  | refl s => exact .refl _
  | @step s s' s'' i places found went _ ih =>
    have here : m.converses s.pc = i.op.converses := by rw [converses, found, Option.any_some]
    have quiet : i.op.converses = false := here.symm.trans (silent s.pc (.head _))
    have went' := @commutes_of_silent change i quiet m.capacity { s with pc := s.pc + 1 }
    rw [went] at went'
    exact .step found went' (ih fun place mem => silent place (.tail _ mem))

/-- A path to the end of the code is a run. -/
theorem runFrom_of_path {m : Machine} {s last : State} {places : List Nat} (path : m.Path s places last)
    (past : m.code[last.pc]? = none) :
    runFrom m.capacity m.code (places.length + 1) s = some ⟨.ok (last.stack.top?.getD 0), last⟩ := by
  induction path with
  | refl s => simp only [runFrom, past]
  | step found went _ ih =>
    rw [List.length_cons, runFrom]
    simp only [found, went]
    exact ih past

/-- A machine gives zero and leaves every console alone exactly if it comes to the end of its code without a
print or a read, with zero or nothing on top of the stack. -/
theorem silent_iff_quiet (m : Machine) :
    (∀ console, ∃ fuel final, m.run fuel console = some ⟨.ok 0, final⟩ ∧ final.console = console) ↔
      m.Quiet := by
  constructor
  · intro silent
    obtain ⟨fuel, final, ran, same⟩ := silent {}
    obtain ⟨places, last, path, stops⟩ := exists_path_of_runFrom ran
    generalize outcome : (⟨.ok 0, final⟩ : Ended) = ended at stops
    cases stops with
    | fault _ _ => cases outcome
    | done past =>
      obtain ⟨top, rfl⟩ := Ended.mk.inj outcome
      refine ⟨places, final, path, past, (Except.ok.inj top).symm, fun place mem => ?_⟩
      -- Every print and every read on the way would show in the console.
      have traffic := traffic_of_path path
      rw [same] at traffic
      have none : places.countP m.converses = 0 := by
        simp only [start_eq] at traffic
        omega
      simpa using List.countP_eq_zero.1 none place mem
  · rintro ⟨places, last, path, past, top, silent⟩ console
    have path' := path.mapConsole silent fun _ => console
    have ran := runFrom_of_path path' past
    refine ⟨places.length + 1, last.mapConsole fun _ => console, ran.trans ?_, rfl⟩
    rw [show (last.mapConsole fun _ => console).stack = last.stack from rfl, top]

/-- A program that is refused for a mark or for data is not run. One that is refused for an unknown name is
run up to that name, on a machine without memory: the run gives zero and leaves every console alone exactly
if these instructions come to their end without a fault, a print or a read, with zero or nothing on top of
the stack. -/
theorem run_rejected_iff {p : Program} {m rejected : Machine} {fault : Fault}
    (rejects : load p m = .error fault rejected) :
    (∀ console, ∃ fuel final, rejected.run fuel console = some ⟨.ok 0, final⟩ ∧ final.console = console) ↔
      (∀ name, fault ≠ .unknownLabel name) ∨ (p.fragment m.capacity).Quiet := by
  obtain ⟨capacity, image, ⟨empty, other⟩ | ⟨code, name, unknown⟩⟩ := load_eq_error rejects
  · refine iff_of_true (fun console => ⟨1, rejected.start console, ?_, rfl⟩) (.inl other)
    simp only [run, runFrom, empty]
    rfl
  · have same : ∀ fuel console, rejected.run fuel console = (p.fragment m.capacity).run fuel console := by
      intro fuel console
      simp only [run, start_eq, capacity, image, code]
      rfl
    simp only [same, silent_iff_quiet]
    exact ⟨.inr, fun h => h.resolve_left fun other => other name unknown⟩

/-- What is left of this program takes its number off the stack again, and so nobody notices it. -/
theorem run_rejected_iff_popped :
    ∃ rejected, load { code := [.pushInt 3, ⟨.pop, .none⟩, .jump "NOWHERE"] } {} =
        .error (.unknownLabel "NOWHERE") rejected ∧ rejected.code.size = 2 ∧
      ∀ console, ∃ fuel final, rejected.run fuel console = some ⟨.ok 0, final⟩ ∧ final.console = console := by
  let p : Program := { code := [.pushInt 3, ⟨.pop, .none⟩, .jump "NOWHERE"] }
  obtain ⟨rejected, rejects⟩ : ∃ rejected, load p {} = .error (.unknownLabel "NOWHERE") rejected := ⟨_, rfl⟩
  have quiet : (p.fragment 1024).Quiet :=
    ⟨[0, 1], _, .step rfl rfl (.step rfl rfl (.refl _)), rfl, rfl, by decide⟩
  refine ⟨rejected, rejects, ?_, (run_rejected_iff rejects).2 (.inr quiet)⟩
  cases rejects
  rfl

/-- A program that jumps to an unknown name is refused, and then prints what it has before the jump. -/
theorem run_rejected_prints :
    ∃ rejected, load { code := [.pushInt 7, ⟨.printInt, .none⟩, .jump "NOWHERE"] } {} =
        .error (.unknownLabel "NOWHERE") rejected ∧
      (∃ final, rejected.run 3 {} = some ⟨.ok 0, final⟩ ∧ final.console.printed = #["7"]) ∧
      ¬∃ fuel final, rejected.run fuel {} = some ⟨.ok 0, final⟩ ∧ final.console = {} := by
  obtain ⟨rejected, rejects, final, ran, printed⟩ :
      ∃ rejected, load { code := [.pushInt 7, ⟨.printInt, .none⟩, .jump "NOWHERE"] } {} =
          .error (.unknownLabel "NOWHERE") rejected ∧
        ∃ final, rejected.run 3 {} = some ⟨.ok 0, final⟩ ∧ final.console.printed = #["7"] :=
    ⟨_, rfl, _, rfl, by decide +kernel⟩
  refine ⟨rejected, rejects, ⟨final, ran, printed⟩, ?_⟩
  rintro ⟨fuel, final', ran', same⟩
  cases runFrom_unique ran ran'
  rw [same] at printed
  cases printed

end Machine

end MiniC
