import MiniC.Proofs.Loading
import MiniC.Proofs.Steps

/-!
# The capacity of the stack

Nothing but a push looks at the capacity of the stack, and all that a push does with it is to refuse a
value. So two machines of different capacities load a program alike, faults included
(`load_withCapacity`), and run it alike for as long as the smaller stack is not full
(`runFrom_eq_or_overflows`). `run_capacity_mono` puts the two together.
-/

namespace MiniC.Machine

/-! ## Loading -/

/-- The machine with a stack of another capacity. -/
def withCapacity (m : Machine) (capacity : Nat) : Machine :=
  { m with capacity }

/-- The end of a step of loading, with a stack of another capacity. -/
def resultWithCapacity {α : Type} (capacity : Nat) :
    EStateM.Result Fault Machine α → EStateM.Result Fault Machine α
  | .ok a m => .ok a (m.withCapacity capacity)
  | .error fault m => .error fault (m.withCapacity capacity)

/-- The step of loading does not depend on the capacity of the stack, and does not change it. -/
def IgnoresCapacity {α : Type} (x : Loading α) : Prop :=
  ∀ (m : Machine) (capacity : Nat), x (m.withCapacity capacity) = resultWithCapacity capacity (x m)

namespace IgnoresCapacity

variable {α β : Type} {x : Loading α}

theorem pure (a : α) : IgnoresCapacity (Pure.pure a : Loading α) :=
  fun _ _ => rfl

/-- Two steps that do not look at the capacity do not look at it one after the other. -/
theorem bind (h : IgnoresCapacity x) {f : α → Loading β} (h' : ∀ a, IgnoresCapacity (f a)) :
    IgnoresCapacity (x >>= f) := by
  intro m capacity
  have first := h m capacity
  cases went : x m with
  | ok a m' =>
    rw [went] at first
    rw [bind_of_ok first, bind_of_ok went]
    exact h' a m' capacity
  | error fault m' =>
    rw [went] at first
    rw [bind_of_error first, bind_of_error went]
    rfl

end IgnoresCapacity

/-- Places of marks are counted in the code. -/
theorem ignoresCapacity_indexMarks (index : Nat) (code : List Instruction) :
    IgnoresCapacity (indexMarks index code) := by
  induction code generalizing index with
  | nil => exact .pure ()
  | cons i rest ih =>
    intro m capacity
    by_cases mark : i.op = .label
    · rw [indexMarks_cons_mark mark, indexMarks_cons_mark mark]
      by_cases empty : markName i = ""
      · rw [if_pos empty, if_pos empty]
        rfl
      · rw [if_neg empty, if_neg empty]
        show (if (m.jumpLabels.find? (markName i)).isSome then _ else _) = _
        by_cases known : (m.jumpLabels.find? (markName i)).isSome
        · rw [if_pos known, if_pos known]
          rfl
        · rw [if_neg known, if_neg known]
          exact ih (index + 1) { m with jumpLabels := m.jumpLabels.insert (markName i) index } capacity
    · rw [indexMarks_cons_other mark, indexMarks_cons_other mark]
      exact ih (index + 1) m capacity

/-- Data lies in memory, which is not the stack. -/
theorem ignoresCapacity_reserveBlocks (blocks : List DataBlock) :
    IgnoresCapacity (reserveBlocks blocks) := by
  induction blocks with
  | nil => exact .pure ()
  | cons b rest ih =>
    refine .bind (fun m capacity => ?_) fun _ => ih
    cases placed : m.place b.label b.alignment m.memory.size with
    | error fault =>
      have placed' : (m.withCapacity capacity).place b.label b.alignment m.memory.size = .error fault := placed
      rw [reserveBlock_of_error placed, reserveBlock_of_error placed']
      rfl
    | ok start =>
      have placed' : (m.withCapacity capacity).place b.label b.alignment m.memory.size = .ok start := placed
      rw [reserveBlock_of_ok placed, reserveBlock_of_ok placed']
      rfl

/-- Names are resolved in the tables of labels. -/
theorem ignoresCapacity_resolveCode (code : List Instruction) : IgnoresCapacity (resolveCode code) := by
  induction code with
  | nil => exact .pure ()
  | cons i rest ih =>
    intro m capacity
    have same : (m.withCapacity capacity).resolve i = m.resolve i := resolve_congr rfl rfl i
    rw [resolveCode_cons, resolveCode_cons, same]
    cases m.resolve i with
    | error fault => rfl
    | ok argument => exact ih { m with code := m.code.push ⟨i.op, argument⟩ } capacity

/-- No stage of loading looks at the capacity, so their sequence does not. -/
theorem ignoresCapacity_loadStages (p : Program) : IgnoresCapacity (loadStages p) :=
  .bind (ignoresCapacity_indexMarks 0 p.code) fun _ =>
    .bind (ignoresCapacity_reserveBlocks p.blocks) fun _ =>
      .bind (ignoresCapacity_resolveCode p.code) fun _ _ _ => rfl

/-- Two machines load a program alike, whatever was loaded into them before. -/
theorem load_withCapacity (p : Program) (m m' : Machine) :
    load p m' = resultWithCapacity m'.capacity (load p m) := by
  rw [load_eq_loadStages, load_eq_loadStages]
  exact ignoresCapacity_loadStages p { capacity := m.capacity } m'.capacity

/-! ## Running -/

/-- Two machines run alike, unless the stack of the one with less room overflows. -/
theorem runFrom_eq_or_overflows {capacity capacity' : Nat} (le : capacity ≤ capacity')
    (code : Array LoadedInstruction) (fuel : Nat) (s : State) :
    runFrom capacity' code fuel s = runFrom capacity code fuel s ∨
      Overflows capacity (runFrom capacity code fuel s) := by
  induction fuel generalizing s with
  | zero => exact .inl rfl
  | succ fuel ih =>
    cases found : code[s.pc]? with
    | none => exact .inl (by simp only [runFrom, found])
    | some i =>
      rcases sameUnlessFull_step i (.inl le) with same | ⟨-, final, full⟩
      · cases went : step capacity i { s with pc := s.pc + 1 } with
        | ok u s' =>
          rw [went] at same
          simp only [runFrom, found, went, ← same]
          exact ih s'
        | error fault final =>
          rw [went] at same
          exact .inl (by simp only [runFrom, found, went, ← same])
      · exact .inr ⟨final, by simp only [runFrom, found, full]⟩

/-- The capacity of the stack is not seen, except where the stack overflows. Two machines come to the same
when they load a program, and then either the one with less room overflows its stack, or the two run alike
for any number of instructions: they end with the same result or fault in the same state, or none of them
ends. In particular, a run that succeeds also does so with more room. -/
theorem run_capacity_mono (p : Program) (console : Console) {m m' : Machine}
    (le : m.capacity ≤ m'.capacity) :
    ∃ loaded : Machine, loaded.capacity = m.capacity ∧
      (load p m = .ok () loaded ∧ load p m' = .ok () (loaded.withCapacity m'.capacity) ∨
        ∃ fault, load p m = .error fault loaded ∧
          load p m' = .error fault (loaded.withCapacity m'.capacity)) ∧
      ((∃ fuel, Overflows m.capacity (loaded.run fuel console)) ∨
        ∀ fuel, (loaded.withCapacity m'.capacity).run fuel console = loaded.run fuel console) ∧
      ∀ fuel result final, loaded.run fuel console = some ⟨.ok result, final⟩ →
        (loaded.withCapacity m'.capacity).run fuel console = some ⟨.ok result, final⟩ := by
  have alike : ∀ loaded : Machine, loaded.capacity = m.capacity → ∀ fuel,
      (loaded.withCapacity m'.capacity).run fuel console = loaded.run fuel console ∨
        Overflows m.capacity (loaded.run fuel console) := by
    intro loaded same fuel
    rw [run, run, same]
    exact runFrom_eq_or_overflows le loaded.code fuel (loaded.start console)
  -- Loading keeps the capacity: a machine of its own capacity loads the program like itself.
  have kept := load_withCapacity p m m
  have other := load_withCapacity p m m'
  suffices ∃ loaded : Machine, loaded.capacity = m.capacity ∧
      (load p m = .ok () loaded ∧ load p m' = .ok () (loaded.withCapacity m'.capacity) ∨
        ∃ fault, load p m = .error fault loaded ∧
          load p m' = .error fault (loaded.withCapacity m'.capacity)) by
    obtain ⟨loaded, same, loads⟩ := this
    refine ⟨loaded, same, loads, ?_, fun fuel result final ran => ?_⟩
    · by_cases overflows : ∃ fuel, Overflows m.capacity (loaded.run fuel console)
      · exact .inl overflows
      · exact .inr fun fuel => (alike loaded same fuel).resolve_right fun full => overflows ⟨fuel, full⟩
    · rcases alike loaded same fuel with equal | ⟨final', full⟩
      · rw [equal, ran]
      · cases ran.symm.trans full
  cases loading : load p m with
  | ok u loaded =>
    rw [loading] at kept other
    have same := congrArg Machine.capacity (EStateM.Result.ok.inj kept).2
    exact ⟨loaded, same, .inl ⟨rfl, other⟩⟩
  | error fault loaded =>
    rw [loading] at kept other
    have same := congrArg Machine.capacity (EStateM.Result.error.inj kept).2
    exact ⟨loaded, same, .inr ⟨fault, rfl, other⟩⟩

/-- The sum of two numbers is printed with room for two values, and so with room for three; with room for
one, the second number is too much. -/
theorem run_capacity_mono_sum :
    ∃ (p : Program) (loaded : Machine) (final : State),
      p.code = [.pushInt 1, .pushInt 2, ⟨.add, .none⟩, ⟨.printInt, .none⟩] ∧
      load p { capacity := 2 } = .ok () loaded ∧ load p { capacity := 3 } = .ok () (loaded.withCapacity 3) ∧
      loaded.run 5 {} = some ⟨.ok 0, final⟩ ∧ (loaded.withCapacity 3).run 5 {} = some ⟨.ok 0, final⟩ ∧
      final.console.printed = #["3"] ∧ Overflows 1 ((loaded.withCapacity 1).run 5 {}) := by
  let p : Program := { code := [.pushInt 1, .pushInt 2, ⟨.add, .none⟩, ⟨.printInt, .none⟩] }
  obtain ⟨loaded, -, loads, -, larger⟩ :=
    @run_capacity_mono p {} { capacity := 2 } { capacity := 3 } (by decide)
  rcases loads with ⟨here, there⟩ | ⟨fault, failed, -⟩
  · obtain rfl := (load_eq_ok_iff.1 here).2
    have ran : ∃ final, (p.machine 2).run 5 {} = some ⟨.ok 0, final⟩ ∧ final.console.printed = #["3"] :=
      ⟨_, rfl, by decide +kernel⟩
    obtain ⟨final, ran, printed⟩ := ran
    exact ⟨p, p.machine 2, final, rfl, here, there, ran, larger 5 0 final ran, printed, _, rfl⟩
  · cases failed

end MiniC.Machine
