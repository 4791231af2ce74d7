import MiniC.Proofs.Consoles
import MiniC.Proofs.Loading

/-!
# Runs and what came before them

A run starts from what loading made, whatever became of the machine since. Loading keeps nothing but the
capacity of the stack (`load_eq_ok_iff`). A run leaves a place, a stack and a memory behind, also if it ends with
a fault; the next run takes them back before it starts (`rewind_afterRun`). The console is the only thing that
goes from run to run; of it a run sees the lines that wait. `run_forgets_history` puts these together.
-/

namespace MiniC

/-- Consoles with the same lines to read are one console with different items in front. -/
theorem Console.exists_withPrior {c c' : Console} (pending : c.pending = c'.pending)
    (inputEnd : c.inputEnd = c'.inputEnd) :
    ∃ blank : Console, blank.printed = #[] ∧ c = blank.withPrior c.printed ∧
      c' = blank.withPrior c'.printed := by
  refine ⟨{ c with printed := #[] }, rfl, ?_, ?_⟩
  · simp [withPrior]
  · obtain ⟨pending', printed', inputEnd'⟩ := c'
    cases pending
    cases inputEnd
    simp [withPrior]

/-- What is in front of a console stays there. -/
theorem Console.Passed.withPrior {c c' : Console} {read : List String} {printed : Array String}
    (h : c.Passed read printed c') (prior : Array String) :
    (c.withPrior prior).Passed read printed (c'.withPrior prior) where
  pending := h.pending
  printed := by simp [Console.withPrior, h.printed]
  inputEnd := h.inputEnd

namespace Machine

/-- The first machine becomes the second by runs, each of which came to its end or to a fault. -/
inductive Rerun (m : Machine) : Machine → Prop
  | refl : m.Rerun m
  | again {m' : Machine} {fuel : Nat} {console : Console} {ended : Ended} :
    m.Rerun m' → m'.run fuel console = some ended → m.Rerun (m'.afterRun ended)

/-- A machine that is made ready for a run is what it was before the last one: the place, the stack and the memory
that the run left are all replaced. -/
theorem rewind_afterRun (m : Machine) (ended : Ended) : (m.afterRun ended).rewind = m.rewind := rfl

/-- Earlier runs make no difference to a run. -/
theorem Rerun.run_eq {m m' : Machine} (h : m.Rerun m') (fuel : Nat) (console : Console) :
    m'.run fuel console = m.run fuel console := by
  induction h with
  | refl => rfl
  | again _ _ ih =>
    rw [run, start, rewind_afterRun]
    exact ih

/-- What was printed before makes no difference to a run, and stays in front of what it prints. -/
theorem run_withPrior (m : Machine) (prior : Array String) (fuel : Nat) (console : Console) :
    m.run fuel (console.withPrior prior) =
      (m.run fuel console).map (Ended.mapConsole (Console.withPrior prior)) :=
  runFrom_mapConsole (Console.unseen_withPrior prior) m.capacity m.code fuel (m.start console)

/-- A run does not depend on what came before it. Let a program be loaded into a machine in any state, and
let the machine then have made any number of runs of it, whether they came to an end or to a fault. For any
number of instructions, the next run does what the first run of a new machine with the same capacity does on
any console with the same lines to read: both go on, or both end with the same result or fault, the same
memory, the same lines read and the same items printed. -/
theorem run_forgets_history {p : Program} {m loaded later : Machine} {console console' : Console}
    (loads : load p m = .ok () loaded) (reruns : loaded.Rerun later)
    (pending : console.pending = console'.pending) (inputEnd : console.inputEnd = console'.inputEnd) :
    ∃ fresh, load p { capacity := m.capacity } = .ok () fresh ∧
      ∀ fuel, (later.run fuel console = none ∧ fresh.run fuel console' = none) ∨
        ∃ ended ended' read printed,
          later.run fuel console = some ended ∧ fresh.run fuel console' = some ended' ∧
          ended.outcome = ended'.outcome ∧ ended.final.memory = ended'.final.memory ∧
          console.Passed read printed ended.final.console ∧
          console'.Passed read printed ended'.final.console := by
  obtain ⟨labelled, rfl⟩ := load_eq_ok_iff.1 loads
  refine ⟨p.machine m.capacity, load_eq_ok_iff.2 ⟨labelled, rfl⟩, fun fuel => ?_⟩
  -- Both runs are the run on a console on which nothing was printed, with different items in front.
  obtain ⟨blank, -, here, there⟩ := Console.exists_withPrior pending inputEnd
  have first := run_withPrior (p.machine m.capacity) console.printed fuel blank
  have second := run_withPrior (p.machine m.capacity) console'.printed fuel blank
  rw [← here] at first
  rw [← there] at second
  rw [reruns.run_eq, first, second]
  cases ran : (p.machine m.capacity).run fuel blank with
  | none => exact .inl ⟨rfl, rfl⟩
  | some ended =>
    obtain ⟨read, printed, passed⟩ : blank.Leads ended.final.console := leads_of_runFrom ran
    refine .inr ⟨_, _, read, printed, rfl, rfl, rfl, rfl, ?_, ?_⟩
    · have passed' := passed.withPrior console.printed
      rw [← here] at passed'
      exact passed'
    · have passed' := passed.withPrior console'.printed
      rw [← there] at passed'
      exact passed'

/-- A counter that is raised and printed before a number is read, on a machine that had another program and a value
on its stack. The first run finds no number, when the counter is at one, and stands behind its last instruction; the
second starts again from zero. -/
theorem run_forgets_history_counter :
    ∃ (p : Program) (loaded : Machine) (ended : Ended),
      p.code = [.pushLabel "x", .pushLabel "x", ⟨.load, .none⟩, .pushInt 1, ⟨.add, .none⟩, ⟨.store, .none⟩,
        .pushLabel "x", ⟨.load, .none⟩, ⟨.printInt, .none⟩, ⟨.inputInt, .none⟩] ∧
      load p { capacity := 8, pc := 1, stack := Stack.empty.push 9, memory := #[3], code := #[⟨.printInt, 0⟩] } =
        .ok () loaded ∧
      loaded.run 11 {} = some ended ∧ ended.outcome.toOption = none ∧
      (loaded.afterRun ended).memory[0]? = some 1 ∧ (loaded.afterRun ended).pc = 10 ∧
      ∃ fresh again first, load p { capacity := 8 } = .ok () fresh ∧
        (loaded.afterRun ended).run 11 { pending := ["5"], printed := #["1"] } = some again ∧
        fresh.run 11 { pending := ["5"] } = some first ∧
        again.outcome = first.outcome ∧ first.outcome.toOption = some 5 ∧
        again.final.memory = first.final.memory ∧ first.final.memory[0]? = some 1 ∧
        again.final.console.printed = #["1", "1"] ∧ first.final.console.printed = #["1"] := by
  let p : Program :=
    { code := [.pushLabel "x", .pushLabel "x", ⟨.load, .none⟩, .pushInt 1, ⟨.add, .none⟩, ⟨.store, .none⟩,
        .pushLabel "x", ⟨.load, .none⟩, ⟨.printInt, .none⟩, ⟨.inputInt, .none⟩]
      static := .ofList [("x", ⟨4, 4⟩)] }
  obtain ⟨loaded, loads⟩ : ∃ loaded,
      load p { capacity := 8, pc := 1, stack := Stack.empty.push 9, memory := #[3], code := #[⟨.printInt, 0⟩] } =
        .ok () loaded := ⟨_, rfl⟩
  have made := (load_eq_ok_iff.1 loads).2
  subst made
  have once : ((p.machine 8).run 11 {}).any fun ended =>
      ended.outcome.toOption = none ∧ ended.final.memory[0]? = some 1 ∧ ended.final.pc = 10 := by
    decide +kernel
  obtain ⟨ended, ran, facts⟩ := (Option.any_eq_true _ _).1 once
  obtain ⟨failed, raised, behind⟩ := of_decide_eq_true facts
  obtain ⟨fresh, loads', alike⟩ :=
    @run_forgets_history p _ _ _ { pending := ["5"], printed := #["1"] } { pending := ["5"] } loads
      (.again .refl ran) rfl rfl
  have made := (load_eq_ok_iff.1 loads').2
  subst made
  have twice : ((p.machine 8).run 11 { pending := ["5"] }).any fun first =>
      first.outcome.toOption = some 5 ∧ first.final.memory[0]? = some 1 ∧
        first.final.console.printed = #["1"] := by
    decide +kernel
  obtain ⟨first, ran', facts⟩ := (Option.any_eq_true _ _).1 twice
  obtain ⟨result, memory, printed⟩ := of_decide_eq_true facts
  rcases alike 11 with ⟨-, none⟩ | ⟨again, first', read, items, here, there, outcome, same, passed, passed'⟩
  · cases none.symm.trans ran'
  · cases there.symm.trans ran'
    have item : #["1"] = #[] ++ items := printed.symm.trans passed'.printed
    rw [Array.empty_append] at item
    refine ⟨p, _, ended, rfl, loads, ran, failed, raised, behind, _, again, first, loads', here, ran', outcome,
      result, same, memory, ?_, printed⟩
    rw [passed.printed, ← item]
    rfl

end Machine

end MiniC
