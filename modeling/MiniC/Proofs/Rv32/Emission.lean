import MiniC.Proofs.Rv32.Assembled
import MiniC.Proofs.Spelling

/-!
# Assembly files of sources

Assembling the program of a source fails only for logic on truth values. All other instructions that
lowering makes have lines, and its data has alignments that can be written. The text of the file defines
every label once, and defines every label that it uses: the names in a program were apart before, and none
of them is a label of the texts that every file holds (`Source.assembly_eq_ok_iff`).
-/

namespace MiniC

namespace Rv32

/-! ## Labels in use -/

/-- The label that an instruction uses. -/
def Instr.label? : Instr → Option String
  | .la _ label | .j label | .beqz _ label | .bnez _ label => some label
  | .lw .. | .sw .. | .addi .. | .xori .. | .li .. | .binary .. | .unary .. | .ecall => none

/-- The labels that lines use. -/
def usedLabels (ls : List Line) : List String :=
  (instrs ls).filterMap Instr.label?

@[simp]
theorem usedLabels_append (ls ls' : List Line) : usedLabels (ls ++ ls') = usedLabels ls ++ usedLabels ls' := by
  simp [usedLabels]

theorem mem_usedLabels_flatMap {α : Type} {f : α → List Line} {xs : List α} {label : String} :
    label ∈ usedLabels (xs.flatMap f) ↔ ∃ x ∈ xs, label ∈ usedLabels (f x) := by
  induction xs with
  | nil => simp [usedLabels, instrs]
  | cons x xs ih => simp [ih]

/-- Comments use no labels. -/
theorem usedLabels_plain (ls : List Line) : usedLabels (ls.map Line.plain) = usedLabels ls := by
  rw [usedLabels, instrs_plain, usedLabels]

/-- Comments define none either. -/
theorem File.labels_plain (f : File) : f.plain.labels = f.labels := by
  rw [File.labels, File.plain, marked_plain, File.labels]

/-- The lines of an instruction use the name in its operand, and those that print end the line. -/
theorem Template.eq_of_mem_usedLabels {i : Instruction} {ls : List Line} (h : Template i ls)
    {label : String} (mem : label ∈ usedLabels ls) :
    label = newlineLabel ∨ i.op ≠ .label ∧ i.operand = .label label := by
  cases h with
  | binary | unary | pop | dup | load | store | mark | inputInt | pushInt => cases mem
  | @adjusted _ operation adjust adjusted =>
    have plain : adjust.label? = none := by
      generalize i.op = op at adjusted
      cases op <;> cases adjusted <;> rfl
    change label ∈ [adjust].filterMap Instr.label? at mem
    simp [plain] at mem
  | pushLabel name | jump name | branchIfZero name | branchIfNotZero name =>
    cases List.mem_singleton.1 mem
    exact .inr ⟨nofun, rfl⟩
  | printInt | printStr => exact .inl (List.mem_singleton.1 mem)

/-! ## What has lines -/

/-- Of the instructions that lowering makes, those for logic have no lines. -/
theorem exists_lines_iff {i : Instruction} (h : i.IsGenerated) :
    (∃ ls, lines i = .ok ls) ↔ i.op.isLogic = false := by
  cases h with
  | operator op => cases op <;> simp [lines, Lowering.binaryOpCode, OpCode.isLogic, binary?, unary?]
  | @sign op code made =>
    cases op <;> cases made <;> simp [lines, OpCode.isLogic, binary?, unary?]
  | service op =>
    simp only [List.mem_cons, List.not_mem_nil, or_false] at op
    rcases op with rfl | rfl | rfl | rfl | rfl
    all_goals simp [lines, OpCode.isLogic]
  | pushInt | pushLabel | mark | jump | branchIfZero | branchIfNotZero =>
    exact ⟨fun _ => rfl, fun _ => ⟨_, rfl⟩⟩

/-- Code becomes lines exactly if every instruction does. -/
theorem exists_linesOf_iff {code : List Instruction} :
    (∃ ls, linesOf code = .ok ls) ↔ ∀ i ∈ code, ∃ ls, lines i = .ok ls := by
  induction code with
  | nil => exact ⟨fun _ => by simp, fun _ => ⟨[], rfl⟩⟩
  | cons i rest ih =>
    rw [List.forall_mem_cons, ← ih]
    constructor
    · rintro ⟨ls, h⟩
      obtain ⟨first, lined, h⟩ := except_bind_eq_ok.1 h
      obtain ⟨others, rested, -⟩ := except_bind_eq_ok.1 h
      exact ⟨⟨first, lined⟩, others, rested⟩
    · rintro ⟨⟨first, lined⟩, others, rested⟩
      exact ⟨first ++ others, except_bind_eq_ok.2 ⟨first, lined, except_bind_eq_ok.2 ⟨others, rested, rfl⟩⟩⟩

/-- Literals are aligned to bytes, which the assembler can write. -/
theorem exists_readOnlyData {entries : List (String × ReadOnlyBlock)}
    (aligned : ∀ entry ∈ entries, entry.2.alignment = 1) : ∃ ds, readOnlyData entries = .ok ds := by
  induction entries with
  | nil => exact ⟨[], rfl⟩
  | cons entry rest ih =>
    obtain ⟨first, others⟩ := List.forall_mem_cons.1 aligned
    obtain ⟨ds, rested⟩ := ih others
    have exponent : alignmentExponent entry.2.alignment = .ok 0 := by rw [first]; rfl
    exact ⟨_, except_bind_eq_ok.2 ⟨0, exponent, except_bind_eq_ok.2 ⟨ds, rested, rfl⟩⟩⟩

/-- Variables are aligned to words, which the assembler can write. -/
theorem exists_staticData {entries : List (String × StaticBlock)}
    (aligned : ∀ entry ∈ entries, entry.2.alignment = Ty.wordSize) : ∃ ds, staticData entries = .ok ds := by
  induction entries with
  | nil => exact ⟨[], rfl⟩
  | cons entry rest ih =>
    obtain ⟨first, others⟩ := List.forall_mem_cons.1 aligned
    obtain ⟨ds, rested⟩ := ih others
    have exponent : alignmentExponent entry.2.alignment = .ok 2 := by rw [first]; rfl
    exact ⟨_, except_bind_eq_ok.2 ⟨2, exponent, except_bind_eq_ok.2 ⟨ds, rested, rfl⟩⟩⟩

end Rv32

namespace CheckedSource.Lowers

variable {checked : CheckedSource} (h : checked.Lowers)

include h

/-- The program of a checked source can be assembled exactly if there is no logic in its tree. -/
theorem exists_assemble_iff : (∃ file, checked.program.assemble = .ok file) ↔ ¬ checked.tree.HasLogic := by
  have literals : ∀ entry ∈ checked.program.readOnly.entries, entry.2.alignment = 1 := by
    intro entry mem
    obtain ⟨value, block⟩ := exists_literal_of_readOnly mem
    rw [block]
    rfl
  have storage : ∀ entry ∈ checked.program.static.entries, entry.2.alignment = Ty.wordSize := by
    intro entry mem
    obtain ⟨s, -, block, alignment⟩ := h.storable_of_static mem
    rw [block, alignment]
  -- The data can always be written, so the code decides.
  obtain ⟨ds, hds⟩ := Rv32.exists_readOnlyData literals
  obtain ⟨ds', hds'⟩ := Rv32.exists_staticData storage
  have code : (∃ file, checked.program.assemble = .ok file) ↔
      ∃ ls, Rv32.linesOf checked.program.code = .ok ls := by
    constructor
    · rintro ⟨file, made⟩
      obtain ⟨_, _, made⟩ := except_bind_eq_ok.1 made
      obtain ⟨_, _, made⟩ := except_bind_eq_ok.1 made
      obtain ⟨ls, lined, _⟩ := except_bind_eq_ok.1 made
      exact ⟨ls, lined⟩
    · rintro ⟨ls, lined⟩
      exact ⟨_, except_bind_eq_ok.2 ⟨ds, hds, except_bind_eq_ok.2 ⟨ds', hds',
        except_bind_eq_ok.2 ⟨ls, lined, rfl⟩⟩⟩⟩
  rw [code, Rv32.exists_linesOf_iff, ← h.generated.logic_iff]
  constructor
  · rintro each ⟨i, mem, logic⟩
    have other := (Rv32.exists_lines_iff (h.generated.each i mem)).1 (each i mem)
    rw [logic] at other
    cases other
  · intro none i mem
    refine (Rv32.exists_lines_iff (h.generated.each i mem)).2 (Bool.eq_false_iff.2 fun logic => ?_)
    exact none ⟨i, mem, logic⟩

end CheckedSource.Lowers

namespace Rv32.Assembled

variable {p : Program} {file : File}

/-- A file defines its own labels, those of the program's data, and its marks. -/
theorem labels_eq (h : Assembled p file) (named : Named p) :
    file.labels = sharedLabels ++ p.dataLabels ++ marks p.code := by
  rw [File.labels, h.labels, h.marked_code named]

/-- Every label that a file uses is defined in it. -/
theorem mem_labels_of_used (h : Assembled p file) (named : Named p) (labelled : p.WellLabelled)
    {label : String} (used : label ∈ usedLabels file.code) : label ∈ file.labels := by
  rw [h.code, usedLabels_append, List.mem_append] at used
  rw [h.labels_eq named, List.append_assoc, List.mem_append, List.mem_append]
  rcases used with used | used
  · obtain ⟨i, held, used⟩ := mem_usedLabels_flatMap.1 used
    rcases (h.each i held).eq_of_mem_usedLabels used with rfl | ⟨other, operand⟩
    · exact .inl (by decide)
    · rcases labelled.resolved i held other label operand with marked | ⟨-, data⟩
      · exact .inr (.inr marked)
      · exact .inr (.inl data)
  · cases used

end Rv32.Assembled

open Rv32 in
/-- The program of a source has an assembly file exactly if no operator on truth values is in the checked
tree. The text of the file then reads as a file that defines the labels of the texts that every file holds,
those of the program's data and those that mark places in its code, each once, and that uses no other label. -/
theorem Source.assembly_eq_ok_iff {source : String} {options : Options} {p : Program}
    (h : Source.lower source options = .ok p) :
    ∃ checked, Source.check source options = .ok checked ∧
      ((∃ text, p.assembly = .ok text) ↔ ¬ checked.tree.HasLogic) ∧
      ∀ text, p.assembly = .ok text →
        ∃ file, File.read text = some file ∧
          file.labels = sharedLabels ++ p.dataLabels ++ marks p.code ∧ file.labels.Nodup ∧
          ∀ label ∈ usedLabels file.code, label ∈ file.labels := by
  have named := Source.lower_named h
  obtain ⟨checked, table, hcheck, -, lowers, rfl, -⟩ := Source.lower_eq_ok h
  refine ⟨checked, hcheck, ?_, ?_⟩
  · rw [← lowers.exists_assemble_iff]
    constructor
    · rintro ⟨text, written⟩
      obtain ⟨file, made, -⟩ := except_bind_eq_ok.1 written
      exact ⟨file, made⟩
    · rintro ⟨file, made⟩
      exact ⟨file.text, except_bind_eq_ok.2 ⟨file, made, rfl⟩⟩
  · intro text written
    obtain ⟨file, made, last⟩ := except_bind_eq_ok.1 written
    cases last
    have whole := assembled_of_ok made
    refine ⟨file.plain, whole.read_text named lowers.wellLabelled, ?_⟩
    rw [File.labels_plain]
    refine ⟨whole.labels_eq named, whole.nodup_labels named lowers.wellLabelled, fun label used => ?_⟩
    rw [File.plain, usedLabels_plain] at used
    exact whole.mem_labels_of_used named lowers.wellLabelled used

set_option maxRecDepth 100000 in
open Rv32 in
/-- A variable has the name of a label that every file defines, and a string looks like a line that defines it
again; a source with logic has no file. -/
theorem Source.assembly_eq_ok_iff_shared :
    (∃ (source : String) (p : Program) (checked : CheckedSource) (text : String) (file : File),
      source = "\x7b int __TRUE; while (__TRUE < 3) \x7b print \"__TRUE:\"; \x7d \x7d" ∧
      Source.lower source = .ok p ∧ Source.check source = .ok checked ∧ ¬ checked.tree.HasLogic ∧
      p.assembly = .ok text ∧ File.read text = some file ∧
      "__TRUE" ∈ file.labels ∧ "v___TRUE_0" ∈ file.labels ∧ file.labels.Nodup ∧
      ∀ label ∈ usedLabels file.code, label ∈ file.labels) ∧
    ∃ (source : String) (p : Program) (checked : CheckedSource), source = "\x7b bool b = !true; \x7d" ∧
      Source.lower source = .ok p ∧ Source.check source = .ok checked ∧ checked.tree.HasLogic ∧
      ¬ ∃ text, p.assembly = .ok text := by
  constructor
  · generalize hsource : "\x7b int __TRUE; while (__TRUE < 3) \x7b print \"__TRUE:\"; \x7d \x7d" = source
    have assembles : (Source.lower source).toOption.any (fun p =>
        p.assembly.toOption.isSome ∧ "v___TRUE_0" ∈ p.dataLabels) := by
      subst hsource
      decide +kernel
    cases lowered : Source.lower source with
    | error e => simp [lowered, Except.toOption] at assembles
    | ok p =>
      rw [lowered] at assembles
      obtain ⟨assembled, stored⟩ := of_decide_eq_true assembles
      obtain ⟨checked, hcheck, exists_iff, reads⟩ := Source.assembly_eq_ok_iff lowered
      cases written : p.assembly with
      | error e => simp [written, Except.toOption] at assembled
      | ok text =>
        obtain ⟨file, read, labels, nodup, defined⟩ := reads text written
        have shared : "__TRUE" ∈ sharedLabels := by decide
        refine ⟨source, p, checked, text, file, rfl, lowered, hcheck, exists_iff.1 ⟨text, written⟩, written,
          read, ?_, ?_, nodup, defined⟩
        · simp [labels, shared]
        · simp [labels, stored]
  · generalize hsource : "\x7b bool b = !true; \x7d" = source
    have refuses : (Source.lower source).toOption.any fun p => p.assembly.toOption.isNone := by
      subst hsource
      decide +kernel
    cases lowered : Source.lower source with
    | error e => simp [lowered, Except.toOption] at refuses
    | ok p =>
      obtain ⟨checked, hcheck, exists_iff, -⟩ := Source.assembly_eq_ok_iff lowered
      have refused : ¬ ∃ text, p.assembly = .ok text := by
        rintro ⟨text, written⟩
        simp [lowered, written, Except.toOption] at refuses
      exact ⟨source, p, checked, rfl, lowered, hcheck,
        Classical.not_not.1 fun none => refused (exists_iff.2 none), refused⟩

end MiniC
