import MiniC.Proofs.Loading
import MiniC.Proofs.Names
import MiniC.Proofs.Rv32.Opcodes
import MiniC.Proofs.Rv32.Written

/-!
# Assembled programs

The file that a program becomes holds the lines of its instructions one after another, and a sequence that
exits. `textPlace` is where the lines of an instruction start. If the program is well labelled and its
labels are identifiers, the file can be read from its text (`read_assembly`), the lines of every
instruction stand at its place (`Assembled.at_template`), and a label marks the place of the instruction
after it (`Assembled.target?_mark`).
-/

namespace MiniC

/-- All names in a program: those of data, and those in the operands of instructions. -/
def Program.labelNames (p : Program) : List String :=
  p.code.filterMap Instruction.labelName? ++ p.dataLabels

namespace Rv32

/-! ## Lines of instructions -/

/-- The lines of an instruction that has lines. -/
def template (i : Instruction) : List Line :=
  (lines i).toOption.getD []

theorem template_of_ok {i : Instruction} {ls : List Line} (h : lines i = .ok ls) : template i = ls := by
  rw [template, h]
  rfl

/-- Code that becomes lines does so instruction by instruction, and each instruction becomes one of the known forms.
-/
theorem linesOf_eq_ok {code : List Instruction} {ls : List Line} (h : linesOf code = .ok ls) :
    ls = code.flatMap template ∧ ∀ i ∈ code, Template i (template i) := by
  induction code generalizing ls with
  | nil =>
    cases h
    exact ⟨rfl, by simp⟩
  | cons i rest ih =>
    obtain ⟨first, lined, h⟩ := except_bind_eq_ok.1 h
    obtain ⟨others, rested, h⟩ := except_bind_eq_ok.1 h
    cases h
    obtain ⟨rfl, each⟩ := ih rested
    have same := template_of_ok lined
    refine ⟨by rw [List.flatMap_cons, same], ?_⟩
    intro j mem
    rcases List.mem_cons.1 mem with rfl | mem
    · rw [same]
      exact template_of_lines lined
    · exact each j mem

/-- The lines that exit. -/
def exitLines : List Line :=
  [Service.exit.select (some "exit"), .instr .ecall]

/-- The number of instructions before the lines of an instruction. -/
def textPlace (code : List Instruction) (pc : Nat) : Nat :=
  (instrs ((code.take pc).flatMap template)).length

/-- Where the lines of what comes next start depends only on what comes before. -/
theorem textPlace_length {before after : List Instruction} :
    textPlace (before ++ after) before.length = (instrs (before.flatMap template)).length := by
  rw [textPlace, List.take_left]

/-- The lines of the next instruction come right after. -/
theorem textPlace_succ {code : List Instruction} {pc : Nat} {i : Instruction} (h : code[pc]? = some i) :
    textPlace code (pc + 1) = textPlace code pc + (instrs (template i)).length := by
  rw [textPlace, textPlace, List.take_add_one, h]
  simp

/-! ## Data -/

/-- Every literal becomes data under its own label. -/
theorem readOnlyData_eq_ok {entries : List (String × ReadOnlyBlock)} {ds : List Datum}
    (h : readOnlyData entries = .ok ds) : ds.filterMap Datum.label? = entries.map (·.1) := by
  induction entries generalizing ds with
  | nil =>
    cases h
    rfl
  | cons entry rest ih =>
    obtain ⟨exponent, -, h⟩ := except_bind_eq_ok.1 h
    obtain ⟨others, rested, h⟩ := except_bind_eq_ok.1 h
    cases h
    exact congrArg (entry.1 :: ·) (ih rested)

/-- Every variable becomes data under its own label. -/
theorem staticData_eq_ok {entries : List (String × StaticBlock)} {ds : List Datum}
    (h : staticData entries = .ok ds) : ds.filterMap Datum.label? = entries.map (·.1) := by
  induction entries generalizing ds with
  | nil =>
    cases h
    rfl
  | cons entry rest ih =>
    obtain ⟨exponent, -, h⟩ := except_bind_eq_ok.1 h
    obtain ⟨others, rested, h⟩ := except_bind_eq_ok.1 h
    cases h
    exact congrArg (entry.1 :: ·) (ih rested)

/-- The labels that every file defines. -/
def sharedLabels : List String :=
  sharedTexts.filterMap Datum.label?

/-- The names in a program are identifiers, and none of those that every file defines. -/
def Named (p : Program) : Prop :=
  ∀ name ∈ p.labelNames, isIdentifier name.toList ∧ name ∉ sharedLabels

/-- What assembling a program makes. -/
structure Assembled (p : Program) (file : File) : Prop where
  labels : file.data.filterMap Datum.label? = sharedLabels ++ p.dataLabels
  code : file.code = p.code.flatMap template ++ exitLines
  each : ∀ i ∈ p.code, Template i (template i)

/-- What assembling makes, part by part. -/
theorem assembled_of_ok {p : Program} {file : File} (h : p.assemble = .ok file) :
    Assembled p file := by
  obtain ⟨literals, hliterals, h⟩ := except_bind_eq_ok.1 h
  obtain ⟨storage, hstorage, h⟩ := except_bind_eq_ok.1 h
  obtain ⟨code, hcode, h⟩ := except_bind_eq_ok.1 h
  cases h
  obtain ⟨rfl, each⟩ := linesOf_eq_ok hcode
  refine ⟨?_, rfl, each⟩
  rw [List.filterMap_append, List.filterMap_append, readOnlyData_eq_ok hliterals,
    staticData_eq_ok hstorage, Program.dataLabels, Program.blocks, List.map_append, List.map_map,
    List.map_map, List.append_assoc]
  rfl

/-! ## Names -/

/-- No character of an identifier is a blank. -/
theorem not_isBlank_of_isAlphanum {c : Char} (h : c.isAlphanum ∨ c = '_') : Text.isBlank c = false := by
  have range : (65 ≤ c.toNat ∧ c.toNat ≤ 90 ∨ 97 ≤ c.toNat ∧ c.toNat ≤ 122) ∨
      48 ≤ c.toNat ∧ c.toNat ≤ 57 ∨ c.toNat = 95 := by
    rcases h with alphanum | rfl
    · unfold Char.isAlphanum Char.isAlpha Char.isUpper Char.isLower Char.isDigit at alphanum
      simp only [Bool.or_eq_true, Bool.and_eq_true, decide_eq_true_eq] at alphanum
      exact alphanum.imp_right .inl
    · decide
  simp only [Text.isBlank, Bool.or_eq_false_iff, Bool.and_eq_false_iff, decide_eq_false_iff_not,
    beq_eq_false_iff_ne]
  omega

/-- An identifier has no blanks around it. -/
theorem markName_mark {name : String} (h : isIdentifier name.toList) :
    Machine.markName (.mark name) = name := by
  obtain ⟨nonempty, chars⟩ := isIdentifier_chars h
  have solid := fun c mem => not_isBlank_of_isAlphanum (chars c mem)
  have kept := trimEnd_append_of_not_blank [] nonempty solid
  show String.ofList (Text.trim name.toList) = name
  rw [Text.trim]
  cases list : name.toList with
  | nil => exact absurd list nonempty
  | cons c cs =>
    rw [list] at kept solid
    rw [List.dropWhile_cons_of_neg (by simp [solid c List.mem_cons_self])]
    rw [List.nil_append] at kept
    rw [kept, ← list, String.ofList_toList]

/-! ## Lines that can be read -/

/-- A comment with the word of an opcode stays on its line. -/
theorem oneLine_mnemonic (op : OpCode) : OneLine op.mnemonic.toList := by
  cases op <;> exact ⟨by decide, by decide⟩

/-- The instruction that adjusts a comparison can be read. -/
theorem writable_of_adjusted? {op : OpCode} {operation : BinaryOp} {i : Instr}
    (h : adjusted? op = some (operation, i)) : i.Writable := by
  cases op <;> cases h <;> simp [Instr.Writable, isShort]

/-- The lines of an instruction can be read if the name in it is an identifier. -/
theorem Template.writable {i : Instruction} {ls : List Line} (h : Template i ls)
    (named : ∀ name ∈ i.labelName?, isIdentifier name.toList) : ∀ l ∈ ls, l.Writable := by
  cases h with
  | binary =>
    simp [binaryLines, loadOperands, replaceTwo, Line.Writable, Instr.Writable, isShort, oneLine_mnemonic]
  | adjusted adjusted =>
    simpa [binaryLines, loadOperands, replaceTwo, Line.Writable, Instr.Writable, isShort, oneLine_mnemonic]
      using writable_of_adjusted? adjusted
  | unary => simp [unaryLines, Line.Writable, Instr.Writable, isShort, oneLine_mnemonic]
  | pushLabel name =>
    have identifier := named name rfl
    simp [pushT0, Line.Writable, Instr.Writable, isShort, identifier, toString_string,
      (isWord_identifier identifier).oneLine]
  | pushInt value =>
    have number := (isWord_toString value.toInt).oneLine
    rw [Int.toString_eq_repr] at number
    simp [pushT0, Line.Writable, Instr.Writable, isShort, toString_string, Number.writeInt32, number]
  | pop => simp [Line.Writable, Instr.Writable, isShort]
  | dup => simp [pushT0, Line.Writable, Instr.Writable, isShort]
  | load => simp [Line.Writable, Instr.Writable, isShort]
  | store => simp [Line.Writable, Instr.Writable, isShort]
  | mark name => simpa [Line.Writable] using named name rfl
  | jump name => simpa [Line.Writable, Instr.Writable] using named name rfl
  | branchIfZero name =>
    have identifier := named name rfl
    simp [branchLines, Line.Writable, Instr.Writable, isShort, oneLine_mnemonic, identifier]
  | branchIfNotZero name =>
    have identifier := named name rfl
    simp [branchLines, Line.Writable, Instr.Writable, isShort, oneLine_mnemonic, identifier]
  | printInt => simp [endLine, Service.select, Line.Writable, Instr.Writable, isShort, newlineLabel, isIdentifier]
  | printStr => simp [endLine, Service.select, Line.Writable, Instr.Writable, isShort, newlineLabel, isIdentifier]
  | inputInt => simp [Service.select, Line.Writable, Instr.Writable, isShort]

/-- Only a mark has a label among its lines. -/
theorem Template.marked_eq {i : Instruction} {ls : List Line} (h : Template i ls)
    (named : ∀ name ∈ i.labelName?, isIdentifier name.toList) : marked ls = marks [i] := by
  cases h with
  | mark name =>
    rw [marks_cons_mark rfl, markName_mark (named name rfl)]
    rfl
  | binary operation =>
    rw [marks_cons_other fun same => by rw [same] at operation; cases operation]
    rfl
  | adjusted operation =>
    rw [marks_cons_other fun same => by rw [same] at operation; cases operation]
    rfl
  | unary operation =>
    rw [marks_cons_other fun same => by rw [same] at operation; cases operation]
    rfl
  | _ => rfl

/-- The labels among the lines are the marks of the code, in order. -/
theorem marked_flatMap {code : List Instruction} (each : ∀ i ∈ code, Template i (template i))
    (named : ∀ i ∈ code, ∀ name ∈ i.labelName?, isIdentifier name.toList) :
    marked (code.flatMap template) = marks code := by
  induction code with
  | nil => rfl
  | cons i rest ih =>
    have first := (each i List.mem_cons_self).marked_eq (named i List.mem_cons_self)
    have others := ih (fun j mem => each j (List.mem_cons_of_mem i mem))
      fun j mem => named j (List.mem_cons_of_mem i mem)
    rw [List.flatMap_cons, marked_append, first, others, ← marks_append]
    rfl

theorem writable_exitLines : ∀ l ∈ exitLines, l.Writable := by
  simp [exitLines, Service.select, Line.Writable, Instr.Writable]

theorem isIdentifier_shared : ∀ label ∈ sharedLabels, isIdentifier label.toList := by
  decide

/-! ## Reading the file -/

variable {p : Program} {file : File}

/-- The name in an instruction of such a program is an identifier. -/
theorem Named.instruction (h : Named p) {i : Instruction} (mem : i ∈ p.code) :
    ∀ name ∈ i.labelName?, isIdentifier name.toList := by
  intro name found
  exact (h name (List.mem_append_left _ (List.mem_filterMap.2 ⟨i, mem, found⟩))).1

/-- Every label of the data of such a program is an identifier, and no file defines it for itself. -/
theorem Named.data (h : Named p) {name : String} (mem : name ∈ p.dataLabels) :
    isIdentifier name.toList ∧ name ∉ sharedLabels :=
  h name (List.mem_append_right _ mem)

namespace Assembled

/-- The lines that exit have no labels. -/
theorem marked_code (h : Assembled p file) (named : Named p) : marked file.code = marks p.code := by
  rw [h.code, marked_append, marked_flatMap h.each fun i mem => named.instruction mem]
  exact List.append_nil _

/-- A name that marks a place does so in an instruction. -/
theorem mark_mem (h : Assembled p file) (named : Named p) {name : String} (mem : name ∈ marks p.code) :
    .mark name ∈ p.code := by
  obtain ⟨i, found, rfl⟩ := List.mem_map.1 mem
  obtain ⟨found, label⟩ := List.mem_filter.1 found
  have label := of_decide_eq_true label
  have shape := h.each i found
  have identifier := named.instruction found
  generalize template i = ls at shape
  cases shape with
  | mark name =>
    rw [markName_mark (identifier name rfl)]
    exact found
  | binary operation | adjusted operation | unary operation =>
    rw [label] at operation
    cases operation
  | _ => cases label

/-- No label is defined twice. -/
theorem nodup_labels (h : Assembled p file) (named : Named p) (labelled : p.WellLabelled) :
    file.labels.Nodup := by
  obtain ⟨marks, data, apart⟩ := List.nodup_append.1 labelled.distinct
  rw [File.labels, h.labels, h.marked_code named, List.append_assoc]
  refine List.nodup_append.2 ⟨by decide, List.nodup_append.2 ⟨data, marks, ?_⟩, ?_⟩
  · intro a ha b hb same
    exact apart b hb a ha same.symm
  · intro a shared b mem same
    subst same
    rcases List.mem_append.1 mem with data | mark
    · exact (named.data data).2 shared
    · have found := h.mark_mem named mark
      have mem := List.mem_filterMap.2 ⟨_, found, show Instruction.labelName? (.mark a) = some a from rfl⟩
      exact (named a (List.mem_append_left _ mem)).2 shared

/-- The file is read from its text. -/
theorem read_text (h : Assembled p file) (named : Named p) (labelled : p.WellLabelled) :
    File.read file.text = some file.plain := by
  apply File.read_text _ _ (h.nodup_labels named labelled)
  · intro d mem label found
    have mem : label ∈ sharedLabels ++ p.dataLabels := by
      rw [← h.labels]
      exact List.mem_filterMap.2 ⟨d, mem, found⟩
    rcases List.mem_append.1 mem with shared | data
    · exact isIdentifier_shared label shared
    · exact (named.data data).1
  · intro l mem
    rw [h.code] at mem
    rcases List.mem_append.1 mem with mem | mem
    · obtain ⟨i, hi, mem⟩ := List.mem_flatMap.1 mem
      exact (h.each i hi).writable (named.instruction hi) l mem
    · exact writable_exitLines l mem

/-! ## Places -/

/-- The lines before an instruction, its own lines and those after it. -/
theorem code_split (h : Assembled p file) {before after : List Instruction} {i : Instruction}
    (split : p.code = before ++ i :: after) : file.code =
      before.flatMap template ++ (template i ++ (after.flatMap template ++ exitLines)) := by
  rw [h.code, split, List.flatMap_append, List.flatMap_cons]
  simp

/-- The lines of an instruction stand at its place. -/
theorem at_template (h : Assembled p file) {before after : List Instruction} {i : Instruction}
    (split : p.code = before ++ i :: after) (address : String → Nat) :
    (file.image address).At (textPlace p.code before.length) (instrs (template i)) := by
  refine ⟨instrs (after.flatMap template ++ exitLines), ?_⟩
  show _ = (instrs file.code).drop _
  rw [h.code_split split, split, textPlace_length, instrs_append (before.flatMap template), List.drop_left,
    instrs_append (template i)]

/-- After the last instruction the program exits. -/
theorem at_exit (h : Assembled p file) (address : String → Nat) :
    (file.image address).At (textPlace p.code p.code.length) (instrs exitLines) := by
  refine ⟨[], ?_⟩
  show _ = (instrs file.code).drop _
  rw [h.code, instrs_append, textPlace, List.take_length, List.drop_left, List.append_nil]

/-- A label marks the place of the instruction that it is. -/
theorem target?_mark (h : Assembled p file) (named : Named p) (labelled : p.WellLabelled) {name : String}
    {before after : List Instruction} (split : p.code = before ++ .mark name :: after)
    (address : String → Nat) :
    (file.image address).target? name = some (textPlace p.code before.length) := by
  have mem : ∀ i ∈ before, i ∈ p.code := fun i mem => by simp [split, mem]
  have self : .mark name ∈ p.code := by simp [split]
  have distinct := (List.nodup_append.1 labelled.distinct).1
  rw [split, marks_append, marks_cons_mark rfl, markName_mark (named.instruction self name rfl)] at distinct
  have new : name ∉ marked (before.flatMap template) := by
    rw [marked_flatMap (fun i hi => h.each i (mem i hi)) fun i hi => named.instruction (mem i hi)]
    intro earlier
    exact (List.nodup_append.1 distinct).2.2 name earlier name List.mem_cons_self rfl
  show place? name file.code = _
  rw [h.code_split split, split, textPlace_length]
  exact place?_append new _

end Assembled

end Rv32

end MiniC
