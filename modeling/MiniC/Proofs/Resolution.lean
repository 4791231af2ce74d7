import MiniC.Proofs.Instructions

/-!
# Names and what they stand for

Loading goes over a program three times: it takes down the marks, lays out the data, and looks every name in
the code up. `Machine.load_iff_labelled` says in one condition what the three passes accept, and what the
names have become after them: each mark its own place, and each jump the place of the mark that it names.

Names are trimmed where they are marked, and not where they are used. So a name with blanks around it can be
marked, but only a trimmed name can be jumped to.
-/

namespace MiniC

/-! ## Marks -/

theorem mem_marks_iff {code : List Instruction} {name : String} :
    name ∈ marks code ↔ ∃ i ∈ code, i.op = .label ∧ Machine.markName i = name := by
  simp [marks, and_assoc]

theorem markName_ne_empty_iff {i : Instruction} :
    Machine.markName i ≠ "" ↔ ∃ name, i.operand = .label name ∧ Text.trim name.toList ≠ [] := by
  obtain ⟨op, operand⟩ := i
  cases operand with
  | none => simp [Machine.markName, Instruction.labelName?]
  | immediate value => simp [Machine.markName, Instruction.labelName?]
  | label name =>
    have empty : String.ofList (Text.trim name.toList) = "" ↔ Text.trim name.toList = [] := by
      rw [← String.toList_inj, String.toList_ofList, String.toList_empty]
    simp [Machine.markName, Instruction.labelName?, empty]

/-- No mark has the empty name exactly if every mark has a name that is not blank. -/
theorem empty_notMem_marks_iff {code : List Instruction} :
    "" ∉ marks code ↔
      ∀ i ∈ code, i.op = .label → ∃ name, i.operand = .label name ∧ Text.trim name.toList ≠ [] := by
  simp only [mem_marks_iff, not_exists, not_and, ← ne_eq, markName_ne_empty_iff]

/-! ## Data -/

theorem Program.nodup_dataLabels_iff (p : Program) :
    p.dataLabels.Nodup ↔ ∀ label ∈ p.readOnly.keys, label ∉ p.static.keys := by
  rw [dataLabels_eq, List.nodup_append]
  constructor
  · intro ⟨_, _, apart⟩ label mem mem'
    exact apart label mem label mem' rfl
  · intro apart
    refine ⟨p.readOnly.nodup_keys, p.static.nodup_keys, ?_⟩
    rintro label mem _ mem' rfl
    exact apart label mem mem'

theorem Machine.isAlignment_iff {alignment : Nat} :
    Machine.isAlignment alignment ↔ alignment ∈ [1, 2, 4, 8] := by
  simp [Machine.isAlignment, or_assoc]

/-! ## Places -/

namespace Program.WellLabelled

variable {p : Program} {capacity : Nat}

/-- A name stands for a place exactly if the mark with this name is there. -/
theorem jumpTarget?_eq_some_iff (h : p.WellLabelled) {label : String} {index : Nat} :
    (p.machine capacity).jumpTarget? label = some index ↔
      ∃ i, p.code[index]? = some i ∧ i.op = .label ∧ Machine.markName i = label := by
  constructor
  · intro found
    have marked : label ∈ marks p.code :=
      (Machine.isSome_jumpTarget?_laidOut p capacity label).1 (Option.isSome_of_eq_some found)
    obtain ⟨i, mem, mark, rfl⟩ := mem_marks_iff.1 marked
    obtain ⟨before, after, split⟩ := List.append_of_mem mem
    cases found.symm.trans (h.jumpTarget?_machine split mark)
    exact ⟨i, by simp [split], mark, rfl⟩
  · rintro ⟨i, here, mark, rfl⟩
    obtain ⟨lt, rfl⟩ := List.getElem?_eq_some_iff.1 here
    have split : p.code = p.code.take index ++ p.code[index] :: p.code.drop (index + 1) := by simp
    rw [h.jumpTarget?_machine split mark, List.length_take_of_le (Nat.le_of_lt lt)]

end Program.WellLabelled

namespace Machine

/-- A program loads exactly if every mark has a name that is not blank, no two marks have the same name, no
block of data has the label of a mark or of a block of the other kind, every block is aligned to 1, 2, 4 or 8
bytes, and every name in the code is that of a mark or, in a `push`, of data. Names of marks are trimmed.
Each mark of a loaded program is found at its place, and each jump, branch or call by name has the place of
the mark for its argument. -/
theorem load_iff_labelled (p : Program) (m : Machine) :
    ((∃ m', load p m = .ok () m') ↔
      (∀ i ∈ p.code, i.op = .label → ∃ name, i.operand = .label name ∧ Text.trim name.toList ≠ []) ∧
      (marks p.code).Nodup ∧
      (∀ label ∈ p.readOnly.keys ++ p.static.keys, label ∉ marks p.code) ∧
      (∀ label ∈ p.readOnly.keys, label ∉ p.static.keys) ∧
      (∀ b ∈ p.blocks, b.alignment ∈ [1, 2, 4, 8]) ∧
      ∀ i ∈ p.code, i.op ≠ .label → ∀ name, i.operand = .label name →
        name ∈ marks p.code ∨ i.op = .push ∧ name ∈ p.readOnly.keys ++ p.static.keys) ∧
    ∀ m', load p m = .ok () m' →
      (∀ label index, m'.jumpTarget? label = some index ↔
        ∃ i, p.code[index]? = some i ∧ i.op = .label ∧ markName i = label) ∧
      (p.code.length ≤ 2147483647 → ∀ (index : Nat) (op : OpCode) (label : String),
        p.code[index]? = some ⟨op, .label label⟩ → op ∈ [.jump, .branchEqualZero, .branchNotZero, .call] →
          ∃ (place : Nat) (argument : Int32), m'.jumpTarget? label = some place ∧
            m'.code[index]? = some ⟨op, argument⟩ ∧ argument.toInt = place) := by
  constructor
  · simp only [load_eq_ok_iff, exists_and_left, exists_eq, and_true]
    rw [← empty_notMem_marks_iff, ← p.nodup_dataLabels_iff, ← p.dataLabels_eq]
    simp only [← isAlignment_iff]
    constructor
    · intro ⟨named, distinct, aligned, resolved⟩
      obtain ⟨nodup, nodup', apart⟩ := List.nodup_append.1 distinct
      exact ⟨named, nodup, fun label mem mem' => apart label mem' label mem rfl, nodup', aligned, resolved⟩
    · intro ⟨named, nodup, apart, nodup', aligned, resolved⟩
      refine ⟨named, List.nodup_append.2 ⟨nodup, nodup', ?_⟩, aligned, resolved⟩
      rintro label mem _ mem' rfl
      exact apart label mem' mem
  · intro m' loaded
    obtain ⟨labelled, rfl⟩ := load_eq_ok_iff.1 loaded
    refine ⟨fun label index => labelled.jumpTarget?_eq_some_iff, ?_⟩
    intro short index op label here jumps
    -- Only a `push` may name data, so the name of a jump is that of a mark.
    have other : op ≠ .label ∧ op ≠ .push := by
      constructor
      · rintro rfl
        simp at jumps
      · rintro rfl
        simp at jumps
    have marked : label ∈ marks p.code :=
      (labelled.resolved _ (List.mem_of_getElem? here) other.1 label rfl).resolve_right fun h => other.2 h.1
    obtain ⟨place, found⟩ : ∃ place, (p.machine m.capacity).jumpTarget? label = some place :=
      Option.isSome_iff_exists.1 ((isSome_jumpTarget?_laidOut p m.capacity label).2 marked)
    obtain ⟨_, there, -⟩ := labelled.jumpTarget?_eq_some_iff.1 found
    have lt := (List.getElem?_eq_some_iff.1 there).1
    refine ⟨place, Int32.ofNat place, found, ?_, Int32.toInt_ofNat_of_lt (by omega)⟩
    rw [p.getElem?_code_machine, here, Option.map_some, loadedInstruction_place other.1 other.2 found]

/-- A mark with blanks around its name is jumped to by the name without them, and by no other. -/
theorem load_iff_labelled_blanks :
    (∃ m', load { code := [.mark " top ", .jump "top"] } {} = .ok () m' ∧ m'.jumpTarget? "top" = some 0 ∧
      ∃ argument, m'.code[1]? = some ⟨.jump, argument⟩ ∧ argument.toInt = 0) ∧
    ¬∃ m', load { code := [.mark " top ", .jump " top "] } {} = .ok () m' := by
  constructor
  · obtain ⟨m', loaded⟩ : ∃ m', load { code := [.mark " top ", .jump "top"] } {} = .ok () m' := ⟨_, rfl⟩
    obtain ⟨marked, jumps⟩ := (load_iff_labelled { code := [.mark " top ", .jump "top"] } {}).2 m' loaded
    have top := (marked "top" 0).2 ⟨.mark " top ", rfl, rfl, by decide⟩
    obtain ⟨place, argument, found, here, exact⟩ := jumps (by decide) 1 .jump "top" rfl (by decide)
    cases top.symm.trans found
    exact ⟨m', loaded, top, argument, here, exact⟩
  · intro loads
    have resolved := ((load_iff_labelled { code := [.mark " top ", .jump " top "] } {}).1.1 loads).2.2.2.2.2
    have marked := resolved (.jump " top ") (by decide) (by decide) " top " rfl
    revert marked
    decide

end Machine

end MiniC
