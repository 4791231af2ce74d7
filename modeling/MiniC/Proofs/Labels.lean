import MiniC.Proofs.Loading
import MiniC.Proofs.Lowered
import MiniC.Proofs.Sizes

/-!
# The labels of lowered programs

All names that lowering makes carry a number from one counter, which only goes up. So no two variables of
a tree share a number, and no two marks a name; and names of different kinds differ in their first letter.
`CheckedSource.Lowers.wellLabelled` puts this together: every program that lowering makes is well labelled,
and therefore loads.
-/

namespace MiniC

/-! ## Numbers -/

/-- Numbers that were drawn between two counts, each once. -/
structure Drawn (low high : Nat) (numbers : List Nat) : Prop where
  bounds : ∀ k ∈ numbers, low ≤ k ∧ k < high
  nodup : numbers.Nodup

namespace Drawn

variable {low middle high : Nat} {numbers numbers' : List Nat}

theorem nil (low high : Nat) : Drawn low high [] :=
  ⟨by simp, .nil⟩

/-- The number that is drawn next. -/
theorem single (number : Nat) : Drawn number (number + 1) [number] :=
  ⟨by simp, by simp⟩

/-- Numbers drawn one part after the other: the second part starts where the first one ended, so no number comes
twice. -/
theorem append (h : Drawn low middle numbers) (h' : Drawn middle high numbers') (le : low ≤ middle)
    (le' : middle ≤ high) : Drawn low high (numbers ++ numbers') where
  bounds k mem := by
    rcases List.mem_append.1 mem with mem | mem
    · have := h.bounds k mem
      omega
    · have := h'.bounds k mem
      omega
  nodup := by
    refine List.nodup_append.2 ⟨h.nodup, h'.nodup, ?_⟩
    rintro k mem _ mem' rfl
    have below := h.bounds k mem
    have above := h'.bounds k mem'
    omega

/-- Wider bounds do no harm. -/
theorem widen (h : Drawn low high numbers) {low' high' : Nat} (le : low' ≤ low) (le' : high ≤ high') :
    Drawn low' high' numbers :=
  ⟨fun k mem => by have := h.bounds k mem; omega, h.nodup⟩

end Drawn

/-- Each declared name draws a number before those of its initial value. -/
theorem Declarator.drawn_allStorage (ds : List Declarator) (number : Nat) :
    Drawn number (number + Declarator.allNumbers ds)
      ((Declarator.allStorage number ds).map Prod.snd) := by
  induction ds generalizing number with
  | nil => exact .nil _ _
  | cons d ds ih =>
    rw [allStorage, allNumbers, List.map_append]
    have rest := ih (number + 1 + (d.init.map Expr.numbers).getD 0)
    have first : Drawn number (number + 1) ((d.symbol.toList.map (·, number)).map Prod.snd) := by
      cases d.symbol with
      | none => exact .nil _ _
      | some id => exact .single number
    exact first.append (rest.widen (by omega) (by omega)) (by omega) (by omega)

mutual

/-- No two of the symbols that a statement gives storage to share a number. -/
theorem Stmt.drawn_storage (number : Nat) :
    (s : Stmt) → Drawn number (number + s.numbers) ((s.storage number).map Prod.snd)
  | .block body => Block.drawn_storage number body
  | .ifThen condition body | .whileLoop condition body =>
    (Block.drawn_storage _ body).widen (by omega) (by simp only [Stmt.numbers]; omega)
  | .doWhile body condition =>
    (Block.drawn_storage _ body).widen (by omega) (by simp only [Stmt.numbers]; omega)
  | .ifElse condition body otherwise => by
    have first := Block.drawn_storage (number + 1 + condition.numbers) body
    have second := Stmt.drawn_storage (number + 1 + condition.numbers + body.numbers) otherwise
    rw [Stmt.storage, Stmt.numbers, List.map_append]
    exact (first.append second (by omega) (by omega)).widen (by omega) (by omega)
  | .forLoop init condition step body => by
    have first := Stmt.drawn_storage (number + 1) init
    have second :=
      Block.drawn_storage (number + 1 + init.numbers + condition.numbers + condition.numbers) body
    have third := Stmt.drawn_storage
      (number + 1 + init.numbers + condition.numbers + condition.numbers + body.numbers) step
    simp only [Stmt.storage, Stmt.numbers, List.map_append]
    exact ((first.widen (Nat.le_refl _) (by omega)).append
      (second.append third (by omega) (by omega)) (by omega) (by omega)).widen (by omega) (by omega)
  | .declare _ ds => Declarator.drawn_allStorage ds number
  | .assign .. | .eval _ | .print _ | .input _ | .function .. | .breakLoop | .continueLoop
  | .returnValue _ => .nil _ _

/-- A block gives storage to what its statements do. -/
theorem Block.drawn_storage (number : Nat) :
    (b : Block) → Drawn number (number + b.numbers) ((b.storage number).map Prod.snd)
  | ⟨statements, _⟩ => Stmt.drawn_allStorage number statements

theorem Stmt.drawn_allStorage (number : Nat) :
    (statements : List Stmt) →
      Drawn number (number + Stmt.allNumbers statements)
        ((Stmt.allStorage number statements).map Prod.snd)
  | [] => .nil _ _
  | statement :: rest => by
    have first := Stmt.drawn_storage number statement
    have second := Stmt.drawn_allStorage (number + statement.numbers) rest
    rw [Stmt.allStorage, Stmt.allNumbers, List.map_append]
    exact first.append (second.widen (Nat.le_refl _) (by omega)) (by omega) (by omega)

end

/-! ## Marks -/

/-- The stems of the names that lowering marks places with. -/
abbrev controlStems : List String :=
  ["IF", "ELSE", "ENDIF", "WHILE", "ENDWHILE", "FOR", "CHECKFOR", "BODYFOR", "ENDFOR"]

/-- A name that lowering marks places with has no blanks around it. -/
theorem markName_mark {stem : String} (h : stem ∈ controlStems) (number : Nat) :
    Machine.markName (.mark (numbered stem number)) = numbered stem number := by
  have start : ∃ c cs, stem.toList = c :: cs ∧ Text.isBlank c = false := by
    simp only [controlStems, List.mem_cons, List.not_mem_nil, or_false] at h
    rcases h with rfl | rfl | rfl | rfl | rfl | rfl | rfl | rfl | rfl
    all_goals exact ⟨_, _, rfl, by decide⟩
  obtain ⟨c, cs, start, solid⟩ := start
  exact trim_numbered start solid number

/-- Names of marks with numbers that were drawn between two counts, each used once. -/
structure Marked (low high : Nat) (names : List String) : Prop where
  form : ∀ name ∈ names, ∃ stem ∈ controlStems, ∃ k, low ≤ k ∧ k < high ∧ name = numbered stem k
  nodup : names.Nodup

namespace Marked

variable {low middle high : Nat} {names names' : List String}

theorem nil (low high : Nat) : Marked low high [] :=
  ⟨by simp, .nil⟩

/-- Marks of one part after those of another have other numbers, and so other names. -/
theorem append (h : Marked low middle names) (h' : Marked middle high names') (le : low ≤ middle)
    (le' : middle ≤ high) : Marked low high (names ++ names') where
  form name mem := by
    rcases List.mem_append.1 mem with mem | mem
    · obtain ⟨stem, control, k, _, _, rfl⟩ := h.form name mem
      exact ⟨stem, control, k, by omega, by omega, rfl⟩
    · obtain ⟨stem, control, k, _, _, rfl⟩ := h'.form name mem
      exact ⟨stem, control, k, by omega, by omega, rfl⟩
  nodup := by
    refine List.nodup_append.2 ⟨h.nodup, h'.nodup, ?_⟩
    rintro name mem _ mem' rfl
    obtain ⟨stem, -, k, _, below, rfl⟩ := h.form name mem
    obtain ⟨stem', -, k', above, _, same⟩ := h'.form _ mem'
    obtain ⟨-, rfl⟩ := numbered_inj.1 same
    omega

/-- Wider bounds do no harm to marks either. -/
theorem widen (h : Marked low high names) {low' high' : Nat} (le : low' ≤ low) (le' : high ≤ high') :
    Marked low' high' names := by
  refine ⟨fun name mem => ?_, h.nodup⟩
  obtain ⟨stem, control, k, _, _, rfl⟩ := h.form name mem
  exact ⟨stem, control, k, by omega, by omega, rfl⟩

/-- The marks of a control statement: its own, which share a number, and those inside it, whose numbers
were drawn later. -/
theorem enclose {number : Nat} (inner : Marked (number + 1) high names) (lt : number < high)
    (stems : List String) (control : ∀ stem ∈ stems, stem ∈ controlStems) (distinct : stems.Nodup)
    (perm : names'.Perm (stems.map (numbered · number) ++ names)) : Marked number high names' where
  form name mem := by
    rcases List.mem_append.1 (perm.mem_iff.1 mem) with mem | mem
    · obtain ⟨stem, own, rfl⟩ := List.mem_map.1 mem
      exact ⟨stem, control stem own, number, Nat.le_refl _, lt, rfl⟩
    · obtain ⟨stem, control, k, _, _, rfl⟩ := inner.form name mem
      exact ⟨stem, control, k, by omega, by omega, rfl⟩
  nodup := by
    refine perm.nodup_iff.2 (List.nodup_append.2 ⟨?_, inner.nodup, ?_⟩)
    · exact List.Pairwise.map _ (fun _ _ different same => different (numbered_inj.1 same).1) distinct
    · rintro name mem _ mem' rfl
      obtain ⟨stem, -, rfl⟩ := List.mem_map.1 mem
      obtain ⟨stem', -, k, above, _, same⟩ := inner.form _ mem'
      obtain ⟨-, rfl⟩ := numbered_inj.1 same
      omega

end Marked

@[simp]
theorem marks_mark (name : String) (rest : List Instruction) :
    marks (.mark name :: rest) = Machine.markName (.mark name) :: marks rest := rfl

@[simp]
theorem marks_pushLabel (name : String) (rest : List Instruction) :
    marks (.pushLabel name :: rest) = marks rest := rfl

@[simp]
theorem marks_jump (name : String) (rest : List Instruction) :
    marks (.jump name :: rest) = marks rest := rfl

@[simp]
theorem marks_branchIfZero (name : String) (rest : List Instruction) :
    marks (.branchIfZero name :: rest) = marks rest := rfl

@[simp]
theorem marks_branchIfNotZero (name : String) (rest : List Instruction) :
    marks (.branchIfNotZero name :: rest) = marks rest := rfl

/-- Expressions mark no places. -/
theorem Expr.marks_eq_nil (labels : SymbolId → Option String) (x : Expr) (number : Nat) :
    marks (x.code labels number) = [] ∧ marks (x.addressCode labels number) = [] := by
  induction x using Expr.shallowInduction generalizing number with
  | literal value ty => cases value <;> exact ⟨rfl, rfl⟩
  | name => exact ⟨rfl, rfl⟩
  | unary op operand ty ih =>
    rw [code, addressCode, marks_append, (ih number).1]
    cases op <;> exact ⟨rfl, rfl⟩
  | binary op left right ty ihl ihr =>
    rw [code, addressCode, marks_append, marks_append, (ihl _).1, (ihr _).1]
    cases op <;> exact ⟨rfl, rfl⟩
  | index base position ty ihb ihp =>
    have address : marks ((Expr.index base position ty).addressCode labels number) = [] := by
      rw [addressCode, marks_append, marks_append, (ihb _).2, (ihp _).1]
      rfl
    refine ⟨?_, address⟩
    rw [code_index, marks_append, address]
    split <;> rfl
  | call => exact ⟨rfl, rfl⟩

/-- The code of an expression runs straight through. -/
@[simp]
theorem Expr.marks_code (labels : SymbolId → Option String) (x : Expr) (number : Nat) :
    marks (x.code labels number) = [] :=
  (x.marks_eq_nil labels number).1

/-- So does the code of an address. -/
@[simp]
theorem Expr.marks_addressCode (labels : SymbolId → Option String) (x : Expr) (number : Nat) :
    marks (x.addressCode labels number) = [] :=
  (x.marks_eq_nil labels number).2

/-- Initial values are expressions, so declarations mark no places. -/
theorem Declarator.marks_allCode (labels : SymbolId → Option String) (ds : List Declarator)
    (number : Nat) : marks (Declarator.allCode labels number ds) = [] := by
  induction ds generalizing number with
  | nil => rfl
  | cons d ds ih =>
    have first : marks (d.code labels number) = [] := by
      unfold Declarator.code
      cases d.init with
      | none => rfl
      | some init =>
        rw [marks_pushLabel, marks_append, init.marks_code]
        rfl
    rw [allCode, marks_append, first, ih]
    rfl

/-- Whatever the type is, what prints is no mark. -/
theorem printOp_ne_label (ty : Option Ty) : printOp ty ≠ .label := by
  unfold printOp
  split <;> decide

/-- Whatever the type is, what reads is no mark. -/
theorem inputOp_ne_label (ty : Option Ty) : inputOp ty ≠ .label := by
  unfold inputOp
  split <;> decide

mutual

/-- The marks of a statement have numbers that were drawn for it, and different names. -/
theorem Stmt.marked_code (labels : SymbolId → Option String) (number : Nat) :
    (s : Stmt) → Marked number (number + s.numbers) (marks (s.code labels number))
  | .block body => Block.marked_code labels number body
  | .ifThen condition body => by
    have inner := Block.marked_code labels (number + 1 + condition.numbers) body
    refine ((inner.widen (by omega) (Nat.le_refl _)).enclose (by omega) ["IF", "ENDIF"] (by decide)
      (by decide) (List.perm_iff_count.2 fun name => ?_)).widen (Nat.le_refl _) ?_
    · simp [Stmt.code, markName_mark, controlStems, List.count_cons]
    · simp only [Stmt.numbers]
      omega
  | .ifElse condition body otherwise => by
    have first := Block.marked_code labels (number + 1 + condition.numbers) body
    have second := Stmt.marked_code labels (number + 1 + condition.numbers + body.numbers) otherwise
    have inner := first.append second (by omega) (by omega)
    refine ((inner.widen (by omega) (Nat.le_refl _)).enclose (by omega) ["IF", "ELSE", "ENDIF"]
      (by decide) (by decide) (List.perm_iff_count.2 fun name => ?_)).widen (Nat.le_refl _) ?_
    · simp [Stmt.code, markName_mark, controlStems, List.count_cons]
      omega
    · simp only [Stmt.numbers]
      omega
  | .whileLoop condition body => by
    have inner := Block.marked_code labels (number + 1 + condition.numbers) body
    refine ((inner.widen (by omega) (Nat.le_refl _)).enclose (by omega) ["WHILE", "ENDWHILE"]
      (by decide) (by decide) (List.perm_iff_count.2 fun name => ?_)).widen (Nat.le_refl _) ?_
    · simp [Stmt.code, markName_mark, controlStems, List.count_cons]
    · simp only [Stmt.numbers]
      omega
  | .doWhile body condition => by
    have inner := Block.marked_code labels (number + 1) body
    refine (inner.enclose (by omega) ["WHILE", "ENDWHILE"] (by decide) (by decide)
      (List.perm_iff_count.2 fun name => ?_)).widen (Nat.le_refl _) ?_
    · simp [Stmt.code, markName_mark, controlStems, List.count_cons]
    · simp only [Stmt.numbers]
      omega
  | .forLoop init condition step body => by
    have first := Stmt.marked_code labels (number + 1) init
    -- The condition has its code twice and marks nothing, but draws its numbers twice.
    have second :=
      Block.marked_code labels (number + 1 + init.numbers + condition.numbers + condition.numbers) body
    have third := Stmt.marked_code labels
      (number + 1 + init.numbers + condition.numbers + condition.numbers + body.numbers) step
    have inner := (first.widen (Nat.le_refl _) (by omega)).append
      (second.append third (by omega) (by omega)) (by omega) (by omega)
    refine (inner.enclose (by omega) ["FOR", "CHECKFOR", "BODYFOR", "ENDFOR"] (by decide) (by decide)
      (List.perm_iff_count.2 fun name => ?_)).widen (Nat.le_refl _) ?_
    · simp [Stmt.code, markName_mark, controlStems, List.count_cons]
      omega
    · simp only [Stmt.numbers]
      omega
  | .declare _ ds => by
    rw [Stmt.code, Declarator.marks_allCode]
    exact .nil _ _
  | .assign target value => by
    rw [Stmt.code, marks_append, marks_append, target.marks_addressCode, value.marks_code]
    exact .nil _ _
  | .eval value => by
    rw [Stmt.code, value.marks_code]
    exact .nil _ _
  | .print value => by
    rw [Stmt.code, marks_append, value.marks_code, marks_cons_other (printOp_ne_label _)]
    exact .nil _ _
  | .input target => by
    rw [Stmt.code, marks_append, target.marks_addressCode, marks_cons_other (inputOp_ne_label _)]
    exact .nil _ _
  | .function .. | .breakLoop | .continueLoop | .returnValue _ => .nil _ _

/-- The marks of a block are those of its statements. -/
theorem Block.marked_code (labels : SymbolId → Option String) (number : Nat) :
    (b : Block) → Marked number (number + b.numbers) (marks (b.code labels number))
  | ⟨statements, _⟩ => Stmt.marked_allCode labels number statements

theorem Stmt.marked_allCode (labels : SymbolId → Option String) (number : Nat) :
    (statements : List Stmt) →
      Marked number (number + Stmt.allNumbers statements) (marks (Stmt.allCode labels number statements))
  | [] => .nil _ _
  | statement :: rest => by
    have first := Stmt.marked_code labels number statement
    have second := Stmt.marked_allCode labels (number + statement.numbers) rest
    rw [Stmt.allCode, Stmt.allNumbers, marks_append]
    exact first.append (second.widen (Nat.le_refl _) (by omega)) (by omega) (by omega)

end

/-! ## Names in the code -/

/-- The operand of an instruction goes with its opcode: a mark has its name without blanks, a jump or a
branch has one of the given marks, a `push` of a name one of the given labels of data, and no other
instruction has a name. -/
def Instruction.Resolved (names data : List String) (i : Instruction) : Prop :=
  match i.op with
  | .label => i.operand = .label (Machine.markName i)
  | .jump | .branchEqualZero | .branchNotZero => ∃ name ∈ names, i.operand = .label name
  | .push => ∀ name, i.operand = .label name → name ∈ data
  | _ => ∀ name, i.operand ≠ .label name

/-- Whether an instruction neither is a mark nor goes to one, and has no name. -/
def Instruction.isNameless (i : Instruction) : Bool :=
  i.op ∉ [.label, .jump, .branchEqualZero, .branchNotZero] ∧ i.labelName? = none

/-- Every name in a list of instructions is among the given ones. -/
def AllResolved (names data : List String) (code : List Instruction) : Prop :=
  ∀ i ∈ code, i.Resolved names data

section Resolved

variable {names names' data : List String} {code code' : List Instruction} {i : Instruction}

/-- Code is put together from parts with the same names. -/
theorem allResolved_append :
    AllResolved names data (code ++ code') ↔ AllResolved names data code ∧ AllResolved names data code' :=
  List.forall_mem_append

theorem allResolved_cons :
    AllResolved names data (i :: code) ↔ i.Resolved names data ∧ AllResolved names data code :=
  List.forall_mem_cons

theorem allResolved_nil : AllResolved names data [] :=
  fun _ mem => nomatch mem

/-- Instructions without names have none to resolve. -/
theorem allResolved_of_nameless (h : code.all Instruction.isNameless) : AllResolved names data code := by
  intro i mem
  have nameless := List.all_eq_true.1 h i mem
  simp only [Instruction.isNameless, decide_eq_true_eq] at nameless
  have unnamed : ∀ name, i.operand ≠ .label name := by
    intro name operand
    simp [Instruction.labelName?, operand] at nameless
  obtain ⟨op, operand⟩ := i
  cases op <;> first
    | exact unnamed
    | exact fun name same => absurd same (unnamed name)
    | simp at nameless

@[simp]
theorem Instruction.resolved_mark {name : String} :
    (Instruction.mark name).Resolved names data ↔ Machine.markName (.mark name) = name := by
  simp [Resolved, mark, eq_comm]

@[simp]
theorem Instruction.resolved_jump {name : String} :
    (Instruction.jump name).Resolved names data ↔ name ∈ names := by
  simp [Resolved, jump]

@[simp]
theorem Instruction.resolved_branchIfZero {name : String} :
    (Instruction.branchIfZero name).Resolved names data ↔ name ∈ names := by
  simp [Resolved, branchIfZero]

@[simp]
theorem Instruction.resolved_branchIfNotZero {name : String} :
    (Instruction.branchIfNotZero name).Resolved names data ↔ name ∈ names := by
  simp [Resolved, branchIfNotZero]

@[simp]
theorem Instruction.resolved_pushLabel {name : String} :
    (Instruction.pushLabel name).Resolved names data ↔ name ∈ data := by
  simp [Resolved, pushLabel]

/-- In code whose operands go with its opcodes, the name in anything but a mark is that of a mark or, in a
`push`, of data. -/
theorem Instruction.Resolved.mem (h : i.Resolved names data) (other : i.op ≠ .label) {name : String}
    (named : i.operand = .label name) : name ∈ names ∨ i.op = .push ∧ name ∈ data := by
  obtain ⟨op, operand⟩ := i
  cases op
  case label => exact absurd rfl other
  case push => exact .inr ⟨rfl, h name named⟩
  case jump | branchEqualZero | branchNotZero =>
    obtain ⟨target, mem, same⟩ := h
    cases named.symm.trans same
    exact .inl mem
  all_goals exact absurd named (h name)

end Resolved

/-- The labels of the storage of symbols, and those of the given literals, are labels of data. -/
structure Supplied (labels : SymbolId → Option String) (literals : List (Nat × String))
    (data : List String) : Prop where
  storage : ∀ id label, labels id = some label → label ∈ data
  literal : ∀ entry ∈ literals, literalLabel entry.1 ∈ data

/-- Data that is there for two parts is there for the first. -/
theorem Supplied.left {labels : SymbolId → Option String} {literals literals' : List (Nat × String)}
    {data : List String} (h : Supplied labels (literals ++ literals') data) :
    Supplied labels literals data :=
  ⟨h.storage, fun entry mem => h.literal entry (List.mem_append_left _ mem)⟩

/-- Data that is there for two parts is there for the second. -/
theorem Supplied.right {labels : SymbolId → Option String} {literals literals' : List (Nat × String)}
    {data : List String} (h : Supplied labels (literals ++ literals') data) :
    Supplied labels literals' data :=
  ⟨h.storage, fun entry mem => h.literal entry (List.mem_append_right _ mem)⟩

section Supplied

variable {labels : SymbolId → Option String} {names data : List String}

/-- A symbol with storage pushes a label of data. -/
theorem labelOf_mem {symbol : Option SymbolId} {literals : List (Nat × String)}
    (has : ∃ id label, symbol = some id ∧ labels id = some label)
    (supplied : Supplied labels literals data) : labelOf labels symbol ∈ data := by
  obtain ⟨id, label, rfl, found⟩ := has
  rw [show labelOf labels (some id) = label by simp [labelOf, found]]
  exact supplied.storage id label found

/-- The names in the code of an expression are labels of data. -/
theorem Expr.allResolved {x : Expr} (has : x.HasCode labels) {number : Nat}
    (supplied : Supplied labels (x.literals number) data) :
    AllResolved names data (x.code labels number) ∧
      AllResolved names data (x.addressCode labels number) := by
  induction x using Expr.shallowInduction generalizing number with
  | literal value ty =>
    refine ⟨?_, allResolved_nil⟩
    cases value with
    | string value =>
      exact allResolved_cons.2
        ⟨Instruction.resolved_pushLabel.2 (supplied.literal (number, value) (.head _)), allResolved_nil⟩
    | int | float | char | bool =>
      exact allResolved_of_nameless rfl
  | name spelling symbol ty =>
    have push : AllResolved names data [.pushLabel (labelOf labels symbol)] :=
      allResolved_cons.2 ⟨Instruction.resolved_pushLabel.2 (labelOf_mem has supplied), allResolved_nil⟩
    exact ⟨allResolved_append.2 ⟨push, allResolved_of_nameless rfl⟩, push⟩
  | unary op operand ty ih =>
    exact ⟨allResolved_append.2 ⟨(ih has supplied).1, allResolved_of_nameless (by cases op <;> rfl)⟩,
      allResolved_nil⟩
  | binary op left right ty ihl ihr =>
    exact ⟨allResolved_append.2 ⟨(ihl has.1 supplied.left).1, allResolved_append.2
      ⟨(ihr has.2 supplied.right).1, allResolved_of_nameless (by cases op <;> rfl)⟩⟩, allResolved_nil⟩
  | index base position ty ihb ihp =>
    have address : AllResolved names data ((Expr.index base position ty).addressCode labels number) :=
      allResolved_append.2 ⟨(ihb has.2.1 supplied.left).2, allResolved_append.2
        ⟨(ihp has.2.2 supplied.right).1, allResolved_of_nameless rfl⟩⟩
    refine ⟨?_, address⟩
    rw [code_index]
    refine allResolved_append.2 ⟨address, allResolved_of_nameless ?_⟩
    split <;> rfl
  | call => exact has.elim

/-- The code of a declared name pushes its own label, and then whatever its initial value pushes. -/
theorem Declarator.allResolved_code {d : Declarator} (has : d.HasCode labels) {number : Nat}
    (supplied : Supplied labels ((d.init.map (Expr.literals (number + 1))).getD []) data) :
    AllResolved names data (d.code labels number) := by
  unfold Declarator.code
  cases hinit : d.init with
  | none => exact allResolved_nil
  | some init =>
    rw [hinit] at supplied
    exact allResolved_cons.2 ⟨Instruction.resolved_pushLabel.2 (labelOf_mem has.1 supplied),
      allResolved_append.2 ⟨(Expr.allResolved (has.2 init hinit) supplied).1,
        allResolved_of_nameless rfl⟩⟩

/-- The names in the code of declarations are labels of data. -/
theorem Declarator.allResolved_allCode {ds : List Declarator} (has : ∀ d ∈ ds, d.HasCode labels)
    {number : Nat} (supplied : Supplied labels (Declarator.allLiterals number ds) data) :
    AllResolved names data (Declarator.allCode labels number ds) := by
  induction ds generalizing number with
  | nil => exact allResolved_nil
  | cons d ds ih =>
    obtain ⟨first, rest⟩ := List.forall_mem_cons.1 has
    exact allResolved_append.2 ⟨Declarator.allResolved_code first supplied.left,
      ih rest supplied.right⟩

mutual

/-- The names in the code of a statement are its own marks and labels of data. -/
theorem Stmt.allResolved {number : Nat} :
    {s : Stmt} → s.HasCode labels → Supplied labels (s.literals number) data →
      marks (s.code labels number) ⊆ names → AllResolved names data (s.code labels number)
  | .block _, has, supplied, sub => Block.allResolved has supplied sub
  | .ifThen condition body, ⟨has₁, has₂⟩, supplied, sub => by
    have test : AllResolved names data _ := (Expr.allResolved has₁ supplied.left).1
    simp [Stmt.code, markName_mark, controlStems, List.append_subset] at sub
    simp [Stmt.code, allResolved_cons, allResolved_append, allResolved_nil, markName_mark, test, sub,
      Block.allResolved has₂ supplied.right sub.2.1]
  | .ifElse condition body otherwise, ⟨has₁, has₂, has₃⟩, supplied, sub => by
    have test : AllResolved names data _ := (Expr.allResolved has₁ supplied.left).1
    simp [Stmt.code, markName_mark, controlStems, List.append_subset] at sub
    simp [Stmt.code, allResolved_cons, allResolved_append, allResolved_nil, markName_mark, test, sub,
      Block.allResolved has₂ supplied.right.left sub.2.1,
      Stmt.allResolved has₃ supplied.right.right sub.2.2.2.1]
  | .whileLoop condition body, ⟨has₁, has₂⟩, supplied, sub => by
    have test : AllResolved names data _ := (Expr.allResolved has₁ supplied.left).1
    simp [Stmt.code, markName_mark, controlStems, List.append_subset] at sub
    simp [Stmt.code, allResolved_cons, allResolved_append, allResolved_nil, markName_mark, test, sub,
      Block.allResolved has₂ supplied.right sub.2.1]
  | .doWhile body condition, ⟨has₁, has₂⟩, supplied, sub => by
    have test : AllResolved names data _ := (Expr.allResolved has₁ supplied.right).1
    simp [Stmt.code, markName_mark, controlStems, List.append_subset] at sub
    simp [Stmt.code, allResolved_cons, allResolved_append, allResolved_nil, markName_mark, test, sub,
      Block.allResolved has₂ supplied.left sub.2.1]
  | .forLoop init condition step body, ⟨has₁, has₂, has₃, has₄⟩, supplied, sub => by
    have test : AllResolved names data _ := (Expr.allResolved has₂ supplied.right.left).1
    have test' : AllResolved names data _ := (Expr.allResolved has₂ supplied.right.right.left).1
    simp [Stmt.code, markName_mark, controlStems, List.append_subset] at sub
    simp [Stmt.code, allResolved_cons, allResolved_append, allResolved_nil, markName_mark, test, test', sub,
      Stmt.allResolved has₁ supplied.left sub.2.1,
      Block.allResolved has₃ supplied.right.right.right.left sub.2.2.2.2.1,
      Stmt.allResolved has₄ supplied.right.right.right.right sub.2.2.2.2.2.1]
  | .declare _ _, has, supplied, _ => Declarator.allResolved_allCode has supplied
  | .assign _ _, ⟨has₁, has₂⟩, supplied, _ =>
    allResolved_append.2 ⟨(Expr.allResolved has₁ supplied.left).2, allResolved_append.2
      ⟨(Expr.allResolved has₂ supplied.right).1, allResolved_of_nameless rfl⟩⟩
  | .eval _, has, supplied, _ => (Expr.allResolved has supplied).1
  | .print _, ⟨has, _⟩, supplied, _ =>
    allResolved_append.2 ⟨(Expr.allResolved has supplied).1, allResolved_of_nameless (by
      unfold printOp; split <;> rfl)⟩
  | .input _, ⟨has, _⟩, supplied, _ =>
    allResolved_append.2 ⟨(Expr.allResolved has supplied).2, allResolved_of_nameless (by
      unfold inputOp; split <;> rfl)⟩

/-- The names in the code of a block are its own marks and labels of data. -/
theorem Block.allResolved {number : Nat} :
    {b : Block} → b.HasCode labels → Supplied labels (b.literals number) data →
      marks (b.code labels number) ⊆ names → AllResolved names data (b.code labels number)
  | ⟨_, _⟩, has, supplied, sub => Stmt.allResolved_allCode has supplied sub

theorem Stmt.allResolved_allCode {number : Nat} :
    {statements : List Stmt} → Stmt.AllHaveCode labels statements →
      Supplied labels (Stmt.allLiterals number statements) data →
        marks (Stmt.allCode labels number statements) ⊆ names →
          AllResolved names data (Stmt.allCode labels number statements)
  | [], _, _, _ => allResolved_nil
  | _ :: _, ⟨has₁, has₂⟩, supplied, sub => by
    rw [Stmt.allCode, marks_append, List.append_subset] at sub
    exact allResolved_append.2 ⟨Stmt.allResolved has₁ supplied.left sub.1,
      Stmt.allResolved_allCode has₂ supplied.right sub.2⟩

end

end Supplied

/-! ## Data -/

/-- Every block of a literal comes from a literal of the tree, or was there before. -/
theorem mem_entries_addLiterals {data : Catalogue ReadOnlyBlock} {literals : List (Nat × String)}
    {entry : String × ReadOnlyBlock} (mem : entry ∈ (addLiterals data literals).entries) :
    entry ∈ data.entries ∨ ∃ l ∈ literals, entry = (literalLabel l.1, literalBlock l.2) := by
  induction literals generalizing data with
  | nil => exact .inl mem
  | cons first rest ih =>
    have held : entry ∈
      (addLiterals (data.insert (literalLabel first.1) (literalBlock first.2)) rest).entries := mem
    rcases ih held with old | ⟨l, later, rfl⟩
    · rcases Catalogue.mem_entries_insert old with rfl | old
      · exact .inr ⟨first, .head _, rfl⟩
      · exact .inl old
    · exact .inr ⟨l, .tail _ later, rfl⟩

/-- Every literal has a block under its label. -/
theorem isSome_find?_addLiterals {data : Catalogue ReadOnlyBlock} {literals : List (Nat × String)}
    {label : String}
    (h : (data.find? label).isSome ∨ ∃ l ∈ literals, literalLabel l.1 = label) :
    ((addLiterals data literals).find? label).isSome := by
  induction literals generalizing data with
  | nil =>
    rcases h with h | ⟨l, mem, -⟩
    · exact h
    · cases mem
  | cons first rest ih =>
    show ((addLiterals (data.insert (literalLabel first.1) (literalBlock first.2)) rest).find?
      label).isSome
    refine ih ?_
    rw [Catalogue.find?_insert]
    split
    · exact .inl rfl
    · rename_i different
      refine h.imp_right ?_
      rintro ⟨l, mem, same⟩
      rcases List.mem_cons.1 mem with rfl | mem
      · exact absurd same.symm different
      · exact ⟨l, mem, same⟩

/-- Every block of storage comes from a symbol that was given a number, or was there before. -/
theorem mem_entries_addStorage {describe : SymbolId → Option Symbol} {data : Catalogue StaticBlock}
    {storage : List (SymbolId × Nat)} {entry : String × StaticBlock}
    (mem : entry ∈ (addStorage describe data storage).entries) :
    entry ∈ data.entries ∨ ∃ place ∈ storage, ∃ s, describe place.1 = some s ∧
      entry = (s.storageLabel place.2, s.storageBlock) := by
  induction storage generalizing data with
  | nil => exact .inl mem
  | cons first rest ih =>
    simp only [addStorage, List.foldl_cons] at mem
    rcases ih mem with old | ⟨place, later, s, described, rfl⟩
    · cases hs : describe first.1 with
      | none =>
        simp only [hs] at old
        exact .inl old
      | some s =>
        simp only [hs] at old
        rcases Catalogue.mem_entries_insert old with rfl | old
        · exact .inr ⟨first, .head _, s, hs, rfl⟩
        · exact .inl old
    · exact .inr ⟨place, .tail _ later, s, described, rfl⟩

/-- Storage under other numbers does not replace what is under this one. -/
theorem find?_addStorage_of_notMem {describe : SymbolId → Option Symbol}
    {data : Catalogue StaticBlock} {storage : List (SymbolId × Nat)} {stem : String} {number : Nat}
    (h : number ∉ storage.map Prod.snd) :
    (addStorage describe data storage).find? (numbered stem number) = data.find? (numbered stem number) := by
  induction storage generalizing data with
  | nil => rfl
  | cons first rest ih =>
    rw [List.map_cons, List.mem_cons, not_or] at h
    simp only [addStorage, List.foldl_cons] at ih ⊢
    rw [ih h.2]
    cases describe first.1 with
    | none => rfl
    | some s => exact Catalogue.find?_insert_of_ne _ _ fun same => h.1 (numbered_inj.1 same).2

/-- A symbol whose number no other has is found under its label. -/
theorem find?_addStorage {describe : SymbolId → Option Symbol} {data : Catalogue StaticBlock}
    {storage : List (SymbolId × Nat)} (nodup : (storage.map Prod.snd).Nodup) {id : SymbolId} {number : Nat}
    (mem : (id, number) ∈ storage) {s : Symbol} (described : describe id = some s) :
    (addStorage describe data storage).find? (s.storageLabel number) = some s.storageBlock := by
  induction storage generalizing data with
  | nil => cases mem
  | cons first rest ih =>
    rw [List.map_cons, List.nodup_cons] at nodup
    rcases List.mem_cons.1 mem with rfl | later
    · have last : (addStorage describe (data.insert (s.storageLabel number) s.storageBlock) rest).find?
          (s.storageLabel number) = _ := find?_addStorage_of_notMem nodup.1
      simp only [addStorage, List.foldl_cons, described] at last ⊢
      exact last.trans (Catalogue.find?_insert_self _ _ _)
    · exact ih nodup.2 later

/-! ## Lowered programs -/

/-- The first letter of a name. -/
def firstLetter (name : String) : Option Char :=
  name.toList.head?

/-- The number stands at the end, so a numbered name starts as its stem does. -/
theorem firstLetter_numbered {stem : String} {c : Char} (start : stem.toList.head? = some c)
    (number : Nat) : firstLetter (numbered stem number) = some c := by
  rw [firstLetter, toList_numbered, List.head?_append, start]
  rfl

/-- The label of a literal starts with an underscore, as no other label does. -/
theorem firstLetter_literalLabel (number : Nat) : firstLetter (literalLabel number) = some '_' :=
  firstLetter_numbered (by decide) number

/-- The label of storage starts with a small letter, that of its kind. -/
theorem firstLetter_storageLabel (s : Symbol) (number : Nat) :
    firstLetter (s.storageLabel number) = some 'v' ∨ firstLetter (s.storageLabel number) = some 'p' := by
  unfold Symbol.storageLabel
  split
  · exact .inl (firstLetter_numbered (by simp [String.toList_append]) number)
  · exact .inr (firstLetter_numbered (by simp [String.toList_append]) number)

/-- The names of marks start with a capital letter. -/
theorem Marked.firstLetter {low high : Nat} {names : List String} (h : Marked low high names)
    {name : String} (mem : name ∈ names) :
    ∃ c ∈ ['I', 'E', 'W', 'F', 'C', 'B'], MiniC.firstLetter name = some c := by
  obtain ⟨stem, control, k, -, -, rfl⟩ := h.form name mem
  simp only [controlStems, List.mem_cons, List.not_mem_nil, or_false] at control
  rcases control with rfl | rfl | rfl | rfl | rfl | rfl | rfl | rfl | rfl
  all_goals exact ⟨_, by decide, firstLetter_numbered rfl k⟩

namespace CheckedSource.Lowers

variable {checked : CheckedSource} (h : checked.Lowers)

include h

/-- A symbol is given storage once: every declared name has a symbol of its own. -/
theorem nodup_storage : ((checked.tree.storage 0).map Prod.fst).Nodup := by
  rw [Block.map_fst_storage]
  exact h.valid.nodup

/-- The labels of a program are those that its storage gives to symbols. -/
theorem labels_eq_some {id : SymbolId} {label : String} (found : checked.labels id = some label) :
    ∃ number s, (id, number) ∈ checked.tree.storage 0 ∧ checked.table.described? id = some s ∧
      label = s.storageLabel number := by
  unfold labels Block.labels at found
  by_cases mem : id ∈ (checked.tree.storage 0).map Prod.fst
  · obtain ⟨⟨_, number⟩, placed, rfl⟩ := List.mem_map.1 mem
    rw [SymbolTable.label?_places_of_mem _ _ h.nodup_storage placed] at found
    obtain ⟨s, described, rfl⟩ := Option.map_eq_some_iff.1 found
    exact ⟨number, s, placed, described, rfl⟩
  · rw [SymbolTable.label?_places_of_notMem _ _ _ mem, h.valid.sound.label?_eq_none] at found
    cases found

/-- Storage is for variables whose types have a layout, and takes at least a word. -/
theorem storable_of_mem {entry : SymbolId × Nat} (mem : entry ∈ checked.tree.storage 0) :
    ∃ s, checked.table.described? entry.1 = some s ∧ checked.table.typeOf? entry.1 = some s.ty ∧
      s.Storable ∧ Ty.wordSize ≤ s.storageBlock.size ∧ s.storageBlock.alignment = Ty.wordSize := by
  obtain ⟨s, described, storable⟩ := h.storable entry mem
  obtain ⟨s₀, found, rfl⟩ := Option.map_eq_some_iff.1 described
  have bare : checked.table.bare? entry.1 = some s₀.bare := SymbolTable.bare?_eq_some_iff.2 ⟨s₀, found, rfl⟩
  have declared : entry.1 ∈ checked.tree.declared := by
    rw [← Block.map_fst_storage 0]
    exact List.mem_map_of_mem mem
  obtain ⟨s₁, found₁, kind⟩ := h.valid.vars _ declared
  cases bare.symm.trans found₁
  have positive := h.valid.sound.positive _ _ bare kind
  refine ⟨s₀.described, described, ?_, storable, ?_, ?_⟩
  · rw [SymbolTable.typeOf?, bare]
    rfl
  · exact Ty.wordSize_le_size positive storable.size
  · exact Ty.alignment_eq storable.alignment

/-- Every label of a symbol is that of a block of the size of its type. -/
theorem storage_of_label {id : SymbolId} {label : String} (found : checked.labels id = some label) :
    ∃ s : Symbol, checked.table.typeOf? id = some s.ty ∧ s.Storable ∧ Ty.wordSize ≤ s.storageBlock.size ∧
      (label, s.storageBlock) ∈ checked.program.static.entries := by
  obtain ⟨number, s, mem, described, rfl⟩ := h.labels_eq_some found
  obtain ⟨s', described', ty, storable, size, -⟩ := h.storable_of_mem mem
  cases described.symm.trans described'
  refine ⟨s, ty, storable, size, (Catalogue.find?_eq_some_iff _).1 ?_⟩
  exact find?_addStorage (Block.drawn_storage 0 checked.tree).nodup mem described

/-- What has a label has a type with a size. -/
theorem size_of_label {id : SymbolId} {label : String} (found : checked.labels id = some label) :
    ∃ ty size, checked.table.typeOf? id = some ty ∧ ty.size = .ok size := by
  obtain ⟨s, typed, storable, -, -⟩ := h.storage_of_label found
  exact ⟨s.ty, _, typed, storable.size⟩

omit h in
/-- Every literal has a block, which holds at least the zero byte at its end. -/
theorem block_of_literal {entry : Nat × String} (mem : entry ∈ checked.tree.literals 0) :
    ∃ value, (literalLabel entry.1, literalBlock value) ∈ checked.program.readOnly.entries := by
  have found : ((addLiterals .empty (checked.tree.literals 0)).find? (literalLabel entry.1)).isSome :=
    isSome_find?_addLiterals (.inr ⟨entry, mem, rfl⟩)
  obtain ⟨block, found⟩ := Option.isSome_iff_exists.1 found
  have held := (Catalogue.find?_eq_some_iff _).1 found
  rcases mem_entries_addLiterals held with old | ⟨l, -, same⟩
  · cases old
  · have contents : block = literalBlock l.2 := congrArg Prod.snd same
    exact ⟨l.2, contents ▸ held⟩

omit h in
/-- There is nothing among the literals but literals. -/
theorem exists_literal_of_readOnly {entry : String × ReadOnlyBlock}
    (mem : entry ∈ checked.program.readOnly.entries) : ∃ value, entry.2 = literalBlock value := by
  rcases mem_entries_addLiterals mem with old | ⟨l, -, rfl⟩
  · cases old
  · exact ⟨l.2, rfl⟩

/-- There is nothing in storage but variables whose types have a layout, aligned to words. -/
theorem storable_of_static {entry : String × StaticBlock} (mem : entry ∈ checked.program.static.entries) :
    ∃ s : Symbol, s.Storable ∧ entry.2 = s.storageBlock ∧ s.storageBlock.alignment = Ty.wordSize := by
  rcases mem_entries_addStorage mem with old | ⟨place, placed, s, described, rfl⟩
  · cases old
  · obtain ⟨s', described', -, storable, -, alignment⟩ := h.storable_of_mem placed
    cases described.symm.trans described'
    exact ⟨s, storable, rfl, alignment⟩

omit h in
/-- A label of data is that of a literal or of storage. -/
theorem mem_dataLabels {label : String} :
    label ∈ checked.program.dataLabels ↔
      label ∈ checked.program.readOnly.entries.map Prod.fst ∨
        label ∈ checked.program.static.entries.map Prod.fst := by
  simp [Program.dataLabels, Program.blocks, DataBlock.ofReadOnly, DataBlock.ofStatic]

/-- The names in the code of a checked source are those of its data. -/
theorem supplied : Supplied checked.labels (checked.tree.literals 0) checked.program.dataLabels := by
  refine ⟨fun id label found => ?_, fun entry mem => ?_⟩
  · obtain ⟨s, -, -, -, held⟩ := h.storage_of_label found
    exact mem_dataLabels.2 (.inr (List.mem_map.2 ⟨_, held, rfl⟩))
  · obtain ⟨value, held⟩ := block_of_literal mem
    exact mem_dataLabels.2 (.inl (List.mem_map.2 ⟨_, held, rfl⟩))

omit h in
/-- The labels of literals start with an underscore. -/
theorem firstLetter_of_readOnly {label : String}
    (mem : label ∈ checked.program.readOnly.entries.map Prod.fst) : firstLetter label = some '_' := by
  obtain ⟨entry, held, rfl⟩ := List.mem_map.1 mem
  rcases mem_entries_addLiterals held with old | ⟨l, -, rfl⟩
  · cases old
  · exact firstLetter_literalLabel l.1

omit h in
/-- The labels of storage start with a small letter, so they are neither those of literals nor of marks. -/
theorem firstLetter_of_static {label : String}
    (mem : label ∈ checked.program.static.entries.map Prod.fst) :
    firstLetter label = some 'v' ∨ firstLetter label = some 'p' := by
  obtain ⟨entry, held, rfl⟩ := List.mem_map.1 mem
  rcases mem_entries_addStorage held with old | ⟨place, -, s, -, rfl⟩
  · cases old
  · exact firstLetter_storageLabel s place.2

/-- Every program that lowering makes is well labelled. -/
theorem wellLabelled : checked.program.WellLabelled := by
  have marked : Marked 0 (0 + checked.tree.numbers) (marks checked.program.code) :=
    Block.marked_code _ 0 checked.tree
  have dataLabels : checked.program.dataLabels =
      checked.program.readOnly.entries.map Prod.fst ++ checked.program.static.entries.map Prod.fst := by
    simp [Program.dataLabels, Program.blocks, Function.comp_def, DataBlock.ofReadOnly,
      DataBlock.ofStatic]
  -- The first letter tells marks, literals and storage apart: a capital, an underscore, a small letter.
  refine ⟨?_, List.nodup_append.2 ⟨marked.nodup, ?_, ?_⟩, ?_, ?_⟩
  · intro mem
    obtain ⟨c, -, first⟩ := marked.firstLetter mem
    cases first
  · rw [dataLabels]
    refine List.nodup_append.2 ⟨Catalogue.nodup_keys _, Catalogue.nodup_keys _, ?_⟩
    rintro label mem _ mem' rfl
    have first := firstLetter_of_readOnly mem
    rcases firstLetter_of_static mem' with second | second
    · cases first.symm.trans second
    · cases first.symm.trans second
  · rintro label mem _ mem' rfl
    obtain ⟨c, capital, first⟩ := marked.firstLetter mem
    rcases mem_dataLabels.1 mem' with mem' | mem'
    · cases first.symm.trans (firstLetter_of_readOnly mem')
      revert capital
      decide
    · rcases firstLetter_of_static mem' with second | second
      · cases first.symm.trans second
        revert capital
        decide
      · cases first.symm.trans second
        revert capital
        decide
  · intro b mem
    rcases List.mem_append.1 mem with mem | mem
    · obtain ⟨entry, held, rfl⟩ := List.mem_map.1 mem
      obtain ⟨value, block⟩ := exists_literal_of_readOnly held
      show Machine.isAlignment entry.2.alignment
      rw [block]
      rfl
    · obtain ⟨entry, held, rfl⟩ := List.mem_map.1 mem
      obtain ⟨s, -, block, alignment⟩ := h.storable_of_static held
      show Machine.isAlignment entry.2.alignment
      rw [block, alignment]
      rfl
  · intro i mem other name named
    exact (Block.allResolved h.hasCode h.supplied (fun _ mem => mem) i mem).mem other named

/-- Every literal lies inside memory, with at least the zero byte at its end. -/
theorem exists_literalOffset {entry : Nat × String} (mem : entry ∈ checked.tree.literals 0)
    (capacity : Nat) :
    ∃ b ∈ checked.program.blocks, b.label = literalLabel entry.1 ∧ 1 ≤ b.size ∧ ∃ offset,
      (checked.program.machine capacity).dataOffset? b.label = some offset ∧
        offset + b.size ≤ (checked.program.machine capacity).memory.size := by
  obtain ⟨value, held⟩ := block_of_literal mem
  have mem' : DataBlock.ofReadOnly (literalLabel entry.1, literalBlock value) ∈ checked.program.blocks :=
    List.mem_append_left _ (List.mem_map.2 ⟨_, held, rfl⟩)
  obtain ⟨offset, found, -, inside⟩ := h.wellLabelled.exists_dataOffset? capacity mem'
  exact ⟨_, mem', rfl, Nat.le_add_left 1 _, offset, found, inside⟩

/-- Every variable lies inside memory, with at least a word. -/
theorem exists_variableOffset {id : SymbolId} {label : String} (labelled : checked.labels id = some label)
    (capacity : Nat) :
    ∃ offset, (checked.program.machine capacity).dataOffset? label = some offset ∧
      offset + Ty.wordSize ≤ (checked.program.machine capacity).memory.size := by
  obtain ⟨s, -, -, word, held⟩ := h.storage_of_label labelled
  have mem : DataBlock.ofStatic (label, s.storageBlock) ∈ checked.program.blocks :=
    List.mem_append_right _ (List.mem_map.2 ⟨_, held, rfl⟩)
  obtain ⟨offset, found, -, inside⟩ := h.wellLabelled.exists_dataOffset? capacity mem
  exact ⟨offset, found, Nat.le_trans (Nat.add_le_add_left word offset) inside⟩

end CheckedSource.Lowers

end MiniC
