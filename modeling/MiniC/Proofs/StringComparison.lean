import MiniC.Proofs.Annotated
import MiniC.Proofs.Elements
import MiniC.Proofs.Preservation

/-!
# Comparison of strings

A string that is written out is a literal of its own wherever it stands, and what its code leaves is the address of the
literal. A comparison of two of them compares the addresses, which are different whatever the strings are
(`Lowers.literalOffsets_apart`).

The code of every operator in a checked tree stands somewhere in its program (`Lowers.exists_holds_of_site`), so
`Source.lower_string_comparison_iff` can say of every comparison of two strings in a source what it leaves, wherever
its code stands: the right answer if the strings differ, and the wrong one if they do not.
-/

namespace MiniC

/-! ## The code of a node -/

/-- The code of an expression stands in other code, and its literals are among others. -/
def Expr.Occurs (labels : SymbolId → Option String) (x : Expr) (code : List Instruction)
    (literals : List (Nat × String)) : Prop :=
  ∃ number, x.code labels number <:+: code ∧ x.literals number ⊆ literals

section Occurs

variable {labels : SymbolId → Option String} {x : Expr} {code code' : List Instruction}
  {literals literals' : List (Nat × String)}

theorem Expr.Occurs.self (labels : SymbolId → Option String) (x : Expr) (number : Nat) :
    x.Occurs labels (x.code labels number) (x.literals number) :=
  ⟨number, List.infix_refl _, List.Subset.refl _⟩

/-- What occurs in a part occurs in the whole. -/
theorem Expr.Occurs.mono (h : x.Occurs labels code literals) (within : code <:+: code')
    (sub : literals ⊆ literals') : x.Occurs labels code' literals' := by
  obtain ⟨number, stands, among⟩ := h
  exact ⟨number, stands.trans within, List.Subset.trans among sub⟩

theorem Expr.Occurs.append_left (h : x.Occurs labels code literals) :
    x.Occurs labels (code ++ code') (literals ++ literals') :=
  h.mono (List.prefix_append ..).isInfix (List.subset_append_left ..)

theorem Expr.Occurs.append_right (h : x.Occurs labels code' literals') :
    x.Occurs labels (code ++ code') (literals ++ literals') :=
  h.mono (List.suffix_append ..).isInfix (List.subset_append_right ..)

/-- The code of a node of an expression stands in the code of the expression, if it is not the node of an address;
and also in the code of the address, if there is such. By induction on the types. -/
theorem Expr.Typed.occurs {types : SymbolId → Option Ty} {ty : Ty} (typed : x.Typed types ty) {y : Expr}
    (node : .expr y ∈ x.sites) (value : y.isLvalue = false) (number : Nat) :
    y.Occurs labels (x.code labels number) (x.literals number) ∧
      (x.isLvalue → y.Occurs labels (x.addressCode labels number) (x.literals number)) := by
  induction typed generalizing number with
  | literal value' =>
    cases List.mem_singleton.1 node
    exact ⟨.self .., fun lvalue => by cases lvalue⟩
  | name =>
    cases List.mem_singleton.1 node
    cases value
  | unary _ _ ih =>
    refine ⟨?_, fun lvalue => by cases lvalue⟩
    rcases List.mem_cons.1 node with here | node
    · cases here
      exact .self ..
    · exact (ih node number).1.mono (List.prefix_append ..).isInfix (List.Subset.refl _)
  | @binary op left right _ _ _ _ _ _ ihl ihr =>
    refine ⟨?_, fun lvalue => by cases lvalue⟩
    rcases List.mem_cons.1 node with here | node
    · cases here
      exact .self ..
    · rcases List.mem_append.1 node with node | node
      · exact (ihl node number).1.append_left
      · refine Occurs.append_right ((ihr node (number + left.numbers)).1.mono ?_ (List.Subset.refl _))
        exact (List.prefix_append ..).isInfix
  | @index base position _ element baseTyped _ qualified ihb ihp =>
    have address : y.Occurs labels ((Expr.index base position (some element)).addressCode labels number)
        ((Expr.index base position (some element)).literals number) := by
      rcases List.mem_cons.1 node with here | node
      · cases here
        cases value
      · rcases List.mem_append.1 node with node | node
        · exact ((ihb node number).2 (baseTyped.isLvalue_of_element qualified)).append_left
        · refine Occurs.append_right ((ihp node (number + base.numbers)).1.mono ?_ (List.Subset.refl _))
          exact (List.prefix_append ..).isInfix
    refine ⟨?_, fun _ => address⟩
    rw [Expr.code_index]
    exact address.mono (List.prefix_append ..).isInfix (List.Subset.refl _)

end Occurs

/-- The nodes of the expressions in a piece of code. -/
def Action.sites : Action → List Site
  | .border | .mark _ | .jump _ => []
  | .test _ condition _ _ => condition.sites
  | .assign _ target value => target.sites ++ value.sites
  | .eval _ value | .print _ value => value.sites
  | .input _ target => target.sites

/-- The code of every value in a piece of code is a part of the code. Only places are lowered otherwise, to addresses.
-/
theorem Action.Sound.occurs {v : Vocabulary} {action : Action} (sound : action.Sound v) {y : Expr}
    (node : .expr y ∈ action.sites) (value : y.isLvalue = false) :
    y.Occurs v.labels (action.code v.labels) v.literals := by
  cases action with
  | border | mark | jump => cases node
  | test number condition _ _ =>
    exact (sound.typed.occurs node value number).1.mono (List.prefix_append ..).isInfix sound.literals
  | assign number target assigned =>
    obtain ⟨lvalue, ty, target', assigned'⟩ := sound
    rcases List.mem_append.1 node with node | node
    · exact ((target'.typed.occurs node value number).2 lvalue).mono (List.prefix_append ..).isInfix
        target'.literals
    · refine (assigned'.typed.occurs node value (number + target.numbers)).1.mono ?_ assigned'.literals
      exact (List.prefix_append ..).isInfix.trans (List.suffix_append ..).isInfix
  | eval number _ =>
    obtain ⟨ty, sound⟩ := sound
    exact (sound.typed.occurs node value number).1.mono (List.infix_refl _) sound.literals
  | print number _ =>
    obtain ⟨ty, sound, -⟩ := sound
    exact (sound.typed.occurs node value number).1.mono (List.prefix_append ..).isInfix sound.literals
  | input number _ =>
    obtain ⟨lvalue, sound⟩ := sound
    exact ((sound.typed.occurs node value number).2 lvalue).mono (List.prefix_append ..).isInfix sound.literals

section Course

variable {labels : SymbolId → Option String} {y : Expr}

/-- Every node of an initial value is in the piece of code that stores it. -/
theorem Declarator.exists_action_of_site {ds : List Declarator} (node : .expr y ∈ ds.flatMap Declarator.sites)
    (number : Nat) : ∃ action ∈ Declarator.allCourse number ds, .expr y ∈ action.sites := by
  induction ds generalizing number with
  | nil => cases node
  | cons d ds ih =>
    rw [List.flatMap_cons] at node
    rcases List.mem_append.1 node with node | node
    · cases init : d.init with
      | none => simp [Declarator.sites, init] at node
      | some x =>
        have inner : .expr y ∈ x.sites := by simpa [Declarator.sites, init] using node
        exact ⟨.assign (number + 1) (.name d.name d.symbol x.ty?) x, by simp [allCourse, init],
          List.mem_append_right _ inner⟩
    · obtain ⟨action, mem, found⟩ := ih node _
      exact ⟨action, List.mem_append_right _ mem, found⟩

mutual

/-- Every node of a statement with code is in a piece of its course. -/
theorem Stmt.exists_action_of_site (number : Nat) :
    {s : Stmt} → s.HasCode labels → .expr y ∈ s.sites → ∃ action ∈ s.course number, .expr y ∈ action.sites
  | .block _, has, node => Block.exists_action_of_site number has node
  | .ifThen condition _, has, node | .whileLoop condition _, has, node => by
    rcases List.mem_append.1 node with node | node
    · exact ⟨_, .tail _ (.head _), node⟩
    · obtain ⟨action, mem, found⟩ := Block.exists_action_of_site (number + 1 + condition.numbers) has.2 node
      exact ⟨action, .tail _ (.tail _ (List.mem_append_left _ mem)), found⟩
  | .ifElse condition body _, has, node => by
    simp only [Stmt.sites, List.mem_append] at node
    rcases node with node | node | node
    · exact ⟨_, .tail _ (.head _), node⟩
    · obtain ⟨action, mem, found⟩ := Block.exists_action_of_site (number + 1 + condition.numbers) has.2.1 node
      exact ⟨action, by simp [Stmt.course, mem], found⟩
    · obtain ⟨action, mem, found⟩ :=
        Stmt.exists_action_of_site (number + 1 + condition.numbers + body.numbers) has.2.2 node
      exact ⟨action, by simp [Stmt.course, mem], found⟩
  | .doWhile body condition, has, node => by
    rcases List.mem_append.1 node with node | node
    · obtain ⟨action, mem, found⟩ := Block.exists_action_of_site (number + 1) has.2 node
      exact ⟨action, .tail _ (List.mem_append_left _ mem), found⟩
    · exact ⟨_, .tail _ (List.mem_append_right _ (.head _)), node⟩
  | .forLoop init condition step body, has, node => by
    simp only [Stmt.sites, List.mem_append] at node
    rcases node with node | node | node | node
    · obtain ⟨action, mem, found⟩ := Stmt.exists_action_of_site (number + 1) has.1 node
      exact ⟨action, by simp [Stmt.course, mem], found⟩
    · exact ⟨.test (number + 1 + init.numbers) condition true (numbered "BODYFOR" number),
        by simp [Stmt.course], node⟩
    · obtain ⟨action, mem, found⟩ := Stmt.exists_action_of_site
        (number + 1 + init.numbers + condition.numbers + condition.numbers + body.numbers) has.2.2.2 node
      exact ⟨action, by simp [Stmt.course, mem], found⟩
    · obtain ⟨action, mem, found⟩ := Block.exists_action_of_site
        (number + 1 + init.numbers + condition.numbers + condition.numbers) has.2.2.1 node
      exact ⟨action, by simp [Stmt.course, mem], found⟩
  | .declare _ _, _, node => Declarator.exists_action_of_site node number
  | .assign _ _, _, node => ⟨_, .head _, node⟩
  | .eval _, _, node => ⟨_, .head _, node⟩
  | .print _, _, node => ⟨_, .head _, node⟩
  | .input _, _, node => ⟨_, .head _, node⟩
  | .function .., has, _ => has.elim
  | .breakLoop, has, _ => has.elim
  | .continueLoop, has, _ => has.elim
  | .returnValue _, has, _ => has.elim

theorem Block.exists_action_of_site (number : Nat) :
    {b : Block} → b.HasCode labels → .expr y ∈ b.sites → ∃ action ∈ b.course number, .expr y ∈ action.sites
  | ⟨statements, _⟩, has, node => by
    rcases List.mem_cons.1 node with here | node
    · cases here
    · obtain ⟨action, mem, found⟩ := Stmt.exists_action_of_allSites number has node
      exact ⟨action, .tail _ mem, found⟩

theorem Stmt.exists_action_of_allSites (number : Nat) :
    {statements : List Stmt} → Stmt.AllHaveCode labels statements → .expr y ∈ Stmt.allSites statements →
      ∃ action ∈ Stmt.allCourse number statements, .expr y ∈ action.sites
  | [], _, node => by cases node
  | statement :: _, has, node => by
    rcases List.mem_append.1 node with node | node
    · obtain ⟨action, mem, found⟩ := Stmt.exists_action_of_site number has.1 node
      exact ⟨action, List.mem_append_left _ mem, found⟩
    · obtain ⟨action, mem, found⟩ := Stmt.exists_action_of_allSites (number + statement.numbers) has.2 node
      exact ⟨action, List.mem_append_right _ (.tail _ mem), found⟩

end

end Course

namespace CheckedSource.Lowers

variable {checked : CheckedSource} (h : checked.Lowers)

include h

/-- The code of every node that is not that of an address stands in the program of a source. -/
theorem exists_holds_of_site {y : Expr} (node : .expr y ∈ checked.tree.sites) (value : y.isLvalue = false) :
    ∃ k number, checked.program.Holds k (y.code checked.labels number) ∧
      y.literals number ⊆ checked.tree.literals 0 := by
  obtain ⟨action, mem, found⟩ := Block.exists_action_of_site 0 h.hasCode node
  obtain ⟨before, after, split⟩ := List.append_of_mem mem
  obtain ⟨front, back, code, -⟩ := holds_of_course split
  have sound := h.sound_course (fun _ => trivial) action mem
  obtain ⟨number, ⟨first, last, stands⟩, among⟩ := sound.occurs found value
  refine ⟨(front ++ first).length, number, ⟨front ++ first, last ++ back, ?_, rfl⟩, among⟩
  have stands : first ++ y.code checked.labels number ++ last = action.code checked.labels := stands
  rw [code, ← stands]
  simp

end CheckedSource.Lowers

/-! ## Two addresses and an operator -/

namespace Machine

/-- What an instruction does with room on the stack, it does in a machine that allows the height after it. -/
theorem step_of_freeStep {capacity : Nat} {i : LoadedInstruction} {s s' : State} (went : freeStep i s = .ok () s')
    (room : s'.stack.height ≤ capacity) : step capacity i s = .ok () s' := by
  rcases step_eq_or_full capacity i s with same | ⟨-, final, full⟩
  · exact same.trans went
  · obtain ⟨s'', went', high⟩ := (step_eq_error full).2 _ rfl
    cases went.symm.trans went'
    exact absurd room (Nat.not_le.2 high)

section Compare

variable {p : Program} {capacity k a b : Nat} {label label' : String} {op : BinaryOp} {word : Int32}
  (holds : p.Holds k [.pushLabel label, .pushLabel label', ⟨Lowering.binaryOpCode op, .none⟩])
  (found : (p.machine capacity).dataOffset? label = some a)
  (found' : (p.machine capacity).dataOffset? label' = some b)
  (applied : op.apply (.ofNat a) (.ofNat b) = .ok word)

include holds found found' applied

/-- With room for the two addresses, their comparison is carried out. -/
theorem path_compare (s : Situation) (room : s.values.length + 2 ≤ (p.machine capacity).capacity) :
    (p.machine capacity).Path (s.stateAt k) [k, k + 1, k + 2] ((s.push word).stateAt (k + 3)) := by
  have room' : s.values.length + 1 ≤ (p.machine capacity).capacity := Nat.le_of_succ_le room
  have first : step (p.machine capacity).capacity ⟨.push, .ofNat a⟩ (s.stateAt (k + 1)) =
      .ok () ((s.push (.ofNat a)).stateAt (k + 1)) :=
    step_of_freeStep freeStep_push room'
  have second : step (p.machine capacity).capacity ⟨.push, .ofNat b⟩ ((s.push (.ofNat a)).stateAt (k + 2)) =
      .ok () (((s.push (.ofNat a)).push (.ofNat b)).stateAt (k + 2)) :=
    step_of_freeStep freeStep_push room
  have third : step (p.machine capacity).capacity ⟨Lowering.binaryOpCode op, 0⟩
      (((s.push (.ofNat a)).push (.ofNat b)).stateAt (k + 3)) = .ok () ((s.push word).stateAt (k + 3)) := by
    refine step_of_freeStep ?_ room'
    rw [freeStep_binary, applied]
    rfl
  have pushed := holds.getElem?_code capacity
  have pushed' := holds.tail.getElem?_code capacity
  have compared := holds.tail.tail.getElem?_code capacity
  rw [loadedInstruction_pushLabel found] at pushed
  rw [loadedInstruction_pushLabel found'] at pushed'
  rw [loadedInstruction_plain] at compared
  exact .step pushed first (.step pushed' second (.step compared third (.refl _)))

/-- Where the comparison of two addresses is carried out, its result is on the stack, and nothing else changes. -/
theorem eq_of_path_compare {s s' : State} {places : List Nat} (pc : s.pc = k)
    (path : (p.machine capacity).Path s places s') (length : places.length = 3) :
    s' = { s with pc := k + 3, stack := s.stack.push word } := by
  subst pc
  have straight : IsStraight [.pushLabel label, .pushLabel label', ⟨Lowering.binaryOpCode op, .none⟩] := by
    refine List.forall_mem_cons.2 ⟨rfl, List.forall_mem_cons.2 ⟨rfl, isStraight_one ?_⟩⟩
    cases op <;> rfl
  have went := Path.line holds straight path length
  have yields : (p.machine capacity).Yields [.pushLabel label, .pushLabel label', ⟨Lowering.binaryOpCode op, .none⟩]
      s.situation s.situation (.ok word) := by
    have first := @yields_pushLabel (p.machine capacity) s.situation label ⟨a, found⟩
    have second := fun x => @yields_pushLabel (p.machine capacity) (s.situation.push x) label' ⟨b, found'⟩
    rw [found, Option.getD_some] at first
    rw [found', Option.getD_some] at second
    rw [← applied]
    exact first.bind (fun x => (second x).bind (fun _ => yields_binary op) rfl rfl) rfl rfl
  have computed := yields s.pc
  rw [s.stateAt_situation] at computed
  cases went.symm.trans computed
  obtain ⟨pc, ⟨values, height, height_eq⟩, memory, console⟩ := s
  subst height_eq
  rfl

end Compare

end Machine

/-- Comparisons of strings. Every comparison of two strings that are written out in a source has its code in the
program, and wherever that stands, it is carried out if the stack has room, with the result for the addresses of the two
literals and no other effect. The addresses are different, also of equal strings. So in a memory of 32 bits strings
are never equal and always different, which is right exactly if they differ. -/
theorem Source.lower_string_comparison_iff {source : String} {options : Options} {p : Program}
    (lowered : Source.lower source options = .ok p) :
    ∃ (checked : CheckedSource) (table : SymbolTable),
      Source.check source options = .ok checked ∧
      checked.tree.lower checked.table = (.ok p, table) ∧
      ∀ blank : Machine, ∃ m, Machine.load p blank = .ok () m ∧
        ∀ x op left right leftTy rightTy ty,
          x = .binary op (.literal (.string left) leftTy) (.literal (.string right) rightTy) ty →
          op = .eq ∨ op = .notEq → .expr x ∈ checked.tree.sites →
            (∃ k number, p.Holds k (x.code table.label? number) ∧
              x.literals number ⊆ checked.tree.literals 0) ∧
            ∀ k number, p.Holds k (x.code table.label? number) → x.literals number ⊆ checked.tree.literals 0 →
              ∃ a b word, m.dataOffset? (literalLabel number) = some a ∧
                m.dataOffset? (literalLabel (number + 1)) = some b ∧ a ≠ b ∧
                op.apply (.ofNat a) (.ofNat b) = .ok word ∧
                (∀ s : Machine.State, s.pc = k → s.stack.height + 2 ≤ m.capacity →
                  ∃ places s', m.Path s places s' ∧ places.length = 3) ∧
                (∀ s places s', s.pc = k → m.Path s places s' → places.length = 3 →
                  s' = { s with pc := k + 3, stack := s.stack.push word }) ∧
                (m.memory.size ≤ 4294967296 →
                  word = (if op = .eq then 0 else 1) ∧
                  (word = (if left = right ↔ op = .eq then 1 else 0) ↔ left ≠ right)) := by
  obtain ⟨checked, table, hcheck, hlower, h, rfl, labels⟩ := Source.lower_eq_ok lowered
  refine ⟨checked, table, hcheck, hlower, fun blank => ⟨checked.program.machine blank.capacity,
    Machine.load_eq_ok_iff.2 ⟨h.wellLabelled, rfl⟩, ?_⟩⟩
  rw [labels]
  rintro x op left right leftTy rightTy ty rfl comparison node
  refine ⟨h.exists_holds_of_site node rfl, fun k number holds among => ?_⟩
  have first : (number, left) ∈ checked.tree.literals 0 := among (.head _)
  have second : (number + 1, right) ∈ checked.tree.literals 0 := among (.tail _ (.head _))
  -- Two literals have numbers of their own, even if they are the same string, and so different addresses.
  obtain ⟨a, b, found, found', different, low, low'⟩ :=
    h.literalOffsets_apart first second (Nat.ne_of_lt (Nat.lt_succ_self number)) blank.capacity
  obtain ⟨word, applied⟩ : ∃ word, op.apply (.ofNat a) (.ofNat b) = .ok word := by
    rcases comparison with rfl | rfl
    · exact ⟨_, rfl⟩
    · exact ⟨_, rfl⟩
  refine ⟨a, b, word, found, found', different, applied, ?_, ?_, fun fits => ?_⟩
  · intro s pc room
    rw [s.stack.height_eq] at room
    have path := Machine.path_compare holds found found' applied s.situation room
    rw [← pc, s.stateAt_situation] at path
    exact ⟨_, _, path, rfl⟩
  · intro s places s' pc path length
    exact Machine.eq_of_path_compare holds found found' applied pc path length
  · have apart := ofNat_ne_ofNat different (Nat.lt_of_lt_of_le low fits) (Nat.lt_of_lt_of_le low' fits)
    rcases comparison with rfl | rfl
    · have zero : word = 0 := by simpa [BinaryOp.apply, apart, eq_comm] using applied
      subst zero
      by_cases same : left = right <;> simp [same]
    · have one : word = 1 := by simpa [BinaryOp.apply, apart, eq_comm] using applied
      subst one
      by_cases same : left = right <;> simp [same]

/-- The node is a comparison for equality of the two strings. -/
def Site.isEquality (left right : String) : Site → Bool
  | .expr (.binary .eq (.literal (.string left') _) (.literal (.string right') _) _) =>
    left' == left && right' == right
  | _ => false

set_option maxRecDepth 100000 in
/-- A string is compared with itself in a condition inside a loop: the code leaves 0. -/
theorem Source.lower_string_comparison_iff_same :
    ∃ (source : String) (p : Program) (checked : CheckedSource) (table : SymbolTable) (m : Machine) (x : Expr)
      (leftTy rightTy ty : Option Ty) (k number : Nat) (s s' : Machine.State) (places : List Nat),
      source = "\x7b int i = 0; while (i < 1) \x7b if (\"a\" == \"a\") \x7b print i; \x7d i = i + 1; \x7d \x7d" ∧
      Source.lower source = .ok p ∧ Source.check source = .ok checked ∧ Machine.load p {} = .ok () m ∧
      m.memory.size ≤ 4294967296 ∧
      x = .binary .eq (.literal (.string "a") leftTy) (.literal (.string "a") rightTy) ty ∧
      .expr x ∈ checked.tree.sites ∧ p.Holds k (x.code table.label? number) ∧
      x.literals number ⊆ checked.tree.literals 0 ∧ s.pc = k ∧ m.Path s places s' ∧ places.length = 3 ∧
      s'.stack = s.stack.push 0 := by
  generalize hsource :
    "\x7b int i = 0; while (i < 1) \x7b if (\"a\" == \"a\") \x7b print i; \x7d i = i + 1; \x7d \x7d" = source
  have small : (Source.lower source).toOption.any (fun p => (p.machine 1024).memory.size ≤ 4294967296) = true := by
    subst hsource
    decide +kernel
  have shape : (Source.check source).toOption.any (·.tree.sites.any (Site.isEquality "a" "a")) = true := by
    subst hsource
    decide +kernel
  cases lowered : Source.lower source with
  | error e => simp [lowered, Except.toOption] at small
  | ok p =>
    obtain ⟨checked, table, hcheck, hlower, loads⟩ := Source.lower_string_comparison_iff lowered
    obtain ⟨m, loaded, comparisons⟩ := loads {}
    obtain rfl := (Machine.load_eq_ok_iff.1 loaded).2
    simp only [lowered, Except.toOption, Option.any_some, decide_eq_true_eq] at small
    simp only [hcheck, Except.toOption, Option.any_some, List.any_eq_true] at shape
    obtain ⟨site, node, equality⟩ := shape
    unfold Site.isEquality at equality
    split at equality
    · rename_i left leftTy right rightTy ty
      simp only [Bool.and_eq_true, beq_iff_eq] at equality
      obtain ⟨rfl, rfl⟩ := equality
      obtain ⟨⟨k, number, holds, among⟩, places⟩ :=
        comparisons _ .eq "a" "a" leftTy rightTy ty rfl (.inl rfl) node
      obtain ⟨a, b, word, -, -, -, -, exists_path, result, exact⟩ := places k number holds among
      obtain ⟨places, s', path, length⟩ := exists_path ⟨k, .empty, #[], {}⟩ rfl
        (show 2 ≤ (p.machine 1024).capacity by simp)
      obtain ⟨rfl, -⟩ := exact small
      have after := result _ places s' rfl path length
      exact ⟨source, p, checked, table, _, _, leftTy, rightTy, ty, k, number, _, s', places, rfl, lowered, hcheck,
        loaded, small, rfl, node, holds, among, rfl, path, length, congrArg Machine.State.stack after⟩
    · cases equality

set_option maxRecDepth 100000 in
/-- A string is not equal to itself. -/
theorem Source.compile_equal_strings :
    (Source.compile "\x7b print \"a\" == \"a\"; \x7d" {} 10 {}).map
      (fun answer => (answer.1.toOption.isSome, answer.2.printed)) = some (true, #["0"]) := by
  decide +kernel

end MiniC
