import MiniC.Proofs.Annotation
import MiniC.Proofs.Code

/-!
# The code of a tree, piece by piece

The code of a tree is a row of straight pieces: marks, jumps, tests, and the pieces that store, print,
read or compute something. `Block.course` is this row, without the nesting of the tree, and with a
`border` wherever a statement starts or ends. A declared name with an initial value is an assignment.

`Block.code_course` says that the code of a tree is that of its course, and `Block.sound_course` that
the expressions in the course of a checked tree are typed and have code.
-/

namespace MiniC

/-- A piece of code. The number in it is the one that is drawn next where the piece starts. -/
inductive Action where
  /-- A statement starts or ends here. -/
  | border
  | mark (name : String)
  | jump (name : String)
  /-- Goes to a mark if the condition has the given value. -/
  | test (number : Nat) (condition : Expr) (value : Bool) (name : String)
  | assign (number : Nat) (target value : Expr)
  | eval (number : Nat) (value : Expr)
  | print (number : Nat) (value : Expr)
  | input (number : Nat) (target : Expr)

/-- The course of declared names: an assignment for each initial value. -/
def Declarator.allCourse : (number : Nat) → List Declarator → List Action
  | _, [] => []
  | number, d :: ds =>
    (d.init.map fun init => Action.assign (number + 1) (.name d.name d.symbol init.ty?) init).toList ++
      Declarator.allCourse (number + 1 + (d.init.map Expr.numbers).getD 0) ds

mutual

/-- The course of a statement. -/
def Stmt.course : (number : Nat) → Stmt → List Action
  | number, .block body => body.course number
  | number, .ifThen condition body =>
    .mark (numbered "IF" number) :: .test (number + 1) condition false (numbered "ENDIF" number) ::
      (body.course (number + 1 + condition.numbers) ++
        [.jump (numbered "ENDIF" number), .mark (numbered "ENDIF" number)])
  | number, .ifElse condition body otherwise =>
    .mark (numbered "IF" number) :: .test (number + 1) condition false (numbered "ELSE" number) ::
      (body.course (number + 1 + condition.numbers) ++
        .jump (numbered "ENDIF" number) :: .mark (numbered "ELSE" number) :: .border ::
          (otherwise.course (number + 1 + condition.numbers + body.numbers) ++
            [.border, .jump (numbered "ENDIF" number), .mark (numbered "ENDIF" number)]))
  | number, .whileLoop condition body =>
    .mark (numbered "WHILE" number) :: .test (number + 1) condition false (numbered "ENDWHILE" number) ::
      (body.course (number + 1 + condition.numbers) ++
        [.jump (numbered "WHILE" number), .mark (numbered "ENDWHILE" number)])
  | number, .doWhile body condition =>
    .mark (numbered "WHILE" number) :: (body.course (number + 1) ++
      [.test (number + 1 + body.numbers) condition false (numbered "ENDWHILE" number),
        .jump (numbered "WHILE" number), .mark (numbered "ENDWHILE" number)])
  | number, .forLoop init condition step body =>
    let first := number + 1 + init.numbers
    let later := first + condition.numbers
    let turn := later + condition.numbers
    .mark (numbered "FOR" number) :: .border :: (init.course (number + 1) ++
      .border :: .test first condition true (numbered "BODYFOR" number) ::
        .mark (numbered "CHECKFOR" number) :: .test later condition false (numbered "ENDFOR" number) ::
          .mark (numbered "BODYFOR" number) :: (body.course turn ++
            .border :: (step.course (turn + body.numbers) ++
              [.border, .jump (numbered "CHECKFOR" number), .mark (numbered "ENDFOR" number)])))
  | number, .declare _ declarators => Declarator.allCourse number declarators
  | number, .assign target value => [.assign number target value]
  | number, .eval value => [.eval number value]
  | number, .print value => [.print number value]
  | number, .input target => [.input number target]
  | _, .function .. | _, .breakLoop | _, .continueLoop | _, .returnValue _ => []

/-- The course of a block. -/
def Block.course : (number : Nat) → Block → List Action
  | number, ⟨statements, _⟩ => .border :: Stmt.allCourse number statements

/-- The course of statements, one after another. -/
def Stmt.allCourse : (number : Nat) → List Stmt → List Action
  | _, [] => []
  | number, statement :: rest =>
    statement.course number ++ .border :: Stmt.allCourse (number + statement.numbers) rest

end

/-! ## Code -/

/-- The code of a piece. -/
def Action.code (labels : SymbolId → Option String) : Action → List Instruction
  | .border => []
  | .mark name => [.mark name]
  | .jump name => [.jump name]
  | .test number condition value name =>
    condition.code labels number ++ [if value then .branchIfNotZero name else .branchIfZero name]
  | .assign number target value =>
    target.addressCode labels number ++
      (value.code labels (number + target.numbers) ++ [⟨.store, .none⟩])
  | .eval number value => value.code labels number
  | .print number value => value.code labels number ++ [⟨printOp value.ty?, .none⟩]
  | .input number target =>
    target.addressCode labels number ++ [⟨inputOp target.ty?, .none⟩, ⟨.store, .none⟩]

theorem Declarator.code_allCourse (labels : SymbolId → Option String) (number : Nat)
    (ds : List Declarator) :
    Declarator.allCode labels number ds =
      (Declarator.allCourse number ds).flatMap (Action.code labels) := by
  induction ds generalizing number with
  | nil => rfl
  | cons d ds ih =>
    rw [allCode, allCourse, List.flatMap_append, ih]
    cases init : d.init with
    | none => simp [Declarator.code, init]
    | some x => simp [Declarator.code, init, Action.code, Expr.addressCode, Expr.numbers]

mutual

/-- The code of a statement is that of its course. -/
theorem Stmt.code_course (labels : SymbolId → Option String) (number : Nat) :
    (s : Stmt) → s.code labels number = (s.course number).flatMap (Action.code labels)
  | .block body => body.code_course labels number
  | .ifThen condition body | .whileLoop condition body => by
    simp [Stmt.code, Stmt.course, Action.code, body.code_course labels]
  | .ifElse condition body otherwise => by
    simp [Stmt.code, Stmt.course, Action.code, body.code_course labels, otherwise.code_course labels]
  | .doWhile body condition => by
    simp [Stmt.code, Stmt.course, Action.code, body.code_course labels]
  | .forLoop init condition step body => by
    simp [Stmt.code, Stmt.course, Action.code, init.code_course labels, body.code_course labels,
      step.code_course labels]
  | .declare _ ds => Declarator.code_allCourse labels number ds
  | .assign .. | .eval _ | .print _ | .input _ => by simp [Stmt.code, Stmt.course, Action.code]
  | .function .. | .breakLoop | .continueLoop | .returnValue _ => rfl

/-- The code of a block is that of its course. -/
theorem Block.code_course (labels : SymbolId → Option String) (number : Nat) :
    (b : Block) → b.code labels number = (b.course number).flatMap (Action.code labels)
  | ⟨statements, _⟩ => by
    rw [Block.code, Block.course, Stmt.code_allCourse labels number statements]
    rfl

theorem Stmt.code_allCourse (labels : SymbolId → Option String) (number : Nat) :
    (statements : List Stmt) →
      Stmt.allCode labels number statements =
        (Stmt.allCourse number statements).flatMap (Action.code labels)
  | [] => rfl
  | statement :: rest => by
    simp [Stmt.allCode, Stmt.allCourse, Action.code, statement.code_course labels,
      Stmt.code_allCourse labels _ rest]

end

/-! ## Sound courses -/

/-- What the names in a tree stand for: the types and the labels of symbols, and literals. A symbol with
a label has a type with a layout, and shares its label with no other. `indexed` says whether there may be
index expressions. -/
structure Vocabulary where
  types : SymbolId → Option Ty
  labels : SymbolId → Option String
  literals : List (Nat × String)
  indexed : Prop
  sized : ∀ id label, labels id = some label → ∃ ty size, types id = some ty ∧ ty.size = .ok size
  distinct : ∀ id id' label, labels id = some label → labels id' = some label → id = id'

/-- An expression whose first literal has the given number is of a type and has code. -/
structure Expr.Sound (v : Vocabulary) (number : Nat) (x : Expr) (ty : Ty) : Prop where
  typed : x.Typed v.types ty
  hasCode : x.HasCode v.labels
  literals : x.literals number ⊆ v.literals
  index : x.HasIndex → v.indexed

/-- The expressions of a piece of code have code, and they have the types that their places ask for. -/
def Action.Sound (v : Vocabulary) : Action → Prop
  | .border | .mark _ | .jump _ => True
  | .test number condition _ _ => condition.Sound v number .bool
  | .assign number target value =>
    target.isLvalue ∧ ∃ ty, target.Sound v number ty ∧ value.Sound v (number + target.numbers) ty
  | .eval number value => ∃ ty, value.Sound v number ty
  | .print number value =>
    ∃ ty, value.Sound v number ty ∧ (ty = .int ∨ ty = .bool ∨ ty = ⟨.string, []⟩)
  | .input number target => target.isLvalue ∧ target.Sound v number .int

/-- Nothing that can be stored into is a string: strings have no layout. -/
theorem Expr.Sound.ne_string {v : Vocabulary} {number : Nat} {x : Expr} {ty : Ty}
    (h : x.Sound v number ty) (lvalue : x.isLvalue) : ty ≠ ⟨.string, []⟩ := by
  rintro rfl
  have unsized : ∀ size, (⟨.string, []⟩ : Ty).size ≠ .ok size := by
    intro size found
    cases found
  cases x with
  | name spelling symbol ty =>
    obtain ⟨id, label, rfl, labelled⟩ := h.hasCode
    obtain ⟨ty', size, found, sized⟩ := v.sized id label labelled
    cases h.typed with
    | name found' =>
      cases found.symm.trans found'
      exact unsized size sized
  | index base position ty =>
    obtain ⟨⟨element, size, rfl, sized⟩, -⟩ := h.hasCode
    cases h.typed with
    | index _ _ _ => exact unsized size sized
  | literal | unary | binary | call => cases lvalue

section Sound

variable {v : Vocabulary}

theorem Declarator.sound_allCourse {ds : List Declarator} (typed : ∀ d ∈ ds, d.Typed v.types)
    (has : ∀ d ∈ ds, d.HasCode v.labels) {number : Nat}
    (sub : Declarator.allLiterals number ds ⊆ v.literals)
    (index : (∃ d ∈ ds, ∃ init ∈ d.init, init.HasIndex) → v.indexed) :
    ∀ a ∈ Declarator.allCourse number ds, a.Sound v := by
  induction ds generalizing number with
  | nil => simp [allCourse]
  | cons d ds ih =>
    rw [allLiterals, List.append_subset] at sub
    have rest := ih (fun d' mem => typed d' (.tail _ mem)) (fun d' mem => has d' (.tail _ mem)) sub.2
      fun ⟨d', mem, found⟩ => index ⟨d', .tail _ mem, found⟩
    rw [allCourse, List.forall_mem_append]
    refine ⟨?_, rest⟩
    cases hinit : d.init with
    | none => simp
    | some init =>
      obtain ⟨id, ty, symbol, found, initTyped⟩ := typed d (.head _)
      obtain ⟨⟨id', label, symbol', labelled⟩, initHas⟩ := has d (.head _)
      cases symbol.symm.trans symbol'
      have valueTyped := initTyped init hinit
      rw [hinit] at sub
      simp only [Option.map_some, Option.toList_some, List.mem_singleton, forall_eq]
      refine ⟨rfl, ty, ⟨?_, ⟨id, label, symbol, labelled⟩, by simp [Expr.literals], False.elim⟩,
        valueTyped, initHas init hinit, sub.1, fun found => index ⟨d, .head _, init, hinit, found⟩⟩
      rw [symbol, valueTyped.ty?_eq]
      exact .name found

mutual

/-- The course of a typed statement with code is sound. -/
theorem Stmt.sound_course {number : Nat} :
    {s : Stmt} → s.Typed v.types → s.HasCode v.labels → s.literals number ⊆ v.literals →
      (s.HasIndex → v.indexed) → ∀ a ∈ s.course number, a.Sound v
  | .block _, typed, has, sub, index => Block.sound_course typed has sub index
  | .ifThen _ _, ⟨typed₁, typed₂⟩, ⟨has₁, has₂⟩, sub, index
  | .whileLoop _ _, ⟨typed₁, typed₂⟩, ⟨has₁, has₂⟩, sub, index => by
    obtain ⟨sub₁, sub₂⟩ := List.append_subset.1 sub
    have body := Block.sound_course typed₂ has₂ sub₂ (index ∘ .inr)
    have test : Expr.Sound v _ _ _ := ⟨typed₁, has₁, sub₁, index ∘ .inl⟩
    simpa [Stmt.course, or_imp, forall_and, Action.Sound, test] using body
  | .ifElse _ _ _, ⟨typed₁, typed₂, typed₃⟩, ⟨has₁, has₂, has₃⟩, sub, index => by
    obtain ⟨sub₁, sub⟩ := List.append_subset.1 sub
    obtain ⟨sub₂, sub₃⟩ := List.append_subset.1 sub
    have body := Block.sound_course typed₂ has₂ sub₂ (index ∘ .inr ∘ .inl)
    have otherwise := Stmt.sound_course typed₃ has₃ sub₃ (index ∘ .inr ∘ .inr)
    have test : Expr.Sound v _ _ _ := ⟨typed₁, has₁, sub₁, index ∘ .inl⟩
    simpa [Stmt.course, or_imp, forall_and, Action.Sound, test] using ⟨body, otherwise⟩
  | .doWhile _ _, ⟨typed₁, typed₂⟩, ⟨has₁, has₂⟩, sub, index => by
    obtain ⟨sub₁, sub₂⟩ := List.append_subset.1 sub
    have body := Block.sound_course typed₁ has₂ sub₁ (index ∘ .inr)
    have test : Expr.Sound v _ _ _ := ⟨typed₂, has₁, sub₂, index ∘ .inl⟩
    simpa [Stmt.course, or_imp, forall_and, Action.Sound, test] using body
  | .forLoop _ _ _ _, ⟨typed₁, typed₂, typed₃, typed₄⟩, ⟨has₁, has₂, has₃, has₄⟩, sub, index => by
    obtain ⟨sub₁, sub⟩ := List.append_subset.1 sub
    obtain ⟨sub₂, sub⟩ := List.append_subset.1 sub
    obtain ⟨sub₃, sub⟩ := List.append_subset.1 sub
    obtain ⟨sub₄, sub₅⟩ := List.append_subset.1 sub
    have init := Stmt.sound_course typed₁ has₁ sub₁ (index ∘ .inl)
    have body := Block.sound_course typed₄ has₃ sub₄ (index ∘ .inr ∘ .inr ∘ .inr)
    have step := Stmt.sound_course typed₃ has₄ sub₅ (index ∘ .inr ∘ .inr ∘ .inl)
    have first : Expr.Sound v _ _ _ := ⟨typed₂, has₂, sub₂, index ∘ .inr ∘ .inl⟩
    have later : Expr.Sound v _ _ _ := ⟨typed₂, has₂, sub₃, index ∘ .inr ∘ .inl⟩
    simpa [Stmt.course, or_imp, forall_and, Action.Sound, first, later] using ⟨init, body, step⟩
  | .declare _ _, typed, has, sub, index => Declarator.sound_allCourse typed has sub index
  | .assign target value, ⟨lvalue, ty, typed₁, typed₂⟩, ⟨has₁, has₂⟩, sub, index => by
    obtain ⟨sub₁, sub₂⟩ := List.append_subset.1 sub
    simpa [Stmt.course] using
      show Action.Sound v (.assign _ target value) from ⟨lvalue, ty, ⟨typed₁, has₁, sub₁, index ∘ .inl⟩,
        ⟨typed₂, has₂, sub₂, index ∘ .inr⟩⟩
  | .eval value, ⟨ty, typed⟩, has, sub, index => by
    simpa [Stmt.course] using
      show Action.Sound v (.eval _ value) from ⟨ty, typed, has, sub, index⟩
  | .print value, ⟨ty, typed⟩, ⟨has, printable⟩, sub, index => by
    simp only [typed.ty?_eq, Option.some.injEq] at printable
    simpa [Stmt.course] using
      show Action.Sound v (.print _ value) from ⟨ty, ⟨typed, has, sub, index⟩, printable⟩
  | .input target, ⟨lvalue, ty, typed, _⟩, ⟨has, readable⟩, sub, index => by
    have sound : target.Sound v number ty := ⟨typed, has, sub, index⟩
    simp only [typed.ty?_eq, Option.some.injEq, sound.ne_string lvalue, or_false] at readable
    subst readable
    simpa [Stmt.course] using show Action.Sound v (.input _ target) from ⟨lvalue, sound⟩

/-- The course of a typed block with code is sound. -/
theorem Block.sound_course {number : Nat} :
    {b : Block} → b.Typed v.types → b.HasCode v.labels → b.literals number ⊆ v.literals →
      (b.HasIndex → v.indexed) → ∀ a ∈ b.course number, a.Sound v
  | ⟨_, _⟩, typed, has, sub, index =>
    List.forall_mem_cons.2 ⟨trivial, Stmt.sound_allCourse typed has sub index⟩

theorem Stmt.sound_allCourse {number : Nat} :
    {statements : List Stmt} → Stmt.AllTyped v.types statements →
      Stmt.AllHaveCode v.labels statements → Stmt.allLiterals number statements ⊆ v.literals →
        (Stmt.AnyHasIndex statements → v.indexed) → ∀ a ∈ Stmt.allCourse number statements, a.Sound v
  | [], _, _, _, _ => by simp [Stmt.allCourse]
  | _ :: _, ⟨typed₁, typed₂⟩, ⟨has₁, has₂⟩, sub, index => by
    obtain ⟨sub₁, sub₂⟩ := List.append_subset.1 sub
    have first := Stmt.sound_course typed₁ has₁ sub₁ (index ∘ .inl)
    have rest := Stmt.sound_allCourse typed₂ has₂ sub₂ (index ∘ .inr)
    exact List.forall_mem_append.2 ⟨first, List.forall_mem_cons.2 ⟨trivial, rest⟩⟩

end

end Sound

end MiniC
