import MiniC.Proofs.Names
import MiniC.Proofs.Typing

/-!
# The code of a tree

Lowering is a walk over a state. Here its results are written as functions of the tree: the code, the
literals, the storage, and how many numbers are drawn for names. The functions take the number that is
drawn next and the labels that the symbols have in the end; nothing else of the state matters.

That lowering makes exactly this is shown in `MiniC.Proofs.Lowered`.
-/

namespace MiniC

/-! ## Expressions -/

/-- The label of a literal. -/
def literalLabel (number : Nat) : String :=
  numbered "__str_lit" number

/-- A literal as data: its bytes and a zero byte. -/
def literalBlock (value : String) : ReadOnlyBlock :=
  ⟨(Text.utf8 value).length + 1, 1, value⟩

/-- The label that a name is lowered to. -/
def labelOf (labels : SymbolId → Option String) (symbol : Option SymbolId) : String :=
  (symbol.bind labels).getD ""

/-- The distance between elements of the given type. -/
def strideOf (element : Option Ty) : Int32 :=
  match element.map Ty.size with
  | some (.ok size) => Int32.ofNat size
  | _ => 0

/-- Whether elements of the given type are single values, which can be loaded. -/
def isLoaded (element : Option Ty) : Bool :=
  element.any Ty.isUnqualified

namespace Expr

/-- How many numbers are drawn for an expression: one for every string in it. -/
def numbers : Expr → Nat
  | .literal (.string _) _ => 1
  | .literal .. | .name .. | .call .. => 0
  | .unary _ operand _ => operand.numbers
  | .binary _ left right _ => left.numbers + right.numbers
  | .index base position _ => base.numbers + position.numbers

/-- The strings of an expression with the numbers of their labels. -/
def literals : (number : Nat) → Expr → List (Nat × String)
  | number, .literal (.string value) _ => [(number, value)]
  | _, .literal .. | _, .name .. | _, .call .. => []
  | number, .unary _ operand _ => operand.literals number
  | number, .binary _ left right _ => left.literals number ++ right.literals (number + left.numbers)
  | number, .index base position _ =>
    base.literals number ++ position.literals (number + base.numbers)

/-- The instruction that pushes a literal. -/
def literalCode (number : Nat) : Literal → Instruction
  | .int value => .pushInt value
  | .bool value => .pushInt (if value then 1 else 0)
  | .char value => .pushInt (Int32.ofNat value.toNat)
  | .string _ => .pushLabel (literalLabel number)
  | .float _ => .pushInt 0

mutual

/-- The code that pushes the value of an expression. -/
def code (labels : SymbolId → Option String) : (number : Nat) → Expr → List Instruction
  | number, .literal value _ => [literalCode number value]
  | _, .name _ symbol _ => [.pushLabel (labelOf labels symbol), ⟨.load, .none⟩]
  | number, .unary op operand _ =>
    operand.code labels number ++ (Lowering.unaryOpCode? op).toList.map (⟨·, .none⟩)
  | number, .binary op left right _ =>
    left.code labels number ++
      (right.code labels (number + left.numbers) ++ [⟨Lowering.binaryOpCode op, .none⟩])
  | number, .index base position ty =>
    base.addressCode labels number ++ (position.code labels (number + base.numbers) ++
      ([.pushInt (strideOf ty), ⟨.mul, .none⟩, ⟨.add, .none⟩] ++
        if isLoaded ty then [⟨.load, .none⟩] else []))
  | _, .call .. => []

/-- The code that pushes the address of a name or an element. -/
def addressCode (labels : SymbolId → Option String) : (number : Nat) → Expr → List Instruction
  | _, .name _ symbol _ => [.pushLabel (labelOf labels symbol)]
  | number, .index base position ty =>
    base.addressCode labels number ++ (position.code labels (number + base.numbers) ++
      [.pushInt (strideOf ty), ⟨.mul, .none⟩, ⟨.add, .none⟩])
  | _, .literal .. | _, .unary .. | _, .binary .. | _, .call .. => []

end

/-- An expression has code: its names have storage, its elements have a size, and it holds neither
a floating-point literal nor a call. -/
def HasCode (labels : SymbolId → Option String) : Expr → Prop
  | .literal (.float _) _ | .call .. => False
  | .literal .. => True
  | .name _ symbol _ => ∃ id label, symbol = some id ∧ labels id = some label
  | .unary _ operand _ => operand.HasCode labels
  | .binary _ left right _ => left.HasCode labels ∧ right.HasCode labels
  | .index base position ty =>
    (∃ element size, ty = some element ∧ element.size = .ok size) ∧ base.HasCode labels ∧
      position.HasCode labels

/-- The value of an element is what its address leads to, if it can be loaded. -/
theorem code_index (labels : SymbolId → Option String) (number : Nat) (base position : Expr)
    (ty : Option Ty) :
    (Expr.index base position ty).code labels number =
      (Expr.index base position ty).addressCode labels number ++
        if isLoaded ty then [⟨.load, .none⟩] else [] := by
  simp [code, addressCode]

end Expr

/-! ## Statements -/

/-- How many numbers are drawn for declared names: one for each, and those of its initial value. -/
def Declarator.allNumbers : List Declarator → Nat
  | [] => 0
  | d :: ds => 1 + ((d.init.map Expr.numbers).getD 0 + Declarator.allNumbers ds)

/-- The strings in the initial values of declared names. -/
def Declarator.allLiterals : (number : Nat) → List Declarator → List (Nat × String)
  | _, [] => []
  | number, d :: ds =>
    (d.init.map (Expr.literals (number + 1))).getD [] ++
      Declarator.allLiterals (number + 1 + (d.init.map Expr.numbers).getD 0) ds

/-- The symbols of declared names with the numbers of their labels. -/
def Declarator.allStorage : (number : Nat) → List Declarator → List (SymbolId × Nat)
  | _, [] => []
  | number, d :: ds =>
    d.symbol.toList.map (·, number) ++
      Declarator.allStorage (number + 1 + (d.init.map Expr.numbers).getD 0) ds

/-- The code that stores the initial value of a declared name. -/
def Declarator.code (labels : SymbolId → Option String) (number : Nat) (d : Declarator) :
    List Instruction :=
  match d.init with
  | none => []
  | some init =>
    .pushLabel (labelOf labels d.symbol) :: (init.code labels (number + 1) ++ [⟨.store, .none⟩])

/-- The code that stores the initial values of declared names. -/
def Declarator.allCode (labels : SymbolId → Option String) :
    (number : Nat) → List Declarator → List Instruction
  | _, [] => []
  | number, d :: ds =>
    d.code labels number ++
      Declarator.allCode labels (number + 1 + (d.init.map Expr.numbers).getD 0) ds

mutual

/-- How many numbers are drawn for a statement. An `if` and a loop take one for all their labels; the
condition of a `for` loop has its code, and its strings, twice. -/
def Stmt.numbers : Stmt → Nat
  | .block body => body.numbers
  | .ifThen condition body => 1 + (condition.numbers + body.numbers)
  | .ifElse condition body otherwise =>
    1 + (condition.numbers + (body.numbers + otherwise.numbers))
  | .whileLoop condition body => 1 + (condition.numbers + body.numbers)
  | .doWhile body condition => 1 + (body.numbers + condition.numbers)
  | .forLoop init condition step body =>
    1 + (init.numbers + (condition.numbers + (condition.numbers + (body.numbers + step.numbers))))
  | .declare _ declarators => Declarator.allNumbers declarators
  | .assign target value => target.numbers + value.numbers
  | .eval value | .print value => value.numbers
  | .input target => target.numbers
  | .function .. | .breakLoop | .continueLoop | .returnValue _ => 0

/-- How many numbers are drawn for a block. -/
def Block.numbers : Block → Nat
  | ⟨statements, _⟩ => Stmt.allNumbers statements

/-- How many numbers are drawn for statements, one after another. -/
def Stmt.allNumbers : List Stmt → Nat
  | [] => 0
  | statement :: rest => statement.numbers + Stmt.allNumbers rest

end

mutual

/-- The strings of a statement with the numbers of their labels. -/
def Stmt.literals : (number : Nat) → Stmt → List (Nat × String)
  | number, .block body => body.literals number
  | number, .ifThen condition body | number, .whileLoop condition body =>
    condition.literals (number + 1) ++ body.literals (number + 1 + condition.numbers)
  | number, .ifElse condition body otherwise =>
    condition.literals (number + 1) ++ (body.literals (number + 1 + condition.numbers) ++
      otherwise.literals (number + 1 + condition.numbers + body.numbers))
  | number, .doWhile body condition =>
    body.literals (number + 1) ++ condition.literals (number + 1 + body.numbers)
  | number, .forLoop init condition step body =>
    let first := number + 1 + init.numbers
    let later := first + condition.numbers
    let turn := later + condition.numbers
    init.literals (number + 1) ++ (condition.literals first ++ (condition.literals later ++
      (body.literals turn ++ step.literals (turn + body.numbers))))
  | number, .declare _ declarators => Declarator.allLiterals number declarators
  | number, .assign target value =>
    target.literals number ++ value.literals (number + target.numbers)
  | number, .eval value | number, .print value => value.literals number
  | number, .input target => target.literals number
  | _, .function .. | _, .breakLoop | _, .continueLoop | _, .returnValue _ => []

/-- The strings of a block. -/
def Block.literals : (number : Nat) → Block → List (Nat × String)
  | number, ⟨statements, _⟩ => Stmt.allLiterals number statements

/-- The strings of statements, one after another. -/
def Stmt.allLiterals : (number : Nat) → List Stmt → List (Nat × String)
  | _, [] => []
  | number, statement :: rest =>
    statement.literals number ++ Stmt.allLiterals (number + statement.numbers) rest

end

mutual

/-- The symbols that a statement gives storage to, with the numbers of their labels. -/
def Stmt.storage : (number : Nat) → Stmt → List (SymbolId × Nat)
  | number, .block body => body.storage number
  | number, .ifThen condition body | number, .whileLoop condition body =>
    body.storage (number + 1 + condition.numbers)
  | number, .ifElse condition body otherwise =>
    body.storage (number + 1 + condition.numbers) ++
      otherwise.storage (number + 1 + condition.numbers + body.numbers)
  | number, .doWhile body _ => body.storage (number + 1)
  | number, .forLoop init condition step body =>
    let turn := number + 1 + init.numbers + condition.numbers + condition.numbers
    init.storage (number + 1) ++ (body.storage turn ++ step.storage (turn + body.numbers))
  | number, .declare _ declarators => Declarator.allStorage number declarators
  | _, .assign .. | _, .eval _ | _, .print _ | _, .input _ | _, .function .. | _, .breakLoop
  | _, .continueLoop | _, .returnValue _ => []

/-- The symbols that a block gives storage to. -/
def Block.storage : (number : Nat) → Block → List (SymbolId × Nat)
  | number, ⟨statements, _⟩ => Stmt.allStorage number statements

/-- The symbols that statements give storage to. -/
def Stmt.allStorage : (number : Nat) → List Stmt → List (SymbolId × Nat)
  | _, [] => []
  | number, statement :: rest =>
    statement.storage number ++ Stmt.allStorage (number + statement.numbers) rest

end

/-- The instruction that prints a value of the given type. -/
def printOp (ty : Option Ty) : OpCode :=
  if ty = some ⟨.string, []⟩ then .printStr else .printInt

/-- The instruction that reads a value of the given type. -/
def inputOp (ty : Option Ty) : OpCode :=
  if ty = some ⟨.string, []⟩ then .inputStr else .inputInt

mutual

/-- The code of a statement. -/
def Stmt.code (labels : SymbolId → Option String) : (number : Nat) → Stmt → List Instruction
  | number, .block body => body.code labels number
  | number, .ifThen condition body =>
    .mark (numbered "IF" number) :: (condition.code labels (number + 1) ++
      .branchIfZero (numbered "ENDIF" number) ::
        (body.code labels (number + 1 + condition.numbers) ++
          [.jump (numbered "ENDIF" number), .mark (numbered "ENDIF" number)]))
  | number, .ifElse condition body otherwise =>
    .mark (numbered "IF" number) :: (condition.code labels (number + 1) ++
      .branchIfZero (numbered "ELSE" number) ::
        (body.code labels (number + 1 + condition.numbers) ++
          .jump (numbered "ENDIF" number) :: .mark (numbered "ELSE" number) ::
            (otherwise.code labels (number + 1 + condition.numbers + body.numbers) ++
              [.jump (numbered "ENDIF" number), .mark (numbered "ENDIF" number)])))
  | number, .whileLoop condition body =>
    .mark (numbered "WHILE" number) :: (condition.code labels (number + 1) ++
      .branchIfZero (numbered "ENDWHILE" number) ::
        (body.code labels (number + 1 + condition.numbers) ++
          [.jump (numbered "WHILE" number), .mark (numbered "ENDWHILE" number)]))
  | number, .doWhile body condition =>
    .mark (numbered "WHILE" number) :: (body.code labels (number + 1) ++
      (condition.code labels (number + 1 + body.numbers) ++
        [.branchIfZero (numbered "ENDWHILE" number), .jump (numbered "WHILE" number),
          .mark (numbered "ENDWHILE" number)]))
  | number, .forLoop init condition step body =>
    let first := number + 1 + init.numbers
    let later := first + condition.numbers
    let turn := later + condition.numbers
    .mark (numbered "FOR" number) :: (init.code labels (number + 1) ++
      (condition.code labels first ++ .branchIfNotZero (numbered "BODYFOR" number) ::
        .mark (numbered "CHECKFOR" number) :: (condition.code labels later ++
          .branchIfZero (numbered "ENDFOR" number) :: .mark (numbered "BODYFOR" number) ::
            (body.code labels turn ++ (step.code labels (turn + body.numbers) ++
              [.jump (numbered "CHECKFOR" number), .mark (numbered "ENDFOR" number)])))))
  | number, .declare _ declarators => Declarator.allCode labels number declarators
  | number, .assign target value =>
    target.addressCode labels number ++
      (value.code labels (number + target.numbers) ++ [⟨.store, .none⟩])
  | number, .eval value => value.code labels number
  | number, .print value => value.code labels number ++ [⟨printOp value.ty?, .none⟩]
  | number, .input target =>
    target.addressCode labels number ++ [⟨inputOp target.ty?, .none⟩, ⟨.store, .none⟩]
  | _, .function .. | _, .breakLoop | _, .continueLoop | _, .returnValue _ => []

/-- The code of a block. -/
def Block.code (labels : SymbolId → Option String) : (number : Nat) → Block → List Instruction
  | number, ⟨statements, _⟩ => Stmt.allCode labels number statements

/-- The code of statements, one after another. -/
def Stmt.allCode (labels : SymbolId → Option String) : (number : Nat) → List Stmt → List Instruction
  | _, [] => []
  | number, statement :: rest =>
    statement.code labels number ++ Stmt.allCode labels (number + statement.numbers) rest

end

/-- A declared name has code: it has storage, and its initial value has code. -/
def Declarator.HasCode (labels : SymbolId → Option String) (d : Declarator) : Prop :=
  (∃ id label, d.symbol = some id ∧ labels id = some label) ∧
    ∀ init, d.init = some init → init.HasCode labels

mutual

/-- A statement has code: its expressions do, it prints what can be printed and reads what can be
read, and it is none of the statements that are not lowered. -/
def Stmt.HasCode (labels : SymbolId → Option String) : Stmt → Prop
  | .block body => body.HasCode labels
  | .ifThen condition body | .whileLoop condition body | .doWhile body condition =>
    condition.HasCode labels ∧ body.HasCode labels
  | .ifElse condition body otherwise =>
    condition.HasCode labels ∧ body.HasCode labels ∧ otherwise.HasCode labels
  | .forLoop init condition step body =>
    init.HasCode labels ∧ condition.HasCode labels ∧ body.HasCode labels ∧ step.HasCode labels
  | .declare _ declarators => ∀ d ∈ declarators, d.HasCode labels
  | .assign target value => target.HasCode labels ∧ value.HasCode labels
  | .eval value => value.HasCode labels
  | .print value =>
    value.HasCode labels ∧
      (value.ty? = some .int ∨ value.ty? = some .bool ∨ value.ty? = some ⟨.string, []⟩)
  | .input target =>
    target.HasCode labels ∧ (target.ty? = some .int ∨ target.ty? = some ⟨.string, []⟩)
  | .function .. | .breakLoop | .continueLoop | .returnValue _ => False

/-- A block has code. -/
def Block.HasCode (labels : SymbolId → Option String) : Block → Prop
  | ⟨statements, _⟩ => Stmt.AllHaveCode labels statements

/-- The statements of a block have code. -/
def Stmt.AllHaveCode (labels : SymbolId → Option String) : List Stmt → Prop
  | [] => True
  | statement :: rest => statement.HasCode labels ∧ Stmt.AllHaveCode labels rest

end

/-! ## Storage -/

/-- What a symbol is apart from what checking and lowering record of it. -/
def Symbol.described (s : Symbol) : Symbol :=
  { s with initialized := false, used := false, label := none }

/-- The label of the storage of a symbol. -/
def Symbol.storageLabel (s : Symbol) (number : Nat) : String :=
  numbered ((if s.kind = .variable then "v" else "p") ++ "_" ++ s.name) number

/-- The storage of a symbol. -/
def Symbol.storageBlock (s : Symbol) : StaticBlock :=
  ⟨s.ty.size.toOption.getD 0, s.ty.alignment.toOption.getD 0⟩

/-- A symbol can be given storage. -/
structure Symbol.Storable (s : Symbol) : Prop where
  kind : s.kind = .variable ∨ s.kind = .parameter
  size : s.ty.size = .ok s.storageBlock.size
  alignment : s.ty.alignment = .ok s.storageBlock.alignment

namespace SymbolTable

/-- What a table says of a symbol from its definition on. -/
def described? (t : SymbolTable) (id : SymbolId) : Option Symbol :=
  (t.symbol? id).map Symbol.described

/-- The label of the storage of a symbol. -/
def label? (t : SymbolTable) (id : SymbolId) : Option String :=
  (t.symbol? id).bind Symbol.label

/-- The table in which a symbol has storage. -/
def place (t : SymbolTable) (entry : SymbolId × Nat) : SymbolTable :=
  t.modifySymbol entry.1 fun s => { s with label := some (s.storageLabel entry.2) }

/-- Storage for a symbol that exists is a label for it. -/
theorem place_eq {t : SymbolTable} {id : SymbolId} {s : Symbol} (found : t.symbol? id = some s)
    (number : Nat) :
    t.place (id, number) =
      t.modifySymbol id fun s' => { s' with label := some (s.storageLabel number) } := by
  have symbols : t.symbols.modify id (fun s' => { s' with label := some (s'.storageLabel number) }) =
      t.symbols.modify id fun s' => { s' with label := some (s.storageLabel number) } := by
    apply Array.ext_getElem?
    intro other
    rw [Array.getElem?_modify, Array.getElem?_modify]
    split
    · rename_i same
      rw [symbol?, same] at found
      rw [found]
      rfl
    · rfl
  simp only [place, modifySymbol, symbols]

/-- Storage changes nothing but labels. -/
@[simp]
theorem described?_place (t : SymbolTable) (entry : SymbolId × Nat) (id : SymbolId) :
    (t.place entry).described? id = t.described? id := by
  simp only [described?, symbol?, place, modifySymbol, Array.getElem?_modify]
  split
  · cases t.symbols[id]? with
    | none => rfl
    | some s => rfl
  · rfl

/-- Nor does storage for several symbols. -/
@[simp]
theorem described?_places (t : SymbolTable) (storage : List (SymbolId × Nat)) (id : SymbolId) :
    (storage.foldl place t).described? id = t.described? id := by
  induction storage generalizing t with
  | nil => rfl
  | cons entry storage ih => rw [List.foldl_cons, ih, described?_place]

/-- Storage gives its own symbol a label, and no other. -/
theorem label?_place (t : SymbolTable) (entry : SymbolId × Nat) (id : SymbolId) :
    (t.place entry).label? id =
      if entry.1 = id then (t.described? id).map (·.storageLabel entry.2) else t.label? id := by
  simp only [label?, described?, symbol?, place, modifySymbol, Array.getElem?_modify]
  split
  · cases t.symbols[id]? with
    | none => rfl
    | some s => rfl
  · rfl

/-- A symbol keeps its label while others are given storage. -/
theorem label?_places_of_notMem (t : SymbolTable) (storage : List (SymbolId × Nat)) (id : SymbolId)
    (h : id ∉ storage.map Prod.fst) : (storage.foldl place t).label? id = t.label? id := by
  induction storage generalizing t with
  | nil => rfl
  | cons entry storage ih =>
    rw [List.map_cons, List.mem_cons, not_or] at h
    rw [List.foldl_cons, ih _ h.2, label?_place, if_neg (Ne.symm h.1)]

/-- A symbol that is given storage once has the label of that storage in the end. -/
theorem label?_places_of_mem (t : SymbolTable) (storage : List (SymbolId × Nat))
    (nodup : (storage.map Prod.fst).Nodup) {id : SymbolId} {number : Nat}
    (h : (id, number) ∈ storage) :
    (storage.foldl place t).label? id = (t.described? id).map (·.storageLabel number) := by
  induction storage generalizing t with
  | nil => cases h
  | cons entry storage ih =>
    rw [List.map_cons, List.nodup_cons] at nodup
    rw [List.foldl_cons]
    rcases List.mem_cons.1 h with rfl | later
    · rw [label?_places_of_notMem _ _ _ nodup.1, label?_place, if_pos rfl]
    · rw [ih _ nodup.2 later, described?_place]

end SymbolTable

/-- The data after literals have been added. -/
def addLiterals (data : Catalogue ReadOnlyBlock) (literals : List (Nat × String)) :
    Catalogue ReadOnlyBlock :=
  literals.foldl (fun data entry => data.insert (literalLabel entry.1) (literalBlock entry.2)) data

/-- The data after symbols have been given storage. -/
def addStorage (describe : SymbolId → Option Symbol) (data : Catalogue StaticBlock)
    (storage : List (SymbolId × Nat)) : Catalogue StaticBlock :=
  storage.foldl (fun data entry =>
    match describe entry.1 with
    | some s => data.insert (s.storageLabel entry.2) s.storageBlock
    | none => data) data

end MiniC
