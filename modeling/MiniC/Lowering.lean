import MiniC.EmitError
import MiniC.Program
import MiniC.Stmt
import MiniC.SymbolTable
import MiniC.Text.Utf8

/-!
# Lowering trees to code

Lowering walks a checked tree and appends instructions. Statements leave the stack as it was, apart from
expression statements, whose value stays; expressions push their value; the address of an expression is
its code without the load at its end.

All names that lowering makes carry a number from one counter, so no two of them are the same. What has
been emitted before a failure stays.

The counter and the size of a literal are natural numbers here. Words of 32 bits can stand for them as long as
a tree draws fewer than 2³² numbers and none of its literals has 2³² - 1 bytes or more: beyond that a counter of
32 bits would come round to names that are taken, and a size of 32 bits would leave the end of a literal out.
-/

namespace MiniC

/-- The code and data emitted so far. -/
structure Emission where
  /-- The symbols, which carry the labels of their storage. -/
  table : SymbolTable
  code : Array Instruction := #[]
  readOnly : Catalogue ReadOnlyBlock := .empty
  static : Catalogue StaticBlock := .empty
  /-- The number for the next name. It is assumed to stay below 2³². -/
  nextId : Nat := 0

/-- A step of lowering. -/
abbrev Lowering := EStateM EmitError Emission

namespace Emission

/-- The finished program. -/
def program (e : Emission) : Program :=
  { code := e.code.toList, readOnly := e.readOnly, static := e.static }

end Emission

namespace Lowering

/-- Takes the next number. -/
def freshId : Lowering Nat :=
  fun e => .ok e.nextId { e with nextId := e.nextId + 1 }

/-- Appends an instruction. -/
def emit (i : Instruction) : Lowering Unit :=
  fun e => .ok () { e with code := e.code.push i }

/-- Appends an instruction without operand. -/
def emitOp (op : OpCode) : Lowering Unit :=
  emit ⟨op, .none⟩

/-- Takes the last instruction away. -/
def retract : Lowering (Option Instruction) :=
  fun e => .ok e.code.back? { e with code := e.code.pop }

/-- Takes the last instruction away if it is a load: what is left computes the address of the value that
would have been loaded. -/
def dropTrailingLoad : Lowering Unit :=
  fun e =>
    match e.code.back? with
    | some ⟨.load, _⟩ => .ok () { e with code := e.code.pop }
    | _ => .ok () e

/-- A layout, or its failure as a failure of lowering. -/
def liftLayout {α : Type} : Except LayoutError α → Lowering α
  | .ok a => pure a
  | .error cause => throw (.layout cause)

/-- The letter that the storage of a symbol is labelled with. -/
def storageLetter (s : Symbol) : Lowering String :=
  match s.kind with
  | .variable => pure "v"
  | .parameter => pure "p"
  | .function | .typeName => throw (.unimplemented (.storage s.kind s.name))

/-- Gives a symbol storage under a label of its own. -/
def allocate (id : SymbolId) : Lowering String := do
  match (← get).table.symbol? id with
  | none => throw (.unresolvedSymbol s!"#{id}")
  | some s => do
    let letter ← storageLetter s
    let size ← liftLayout s.ty.size
    let alignment ← liftLayout s.ty.alignment
    let number ← freshId
    let label := s!"{letter}_{s.name}_{number}"
    modify fun e =>
      { e with
        static := e.static.insert label ⟨size, alignment⟩
        table := e.table.modifySymbol id fun s => { s with label := some label } }
    pure label

/-- Stores a literal under a label of its own. It ends with a zero byte, which counts for its size; literals are
assumed to have fewer than 2³² - 1 bytes without it. -/
def addLiteral (value : String) : Lowering String := do
  let number ← freshId
  let label := s!"__str_lit_{number}"
  modify fun e =>
    { e with readOnly := e.readOnly.insert label ⟨(Text.utf8 value).length + 1, 1, value⟩ }
  pure label

/-- The label of the storage of a name. -/
def storageLabel (symbol : Option SymbolId) (name : String) : Lowering String := do
  let e ← get
  match (symbol.bind e.table.symbol?).bind Symbol.label with
  | some label => pure label
  | none => throw (.unresolvedSymbol name)

/-- The type that an expression is annotated with. -/
def typeOf (e : Expr) : Lowering Ty :=
  match e.ty? with
  | some ty => pure ty
  | none => throw (.unresolvedSymbol e.text)

/-- The instruction of an operator between operands. -/
def binaryOpCode : BinaryOp → OpCode
  | .add => .add
  | .sub => .sub
  | .mul => .mul
  | .div => .div
  | .mod => .mod
  | .bitAnd => .bitAnd
  | .bitOr => .bitOr
  | .bitXor => .bitXor
  | .shiftLeft => .bitShLeft
  | .shiftRight => .bitShRight
  | .and => .logicAnd
  | .or => .logicOr
  | .eq => .equals
  | .notEq => .notEquals
  | .lt => .lt
  | .gt => .gt
  | .ltEq => .ltEq
  | .gtEq => .gtEq

/-- The instruction of an operator before its operand. A plus does nothing. -/
def unaryOpCode? : UnaryOp → Option OpCode
  | .plus => none
  | .neg => some .neg
  | .bitNot => some .bitNot
  | .not => some .logicNot

/-- The code of a literal. -/
def lowerLiteral : Literal → Lowering Unit
  | .int value => emit (.pushInt value)
  | .bool value => emit (.pushInt (if value then 1 else 0))
  | .char value => emit (.pushInt (Int32.ofNat value.toNat))
  | .string value => do
    let label ← addLiteral value
    emit (.pushLabel label)
  | .float _ => throw (.unimplemented .floatLiteral)

/-- The code that pushes the value of an expression. An element of an array that is itself an array has
no value but its address. -/
def lowerExpr : Expr → Lowering Unit
  | .literal value _ => lowerLiteral value
  | .name name symbol _ => do
    let label ← storageLabel symbol name
    emit (.pushLabel label)
    emitOp .load
  | .unary op operand _ => do
    lowerExpr operand
    match unaryOpCode? op with
    | some op => emitOp op
    | none => pure ()
  | .binary op left right _ => do
    lowerExpr left
    lowerExpr right
    emitOp (binaryOpCode op)
  | .index base position ty => do
    let element ← typeOf (.index base position ty)
    let stride ← liftLayout element.size
    lowerExpr base
    dropTrailingLoad
    lowerExpr position
    emit (.pushInt (Int32.ofNat stride))
    emitOp .mul
    emitOp .add
    if element.isUnqualified then emitOp .load else pure ()
  | .call .. => throw (.unimplemented .call)

/-- The code that pushes the address of an expression. -/
def lowerAddress : Expr → Lowering Unit
  | .name name symbol _ => do
    let label ← storageLabel symbol name
    emit (.pushLabel label)
  | .index base position ty => do
    lowerExpr (.index base position ty)
    dropTrailingLoad
  | target => throw (.unimplemented (.storeInto target.text))

/-- The instruction that prints a value of a type. -/
def printOpCode (ty : Ty) : Lowering OpCode :=
  match ty with
  | ⟨.int, []⟩ | ⟨.bool, []⟩ => pure .printInt
  | ⟨.string, []⟩ => pure .printStr
  | ty => throw (.unimplemented (.print ty))

/-- The instruction that reads a value of a type. -/
def inputOpCode (ty : Ty) : Lowering OpCode :=
  match ty with
  | ⟨.int, []⟩ => pure .inputInt
  | ⟨.string, []⟩ => pure .inputStr
  | ty => throw (.unimplemented (.input ty))

/-- The code of declared names: storage for each, and a store for each initial value. -/
def lowerDeclarators : List Declarator → Lowering Unit
  | [] => pure ()
  | d :: ds => do
    match d.symbol with
    | none => throw (.unresolvedSymbol d.name)
    | some id => do
      let label ← allocate id
      match d.init with
      | none => pure ()
      | some init => do
        emit (.pushLabel label)
        lowerExpr init
        emitOp .store
      lowerDeclarators ds

mutual

/-- The code of a statement. A `for` loop tests its condition in two places: before the first turn, where
success leads straight into the body, and before every later one. -/
def lowerStmt : Stmt → Lowering Unit
  | .block body => lowerBlock body
  | .ifThen condition body => do
    let id ← freshId
    emit (.mark s!"IF_{id}")
    lowerExpr condition
    emit (.branchIfZero s!"ENDIF_{id}")
    lowerBlock body
    emit (.jump s!"ENDIF_{id}")
    emit (.mark s!"ENDIF_{id}")
  | .ifElse condition body otherwise => do
    let id ← freshId
    emit (.mark s!"IF_{id}")
    lowerExpr condition
    emit (.branchIfZero s!"ELSE_{id}")
    lowerBlock body
    emit (.jump s!"ENDIF_{id}")
    emit (.mark s!"ELSE_{id}")
    lowerStmt otherwise
    emit (.jump s!"ENDIF_{id}")
    emit (.mark s!"ENDIF_{id}")
  | .whileLoop condition body => do
    let id ← freshId
    emit (.mark s!"WHILE_{id}")
    lowerExpr condition
    emit (.branchIfZero s!"ENDWHILE_{id}")
    lowerBlock body
    emit (.jump s!"WHILE_{id}")
    emit (.mark s!"ENDWHILE_{id}")
  | .doWhile body condition => do
    let id ← freshId
    emit (.mark s!"WHILE_{id}")
    lowerBlock body
    lowerExpr condition
    emit (.branchIfZero s!"ENDWHILE_{id}")
    emit (.jump s!"WHILE_{id}")
    emit (.mark s!"ENDWHILE_{id}")
  | .forLoop init condition step body => do
    let id ← freshId
    emit (.mark s!"FOR_{id}")
    lowerStmt init
    lowerExpr condition
    emit (.branchIfNotZero s!"BODYFOR_{id}")
    emit (.mark s!"CHECKFOR_{id}")
    lowerExpr condition
    emit (.branchIfZero s!"ENDFOR_{id}")
    emit (.mark s!"BODYFOR_{id}")
    lowerBlock body
    lowerStmt step
    emit (.jump s!"CHECKFOR_{id}")
    emit (.mark s!"ENDFOR_{id}")
  | .function .. => throw (.unimplemented .function)
  | .declare _ declarators => lowerDeclarators declarators
  | .assign target value => do
    lowerAddress target
    lowerExpr value
    emitOp .store
  | .eval value => lowerExpr value
  | .print value => do
    lowerExpr value
    let ty ← typeOf value
    let op ← printOpCode ty
    emitOp op
  | .input target => do
    lowerAddress target
    let ty ← typeOf target
    let op ← inputOpCode ty
    emitOp op
    emitOp .store
  | .breakLoop => throw (.unimplemented .breakLoop)
  | .continueLoop => throw (.unimplemented .continueLoop)
  | .returnValue _ => throw (.unimplemented .returnValue)

/-- The code of a block. -/
def lowerBlock : Block → Lowering Unit
  | ⟨statements, _⟩ => lowerStmts statements

/-- The code of statements, one after another. -/
def lowerStmts : List Stmt → Lowering Unit
  | [] => pure ()
  | statement :: rest => do
    lowerStmt statement
    lowerStmts rest

end

end Lowering

/-- The program of a block over the symbols of a table, and the table with the labels of the storage, as
far as lowering came. -/
def Block.lower (block : Block) (table : SymbolTable) : Except EmitError Program × SymbolTable :=
  match Lowering.lowerBlock block { table } with
  | .ok () e => (.ok e.program, e.table)
  | .error cause e => (.error cause, e.table)

end MiniC
