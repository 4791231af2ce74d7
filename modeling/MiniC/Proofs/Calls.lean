import MiniC.Proofs.Progress
import MiniC.Stmt.Parser

/-!
# Calls between parsers

The readers of expressions, of lists and of statements call themselves and each other, and are given a depth to do so.
To say how deeply their calls really nest, every call is a value here (`Call`), and what a call does by itself is
written down without recursion: the calls that it makes are answered by whatever parsers are given (`Answers.perform`).
If calls are answered by performing them, down to a depth, no call is nested more deeply than that unless an answer from
below it is used, which is arbitrary (`Answers.nested`).

The readers do what `Answers.perform` says (`Call.readerAt_succ`), at every depth.
-/

namespace MiniC

/-- The calls of readers that call themselves or each other, with the type of what is read. -/
inductive Call : Type → Type where
  | expression (strength : Nat) : Call Expr
  | operand : Call Expr
  | operators (strength : Nat) (left : Expr) : Call Expr
  | arguments : Call (List Expr)
  | argumentList : Call (List Expr)
  /-- Looking for a name after qualifiers. -/
  | nameFollows : Call Bool
  | qualifiers : Call (List Qualifier)
  | declarators : Call (List Declarator)
  | parameters : Call (List Parameter)
  | statement : Call Stmt
  /-- An `if` statement. -/
  | conditional : Call Stmt
  | block : Call Block
  /-- The statements of a block and its closing brace. -/
  | untilBrace : Call (List Stmt)
  /-- The statements up to the end of the source. -/
  | statements : Call (List Stmt)

/-- A parser for every call. -/
structure Answers where
  read : {α : Type} → Call α → Parser α

namespace Answers

variable (answers : Answers)

/-! ## Expressions -/

/-- The operand after a mark, if the mark is an operator that stands before its operand. -/
def prefixed (mark : Punct) (token : Token) : Parser Expr :=
  match Expr.prefixOperator? mark with
  | some (op, strength) => do
    let operand ← answers.read (.expression strength)
    pure (.unary op operand)
  | none => throw (.unexpectedToken .expression token)

def operand : Parser Expr := do
  let token ← Parser.next .expression
  match token.kind with
  | .integer value => pure (.literal (.int value))
  | .float value => pure (.literal (.float value))
  | .string value => pure (.literal (.string value))
  | .char value => pure (.literal (.char value))
  | .keyword .trueK => pure (.literal (.bool true))
  | .keyword .falseK => pure (.literal (.bool false))
  | .identifier spelling => pure (.name spelling)
  | .punct .leftParen => do
    let inner ← answers.read (.expression 0)
    Parser.punct .rightParen
    pure inner
  | .punct mark => answers.prefixed mark token
  | _ => throw (.unexpectedToken .expression token)

def operators (strength : Nat) (left : Expr) : Parser Expr := do
  match ← Parser.peek? with
  | some (.punct .leftBracket) =>
    if Expr.indexStrength < strength then pure left
    else do
      Parser.skip
      let position ← answers.read (.expression 0)
      Parser.punct .rightBracket
      answers.read (.operators strength (.index left position))
  | some (.punct .leftParen) =>
    if Expr.callStrength < strength then pure left
    else do
      Parser.skip
      let arguments ← answers.read .arguments
      answers.read (.operators strength (.call left arguments))
  | some (.punct mark) =>
    match Expr.binaryOperator? mark with
    | none => pure left
    | some (op, own) =>
      if own < strength then pure left
      else do
        Parser.skip
        let right ← answers.read (.expression (own + 1))
        answers.read (.operators strength (.binary op left right))
  | _ => pure left

/-! ## Types and declared names -/

def nameFollows : Parser Bool :=
  fun tokens =>
    match tokens with
    | ⟨.identifier _, _, _⟩ :: _ => .ok true tokens
    | ⟨.punct .caret, _, _⟩ :: rest => Parser.ahead (answers.read .nameFollows) rest tokens
    | ⟨.punct .leftBracket, _, _⟩ :: ⟨.integer _, _, _⟩ :: ⟨.punct .rightBracket, _, _⟩ :: rest =>
      Parser.ahead (answers.read .nameFollows) rest tokens
    | ⟨.punct .leftBracket, _, _⟩ :: ⟨.punct .minus, _, _⟩ :: ⟨.integer _, _, _⟩ ::
        ⟨.punct .rightBracket, _, _⟩ :: rest =>
      Parser.ahead (answers.read .nameFollows) rest tokens
    | _ => .ok false tokens

/-- Whether a declaration comes next. -/
def declarationAhead : Parser Bool :=
  fun tokens =>
    match tokens with
    | ⟨.identifier _, _, _⟩ :: rest => Parser.ahead (answers.read .nameFollows) rest tokens
    | _ => .ok false tokens

def qualifiers : Parser (List Qualifier) := do
  match ← Parser.head? with
  | some ⟨.punct .caret, _, _⟩ => do
    Parser.skip
    let inner ← answers.read .qualifiers
    pure (.pointer :: inner)
  | some ⟨.punct .leftBracket, _, position⟩ => do
    Parser.skip
    let length ← TypeExpr.readLength position.line
    let inner ← answers.read .qualifiers
    pure (.array length :: inner)
  | _ => pure []

def typeExpr : Parser TypeExpr := do
  let name ← Parser.identifier
  let qualifiers ← answers.read .qualifiers
  pure ⟨name, qualifiers⟩

def declarator : Parser Declarator := do
  let name ← Parser.identifier
  if ← Parser.accept (.punct .assign) then do
    let value ← answers.read (.expression 0)
    pure { name, init := some value }
  else pure { name }

def parameter : Parser Parameter := do
  let name ← Parser.identifier
  Parser.punct .colon
  let ty ← answers.typeExpr
  pure { name, ty }

def parameterList : Parser (List Parameter) := do
  if ← Parser.accept (.punct .rightParen) then pure []
  else do
    let parameters ← answers.read .parameters
    Parser.punct .rightParen
    pure parameters

/-! ## Statements -/

def declaration : Parser Stmt := do
  let ty ← answers.typeExpr
  let declarators ← answers.read .declarators
  pure (.declare ty declarators)

def assignment : Parser Stmt := do
  let target ← answers.read (.expression 0)
  if ← Parser.accept (.punct .assign) then do
    let value ← answers.read (.expression 0)
    pure (.assign target value)
  else pure (.eval target)

def simple : Parser Stmt := do
  if ← answers.declarationAhead then answers.declaration else answers.assignment

def condition : Parser Expr := do
  Parser.punct .leftParen
  let condition ← answers.read (.expression 0)
  Parser.punct .rightParen
  pure condition

def forInit : Parser Stmt := do
  match ← answers.simple with
  | .declare ty declarators => pure (.declare ty declarators)
  | .assign target value => pure (.assign target value)
  | _ => Parser.fail .declarationOrAssignment

def forStep : Parser Stmt := do
  match ← answers.simple with
  | .assign target value => pure (.assign target value)
  | _ => Parser.fail .assignment

def simpleStatement : Parser Stmt := do
  let statement ← answers.simple
  Parser.punct .semicolon
  pure statement

/-- An expression and the semicolon that ends the statement. -/
def ended (statement : Expr → Stmt) : Parser Stmt := do
  let value ← answers.read (.expression 0)
  Parser.punct .semicolon
  pure (statement value)

/-- A `while` loop after its keyword, as the loops and the function below. -/
def whileLoop : Parser Stmt := do
  let condition ← answers.condition
  let body ← answers.read .block
  pure (.whileLoop condition body)

def doWhile : Parser Stmt := do
  let body ← answers.read .block
  Parser.keyword .whileK
  let condition ← answers.condition
  Parser.punct .semicolon
  pure (.doWhile body condition)

def forLoop : Parser Stmt := do
  Parser.punct .leftParen
  let init ← answers.forInit
  Parser.punct .semicolon
  let condition ← answers.read (.expression 0)
  Parser.punct .semicolon
  let step ← answers.forStep
  Parser.punct .rightParen
  let body ← answers.read .block
  pure (.forLoop init condition step body)

def function : Parser Stmt := do
  let name ← Parser.identifier
  Parser.punct .leftParen
  let parameters ← answers.parameterList
  let result ←
    if ← Parser.accept (.punct .arrow) then answers.typeExpr else pure ⟨Primitive.void.name, []⟩
  let body ← answers.read .block
  pure (.function name parameters result body)

def returnValue : Parser Stmt := do
  match ← Parser.peek? with
  | some (.punct .semicolon) => do
    Parser.skip
    pure (.returnValue none)
  | _ => answers.ended fun value => .returnValue (some value)

def statement : Parser Stmt := do
  match ← Parser.peek? with
  | some (.punct .leftBrace) => do
    let body ← answers.read .block
    pure (.block body)
  | some (.keyword .ifK) => answers.read .conditional
  | some (.keyword .whileK) => do
    Parser.skip
    answers.whileLoop
  | some (.keyword .doK) => do
    Parser.skip
    answers.doWhile
  | some (.keyword .forK) => do
    Parser.skip
    answers.forLoop
  | some (.keyword .fnK) => do
    Parser.skip
    answers.function
  | some (.keyword .printK) => do
    Parser.skip
    answers.ended .print
  | some (.keyword .inputK) => do
    Parser.skip
    answers.ended .input
  | some (.keyword .breakK) => do
    Parser.skip
    Parser.punct .semicolon
    pure .breakLoop
  | some (.keyword .continueK) => do
    Parser.skip
    Parser.punct .semicolon
    pure .continueLoop
  | some (.keyword .returnK) => do
    Parser.skip
    answers.returnValue
  | _ => answers.simpleStatement

/-- What an `else` takes: another `if` or a block. -/
def alternative (condition : Expr) (body : Block) : Parser Stmt := do
  match ← Parser.peek? with
  | some (.keyword .ifK) => do
    let otherwise ← answers.read .conditional
    pure (.ifElse condition body otherwise)
  | _ => do
    let otherwise ← answers.read .block
    pure (.ifElse condition body (.block otherwise))

def conditional : Parser Stmt := do
  Parser.keyword .ifK
  let condition ← answers.condition
  let body ← answers.read .block
  if ← Parser.accept (.keyword .elseK) then answers.alternative condition body
  else pure (.ifThen condition body)

def block : Parser Block := do
  Parser.punct .leftBrace
  let statements ← answers.read .untilBrace
  pure { statements }

def untilBrace : Parser (List Stmt) := do
  match ← Parser.peek? with
  | none => Parser.fail .block
  | some (.punct .rightBrace) => do
    Parser.skip
    pure []
  | some _ => do
    let statement ← answers.read .statement
    let statements ← answers.read .untilBrace
    pure (statement :: statements)

def statements : Parser (List Stmt) := do
  match ← Parser.peek? with
  | none => pure []
  | some _ => do
    let statement ← answers.read .statement
    let statements ← answers.read .statements
    pure (statement :: statements)

/-- A whole source. -/
def program : Parser Block := do
  let statements ← answers.read .statements
  pure (Block.ofStatements statements)

/-- What a call does by itself. The calls that it makes are answered as given. -/
def perform : {α : Type} → Call α → Parser α
  | _, .expression strength => do
    let left ← answers.read .operand
    answers.read (.operators strength left)
  | _, .operand => answers.operand
  | _, .operators strength left => answers.operators strength left
  | _, .arguments => do
    if ← Parser.accept (.punct .rightParen) then pure [] else answers.read .argumentList
  | _, .argumentList =>
    Parser.listTurn (answers.read (.expression 0)) (answers.read .argumentList) (Parser.punct .rightParen)
  | _, .nameFollows => answers.nameFollows
  | _, .qualifiers => answers.qualifiers
  | _, .declarators => Parser.listTurn answers.declarator (answers.read .declarators) (pure ())
  | _, .parameters => Parser.listTurn answers.parameter (answers.read .parameters) (pure ())
  | _, .statement => answers.statement
  | _, .conditional => answers.conditional
  | _, .block => answers.block
  | _, .untilBrace => answers.untilBrace
  | _, .statements => answers.statements

/-- Calls are answered by performing them, nested to the given depth. Those below it are answered as given. -/
def nested : (depth : Nat) → Answers
  | 0 => answers
  | depth + 1 => ⟨(nested depth).perform⟩

end Answers

namespace Call

variable {α : Type}

/-- The group of a call. A call makes calls of its own group, which have one less of its depth, and of lower groups,
which have a depth of their own. -/
def level : Call α → Nat
  | .expression _ | .operand | .operators _ _ | .arguments | .argumentList => 0
  | .nameFollows | .qualifiers => 1
  | .declarators | .parameters => 2
  | .statement | .conditional | .block | .untilBrace | .statements => 3

/-- Before it has taken a token, a call only makes calls of lower rank. -/
def rank : Call α → Nat
  | .operand | .operators _ _ | .nameFollows | .qualifiers | .declarators | .parameters | .conditional | .block => 0
  | .expression _ => 1
  | .argumentList | .statement => 2
  | .arguments | .untilBrace | .statements => 3

/-- How many tokens a call takes at least if it succeeds. -/
def least : Call α → Nat
  | .operators _ _ | .nameFollows | .qualifiers | .statements => 0
  | .expression _ | .operand | .arguments | .argumentList | .declarators | .parameters | .statement | .conditional
  | .block | .untilBrace => 1

/-- The reader of a call, with the given depth. Looking for a name needs none. -/
def readerAt (depth : Nat) : {α : Type} → Call α → Parser α
  | _, .expression strength => Expr.readAt depth strength
  | _, .operand => Expr.readOperand depth
  | _, .operators strength left => Expr.readOperators depth strength left
  | _, .arguments => Expr.readArguments depth
  | _, .argumentList => Expr.readArgumentList depth
  | _, .nameFollows => fun tokens => .ok (Stmt.nameFollows tokens) tokens
  | _, .qualifiers => TypeExpr.readQualifiers depth
  | _, .declarators => Declarator.readList depth
  | _, .parameters => Parameter.readList depth
  | _, .statement => Stmt.read depth
  | _, .conditional => Stmt.readIf depth
  | _, .block => Stmt.readBlock depth
  | _, .untilBrace => Stmt.readUntilBrace depth
  | _, .statements => Stmt.readAll depth

/-- Whether a call reads a plain list, so that its depth is a number of tokens. -/
def isList (call : Call α) : Bool :=
  call.level = 1 || call.level = 2

/-- The depth that suffices a call for a number of tokens. -/
def enough (call : Call α) (count : Nat) : Nat :=
  if call.isList then count else 4 * count + call.rank + 1

/-- The depth that a call is given by a caller of another group. -/
def ownDepth (call : Call α) (tokens : List Token) : Nat :=
  if call.isList then tokens.length else Expr.depthFor tokens

end Call

/-- How the readers answer the calls that a call of the given group makes, of whose depth the given one is left. -/
def Answers.within (level depth : Nat) : Answers where
  read call := fun tokens => call.readerAt (if call.level = level then depth else call.ownDepth tokens) tokens

/-! ## The readers as answers -/

namespace Answers

variable {depth : Nat}

/-- Looking for a name does not use its depth: the reader answers alike at every one. -/
theorem within_nameFollows : (within 1 depth).nameFollows = Call.nameFollows.readerAt depth := by
  funext tokens
  show _ = EStateM.Result.ok (Stmt.nameFollows tokens) tokens
  unfold nameFollows
  split
  case h_5 => simp only [Stmt.nameFollows, *]
  all_goals rfl

/-- Looking for a declaration finds what the parser's own look-ahead finds, at every depth. -/
theorem within_declarationAhead (tokens : List Token) :
    (within 3 depth).declarationAhead tokens = .ok (Stmt.startsDeclaration tokens) tokens := by
  unfold declarationAhead
  split
  case h_2 => simp only [Stmt.startsDeclaration, *]
  case h_1 => rfl

/-- A simple statement is read without the reader of statements. -/
theorem within_simple : (within 3 depth).simple = Stmt.simpleParser := by
  funext tokens
  unfold simple
  rw [bind_of_ok (within_declarationAhead tokens)]
  unfold Stmt.simpleParser
  cases Stmt.startsDeclaration tokens with
  | true => rfl
  | false => rfl

end Answers

/-- A reader with some depth does what its call does by itself. -/
theorem Call.readerAt_succ {α : Type} (call : Call α) (depth : Nat) :
    call.readerAt (depth + 1) = (Answers.within call.level depth).perform call := by
  cases call with
  | argumentList => exact (Parser.listTurn_eq _ _ _).symm
  | nameFollows => exact Answers.within_nameFollows.symm
  | declarators => exact (Parser.listTurn_eq Declarator.parser (Declarator.readList depth) (pure ())).symm
  | parameters => exact (Parser.listTurn_eq Parameter.parser (Parameter.readList depth) (pure ())).symm
  | statement =>
    show Stmt.read (depth + 1) = (Answers.within 3 depth).statement
    unfold Answers.statement Answers.simpleStatement Answers.forLoop Answers.forInit Answers.forStep
    rw [Answers.within_simple]
    rfl
  | _ => rfl

end MiniC
