import MiniC.Expr.Parser
import MiniC.Stmt

/-!
# Reading statements

The first token decides what a statement is, except for declarations: those start with a name, as
assignments and expressions may, and are told from them by a second name after the qualifiers of the
type (`Stmt.startsDeclaration`).

As for expressions, `depth` bounds how deeply the calls nest. The readers of plain lists (qualifiers,
parameters, declared names) take a token at each turn, so for them the number of tokens is bound enough.
-/

namespace MiniC

namespace TypeExpr

/-- Reads the length of an array and its closing bracket, after the opening bracket in the given line. -/
def readLength (line : Nat) : Parser Nat := do
  let negative ← Parser.accept (.punct .minus)
  match ← Parser.peek? with
  | some (.integer value) => do
    Parser.skip
    Parser.punct .rightBracket
    let size := if negative then -value.toInt else value.toInt
    if size ≤ 0 then throw (.invalidArraySize size line) else pure size.toNat
  | _ => Parser.fail .arraySize

/-- Reads the qualifiers after the name of a type, of which there are at most `bound`. -/
def readQualifiers : (bound : Nat) → Parser (List Qualifier)
  | 0 => pure []
  | bound + 1 => do
    match ← Parser.head? with
    | some ⟨.punct .caret, _, _⟩ => do
      Parser.skip
      let inner ← readQualifiers bound
      pure (.pointer :: inner)
    | some ⟨.punct .leftBracket, _, position⟩ => do
      Parser.skip
      let length ← readLength position.line
      let inner ← readQualifiers bound
      pure (.array length :: inner)
    | _ => pure []

/-- Reads a type. -/
def parser : Parser TypeExpr := do
  let name ← Parser.identifier
  let qualifiers ← fun tokens => readQualifiers tokens.length tokens
  pure ⟨name, qualifiers⟩

end TypeExpr

namespace Declarator

/-- Reads a declared name with its initial value. -/
def parser : Parser Declarator := do
  let name ← Parser.identifier
  if ← Parser.accept (.punct .assign) then do
    let value ← Expr.parser
    pure { name, init := some value }
  else pure { name }

/-- Reads declared names, at least one and at most `bound + 1`, with commas between them. -/
def readList : (bound : Nat) → Parser (List Declarator)
  | 0 => do
    let declarator ← parser
    pure [declarator]
  | bound + 1 => do
    let declarator ← parser
    if ← Parser.accept (.punct .comma) then do
      let declarators ← readList bound
      pure (declarator :: declarators)
    else pure [declarator]

end Declarator

namespace Parameter

/-- Reads a parameter. -/
def parser : Parser Parameter := do
  let name ← Parser.identifier
  Parser.punct .colon
  let ty ← TypeExpr.parser
  pure { name, ty }

/-- Reads parameters, at least one and at most `bound + 1`, with commas between them. -/
def readList : (bound : Nat) → Parser (List Parameter)
  | 0 => do
    let parameter ← parser
    pure [parameter]
  | bound + 1 => do
    let parameter ← parser
    if ← Parser.accept (.punct .comma) then do
      let parameters ← readList bound
      pure (parameter :: parameters)
    else pure [parameter]

/-- Reads the parameters of a function and the closing parenthesis. -/
def listParser : Parser (List Parameter) := do
  if ← Parser.accept (.punct .rightParen) then pure []
  else do
    let parameters ← fun tokens => readList tokens.length tokens
    Parser.punct .rightParen
    pure parameters

end Parameter

namespace Stmt

/-- Whether qualifiers and then a name stand at the front of a list of tokens. -/
def nameFollows : List Token → Bool
  | ⟨.identifier _, _, _⟩ :: _ => true
  | ⟨.punct .caret, _, _⟩ :: rest => nameFollows rest
  | ⟨.punct .leftBracket, _, _⟩ :: ⟨.integer _, _, _⟩ :: ⟨.punct .rightBracket, _, _⟩ :: rest =>
    nameFollows rest
  | ⟨.punct .leftBracket, _, _⟩ :: ⟨.punct .minus, _, _⟩ :: ⟨.integer _, _, _⟩ ::
      ⟨.punct .rightBracket, _, _⟩ :: rest =>
    nameFollows rest
  | _ => false

/-- Whether a declaration stands at the front of a list of tokens: a name, qualifiers, and another
name. -/
def startsDeclaration : List Token → Bool
  | ⟨.identifier _, _, _⟩ :: rest => nameFollows rest
  | _ => false

/-- Reads a declaration. -/
def declarationParser : Parser Stmt := do
  let ty ← TypeExpr.parser
  let declarators ← fun tokens => Declarator.readList tokens.length tokens
  pure (.declare ty declarators)

/-- Reads an assignment or an expression. -/
def assignmentParser : Parser Stmt := do
  let target ← Expr.parser
  if ← Parser.accept (.punct .assign) then do
    let value ← Expr.parser
    pure (.assign target value)
  else pure (.eval target)

/-- Reads a declaration, an assignment or an expression, without the semicolon after it. -/
def simpleParser : Parser Stmt :=
  fun tokens =>
    if startsDeclaration tokens then declarationParser tokens else assignmentParser tokens

/-- Reads a statement of the form that `simpleParser` reads, with its semicolon. -/
def simpleStatementParser : Parser Stmt := do
  let statement ← simpleParser
  Parser.punct .semicolon
  pure statement

/-- Reads a condition with its parentheses. -/
def conditionParser : Parser Expr := do
  Parser.punct .leftParen
  let condition ← Expr.parser
  Parser.punct .rightParen
  pure condition

/-- Reads what a `for` loop starts with: a declaration or an assignment. -/
def forInitParser : Parser Stmt := do
  match ← simpleParser with
  | .declare ty declarators => pure (.declare ty declarators)
  | .assign target value => pure (.assign target value)
  | _ => Parser.fail .declarationOrAssignment

/-- Reads what a `for` loop does after each turn: an assignment. -/
def forStepParser : Parser Stmt := do
  match ← simpleParser with
  | .assign target value => pure (.assign target value)
  | _ => Parser.fail .assignment

/-- Reads the rest of a `return` statement. -/
def returnParser : Parser Stmt := do
  match ← Parser.peek? with
  | some (.punct .semicolon) => do
    Parser.skip
    pure (.returnValue none)
  | _ => do
    let value ← Expr.parser
    Parser.punct .semicolon
    pure (.returnValue (some value))

mutual

/-- Reads a statement. -/
def read : (depth : Nat) → Parser Stmt
  | 0 => Parser.fail .expression
  | depth + 1 => do
    match ← Parser.peek? with
    | some (.punct .leftBrace) => do
      let body ← readBlock depth
      pure (.block body)
    | some (.keyword .ifK) => readIf depth
    | some (.keyword .whileK) => do
      Parser.skip
      let condition ← conditionParser
      let body ← readBlock depth
      pure (.whileLoop condition body)
    | some (.keyword .doK) => do
      Parser.skip
      let body ← readBlock depth
      Parser.keyword .whileK
      let condition ← conditionParser
      Parser.punct .semicolon
      pure (.doWhile body condition)
    | some (.keyword .forK) => do
      Parser.skip
      Parser.punct .leftParen
      let init ← forInitParser
      Parser.punct .semicolon
      let condition ← Expr.parser
      Parser.punct .semicolon
      let step ← forStepParser
      Parser.punct .rightParen
      let body ← readBlock depth
      pure (.forLoop init condition step body)
    | some (.keyword .fnK) => do
      Parser.skip
      let name ← Parser.identifier
      Parser.punct .leftParen
      let parameters ← Parameter.listParser
      let result ←
        if ← Parser.accept (.punct .arrow) then TypeExpr.parser else pure ⟨Primitive.void.name, []⟩
      let body ← readBlock depth
      pure (.function name parameters result body)
    | some (.keyword .printK) => do
      Parser.skip
      let value ← Expr.parser
      Parser.punct .semicolon
      pure (.print value)
    | some (.keyword .inputK) => do
      Parser.skip
      let target ← Expr.parser
      Parser.punct .semicolon
      pure (.input target)
    | some (.keyword .breakK) => do
      Parser.skip
      Parser.punct .semicolon
      pure .breakLoop
    | some (.keyword .continueK) => do
      Parser.skip
      Parser.punct .semicolon
      pure .continueLoop
    | some (.keyword .returnK) => do
      Parser.skip
      returnParser
    | _ => simpleStatementParser

/-- Reads an `if` statement. An `else` takes a block or another `if`. -/
def readIf : (depth : Nat) → Parser Stmt
  | 0 => Parser.fail .expression
  | depth + 1 => do
    Parser.keyword .ifK
    let condition ← conditionParser
    let body ← readBlock depth
    if ← Parser.accept (.keyword .elseK) then
      match ← Parser.peek? with
      | some (.keyword .ifK) => do
        let otherwise ← readIf depth
        pure (.ifElse condition body otherwise)
      | _ => do
        let otherwise ← readBlock depth
        pure (.ifElse condition body (.block otherwise))
    else pure (.ifThen condition body)

/-- Reads a block with its braces. -/
def readBlock : (depth : Nat) → Parser Block
  | 0 => Parser.fail .block
  | depth + 1 => do
    Parser.punct .leftBrace
    let statements ← readUntilBrace depth
    pure { statements }

/-- Reads the statements of a block and its closing brace. -/
def readUntilBrace : (depth : Nat) → Parser (List Stmt)
  | 0 => Parser.fail .block
  | depth + 1 => do
    match ← Parser.peek? with
    | none => Parser.fail .block
    | some (.punct .rightBrace) => do
      Parser.skip
      pure []
    | some _ => do
      let statement ← read depth
      let statements ← readUntilBrace depth
      pure (statement :: statements)

end

/-- Reads statements up to the end of the source. -/
def readAll : (depth : Nat) → Parser (List Stmt)
  | 0 => pure []
  | depth + 1 => do
    match ← Parser.peek? with
    | none => pure []
    | some _ => do
      let statement ← read depth
      let statements ← readAll depth
      pure (statement :: statements)

end Stmt

namespace Block

/-- The block that a source consists of. A single block is the block itself, anything else becomes the
statements of a block around it. -/
def ofStatements : List Stmt → Block
  | [.block body] => body
  | statements => { statements }

/-- Reads a whole source. -/
def parser : Parser Block := do
  let statements ← fun tokens => Stmt.readAll (Expr.depthFor tokens) tokens
  pure (ofStatements statements)

/-- The block that a list of tokens forms. -/
def parse (tokens : List Token) : Except ParseError Block :=
  parser.value (Token.readable tokens)

end Block

end MiniC
