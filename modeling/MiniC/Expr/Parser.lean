import MiniC.Expr
import MiniC.Parser

/-!
# Reading expressions

Operators bind with a strength, and `Expr.readAt` reads as much as binds at least as strongly as it is
told. An operator between operands is read when it binds strongly enough, and its right operand must
bind more strongly than the operator itself, so that operators of one strength group to the left.

The functions call each other only after a token has been taken, apart from a bounded number of steps,
so the number of tokens bounds how deeply the calls nest. `depth` is that bound: `Expr.parser` starts
with more of it than any list of tokens can use up.
-/

namespace MiniC.Expr

/-- The operator that a mark is before an operand, and how strongly it binds. -/
def prefixOperator? : Punct → Option (UnaryOp × Nat)
  | .plus => some (.plus, 90)
  | .minus => some (.neg, 90)
  | .tilde => some (.bitNot, 90)
  | .not => some (.not, 80)
  | _ => none

/-- The operator that a mark is between operands, and how strongly it binds. Its right operand binds
more strongly by one. -/
def binaryOperator? : Punct → Option (BinaryOp × Nat)
  | .star => some (.mul, 60)
  | .slash => some (.div, 60)
  | .percent => some (.mod, 60)
  | .ampersand => some (.bitAnd, 60)
  | .shiftLeft => some (.shiftLeft, 60)
  | .shiftRight => some (.shiftRight, 60)
  | .plus => some (.add, 50)
  | .minus => some (.sub, 50)
  | .pipe => some (.bitOr, 50)
  | .tilde => some (.bitXor, 50)
  | .eq => some (.eq, 30)
  | .notEq => some (.notEq, 30)
  | .lt => some (.lt, 30)
  | .gt => some (.gt, 30)
  | .ltEq => some (.ltEq, 30)
  | .gtEq => some (.gtEq, 30)
  | .and => some (.and, 20)
  | .or => some (.or, 10)
  | _ => none

/-- How strongly the bracket of an index binds to what stands before it. -/
def indexStrength : Nat := 110

/-- How strongly the parenthesis of a call binds to what stands before it. -/
def callStrength : Nat := 100

mutual

/-- Reads an expression whose operators bind at least as strongly as `strength`. -/
def readAt : (depth : Nat) → (strength : Nat) → Parser Expr
  | 0, _ => Parser.fail .expression
  | depth + 1, strength => do
    let left ← readOperand depth
    readOperators depth strength left

/-- Reads a literal, a name, an expression in parentheses, or an operator with its operand. -/
def readOperand : (depth : Nat) → Parser Expr
  | 0 => Parser.fail .expression
  | depth + 1 => do
    let token ← Parser.next .expression
    match token.kind with
    | .integer value => pure (.literal (.int value))
    | .float value => pure (.literal (.float value))
    | .string value => pure (.literal (.string value))
    | .char value => pure (.literal (.char value))
    | .keyword .trueK => pure (.literal (.bool true))
    | .keyword .falseK => pure (.literal (.bool false))
    | .identifier spelling => pure (.name spelling)
    | .punct .leftParen => do
      let inner ← readAt depth 0
      Parser.punct .rightParen
      pure inner
    | .punct mark =>
      match prefixOperator? mark with
      | some (op, strength) => do
        let operand ← readAt depth strength
        pure (.unary op operand)
      | none => throw (.unexpectedToken .expression token)
    | _ => throw (.unexpectedToken .expression token)

/-- Reads the indices, calls and operators after `left` that bind at least as strongly as `strength`. -/
def readOperators : (depth : Nat) → (strength : Nat) → (left : Expr) → Parser Expr
  | 0, _, _ => Parser.fail .expression
  | depth + 1, strength, left => do
    match ← Parser.peek? with
    | some (.punct .leftBracket) =>
      if indexStrength < strength then pure left
      else do
        Parser.skip
        let position ← readAt depth 0
        Parser.punct .rightBracket
        readOperators depth strength (.index left position)
    | some (.punct .leftParen) =>
      if callStrength < strength then pure left
      else do
        Parser.skip
        let arguments ← readArguments depth
        readOperators depth strength (.call left arguments)
    | some (.punct mark) =>
      match binaryOperator? mark with
      | none => pure left
      | some (op, own) =>
        if own < strength then pure left
        else do
          Parser.skip
          let right ← readAt depth (own + 1)
          readOperators depth strength (.binary op left right)
    | _ => pure left

/-- Reads the arguments of a call and its closing parenthesis. -/
def readArguments : (depth : Nat) → Parser (List Expr)
  | 0 => Parser.fail .expression
  | depth + 1 => do
    if ← Parser.accept (.punct .rightParen) then pure [] else readArgumentList depth

/-- Reads at least one argument, and the closing parenthesis after the last. -/
def readArgumentList : (depth : Nat) → Parser (List Expr)
  | 0 => Parser.fail .expression
  | depth + 1 => do
    let argument ← readAt depth 0
    if ← Parser.accept (.punct .comma) then do
      let arguments ← readArgumentList depth
      pure (argument :: arguments)
    else do
      Parser.punct .rightParen
      pure [argument]

end

/-- The depth that suffices for a list of tokens. -/
def depthFor (tokens : List Token) : Nat :=
  4 * tokens.length + 4

/-- Reads an expression. -/
def parser : Parser Expr :=
  fun tokens => readAt (depthFor tokens) 0 tokens

/-- The expression at the front of a list of tokens; tokens after it do not matter. -/
def parse (tokens : List Token) : Except ParseError Expr :=
  parser.value (Token.readable tokens)

end MiniC.Expr
