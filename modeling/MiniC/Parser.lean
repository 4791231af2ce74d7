import MiniC.Token

/-!
# Reading tokens

A parser reads from a list of tokens and leaves the rest of it, also when it fails: an error says what
was found where something else was expected, and reading may go on from there. The list holds neither
comments nor the end of the source (`Token.readable`); the end of the source is the end of the list.
-/

namespace MiniC

/-- What a parser looks for at some point. -/
inductive Expectation where
  | punct (mark : Punct)
  | keyword (word : Keyword)
  | identifier
  | expression
  | arraySize
  | assignment
  | declarationOrAssignment
  /-- The closing brace of a block, or a statement of it. -/
  | block
  deriving DecidableEq

/-- An expectation as messages name it. -/
def Expectation.text : Expectation → String
  | .punct mark => "'" ++ String.ofList mark.spelling ++ "'"
  | .keyword word => "'" ++ word.spelling ++ "'"
  | .identifier => "identifier"
  | .expression => "expression"
  | .arraySize => "array size"
  | .assignment => "assignment"
  | .declarationOrAssignment => "declaration or assignment"
  | .block => "block"

/-- Why tokens do not form a program. -/
inductive ParseError where
  /-- There is a token, but not one that was expected. -/
  | unexpectedToken (expected : Expectation) (found : Token)
  /-- The source ends where something was expected. -/
  | unexpectedEnd (expected : Expectation)
  /-- An array needs a positive length. The line is that of the opening bracket. -/
  | invalidArraySize (size : Int) (line : Nat)
  deriving DecidableEq

/-- The message for tokens that do not form a program. -/
def ParseError.message : ParseError → String
  | .unexpectedToken expected ⟨kind, _, line, column⟩ =>
    s!"expected {expected.text}, got {kind.text} at line {line}, column {column}"
  | .unexpectedEnd expected => s!"unexpected end of file while parsing {expected.text}"
  | .invalidArraySize size line => s!"invalid array size {size} at line {line}"

/-- Whether a token is a comment. -/
def Token.isComment (t : Token) : Bool :=
  match t.kind with
  | .comment _ => true
  | _ => false

/-- The tokens that are read: those before the first end of the source, without the comments. -/
def Token.readable (tokens : List Token) : List Token :=
  (tokens.takeWhile fun t => t.kind ≠ .endOfFile).filter fun t => !t.isComment

/-- A reader of tokens. Its state is the list of tokens still to be read. -/
abbrev Parser := EStateM ParseError (List Token)

namespace Parser

/-- The next token, which stays where it is. -/
def head? : Parser (Option Token) :=
  fun tokens => .ok tokens.head? tokens

/-- The kind of the next token, which stays where it is. -/
def peek? : Parser (Option Token.Kind) :=
  fun tokens => .ok (tokens.head?.map Token.kind) tokens

/-- Reports that the next token, or the end, is not what was expected. -/
def fail {α : Type} (expected : Expectation) : Parser α :=
  fun tokens =>
    match tokens with
    | [] => .error (.unexpectedEnd expected) []
    | token :: rest => .error (.unexpectedToken expected token) (token :: rest)

/-- Takes the next token, whatever it is. -/
def next (expected : Expectation) : Parser Token :=
  fun tokens =>
    match tokens with
    | [] => .error (.unexpectedEnd expected) []
    | token :: rest => .ok token rest

/-- Drops the next token, if there is one. -/
def skip : Parser Unit :=
  fun tokens => .ok () tokens.tail

/-- Takes the next token if it is of the given kind, and says whether it is. -/
def accept (kind : Token.Kind) : Parser Bool :=
  fun tokens =>
    match tokens with
    | [] => .ok false []
    | token :: rest => if token.kind = kind then .ok true rest else .ok false (token :: rest)

/-- Takes a mark. -/
def punct (mark : Punct) : Parser Unit := do
  unless ← accept (.punct mark) do fail (.punct mark)

/-- Takes a keyword. -/
def keyword (word : Keyword) : Parser Unit := do
  unless ← accept (.keyword word) do fail (.keyword word)

/-- Takes a name. -/
def identifier : Parser String := do
  match ← peek? with
  | some (.identifier name) => skip; pure name
  | _ => fail .identifier

/-- The value that a parser finds at the front of a list of tokens. -/
def value {α : Type} (p : Parser α) (tokens : List Token) : Except ParseError α :=
  match p tokens with
  | .ok a _ => .ok a
  | .error e _ => .error e

end Parser

end MiniC
