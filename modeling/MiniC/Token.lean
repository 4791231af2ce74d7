import MiniC.Number.Single
import MiniC.Text.Quoted

/-!
# Tokens

A token is a word of the language with the text it was read from and the place where that text starts.
Keywords and marks have one spelling each; `Punct.all` and `Keyword.all` list them for the reader of
source text.
-/

namespace MiniC

/-- Words that cannot be names. -/
inductive Keyword where
  | ifK
  | elseK
  | forK
  | whileK
  | doK
  | fnK
  | continueK
  | breakK
  | returnK
  | trueK
  | falseK
  | printK
  | inputK
  deriving DecidableEq

namespace Keyword

/-- Every keyword. -/
def all : List Keyword :=
  [.ifK, .elseK, .forK, .whileK, .doK, .fnK, .continueK, .breakK, .returnK, .trueK, .falseK, .printK,
    .inputK]

/-- The spelling of a keyword. -/
def spelling : Keyword → String
  | .ifK => "if"
  | .elseK => "else"
  | .forK => "for"
  | .whileK => "while"
  | .doK => "do"
  | .fnK => "fn"
  | .continueK => "continue"
  | .breakK => "break"
  | .returnK => "return"
  | .trueK => "true"
  | .falseK => "false"
  | .printK => "print"
  | .inputK => "input"

/-- The keyword with the given spelling. -/
def ofWord? (word : String) : Option Keyword :=
  all.find? fun k => k.spelling = word

end Keyword

/-- Marks: punctuation and operators. -/
inductive Punct where
  | comma
  | colon
  | semicolon
  | dot
  | assign
  | caret
  | arrow
  | leftParen
  | rightParen
  | leftBracket
  | rightBracket
  | leftBrace
  | rightBrace
  | plus
  | minus
  | star
  | slash
  | percent
  | ampersand
  | pipe
  | tilde
  | shiftLeft
  | shiftRight
  | and
  | or
  | not
  | eq
  | notEq
  | lt
  | gt
  | ltEq
  | gtEq
  deriving DecidableEq

namespace Punct

/-- Every mark. A mark of two characters stands before the mark that its first character is, so that
the first mark of the list that starts a text is the longest one. -/
def all : List Punct :=
  [.arrow, .shiftLeft, .shiftRight, .and, .or, .eq, .notEq, .ltEq, .gtEq,
    .comma, .colon, .semicolon, .dot, .assign, .caret, .leftParen, .rightParen, .leftBracket,
    .rightBracket, .leftBrace, .rightBrace, .plus, .minus, .star, .slash, .percent, .ampersand, .pipe,
    .tilde, .not, .lt, .gt]

/-- The characters of a mark. -/
def spelling : Punct → List Char
  | .comma => [',']
  | .colon => [':']
  | .semicolon => [';']
  | .dot => ['.']
  | .assign => ['=']
  | .caret => ['^']
  | .arrow => ['-', '>']
  | .leftParen => ['(']
  | .rightParen => [')']
  | .leftBracket => ['[']
  | .rightBracket => [']']
  | .leftBrace => ['\x7b']
  | .rightBrace => ['\x7d']
  | .plus => ['+']
  | .minus => ['-']
  | .star => ['*']
  | .slash => ['/']
  | .percent => ['%']
  | .ampersand => ['&']
  | .pipe => ['|']
  | .tilde => ['~']
  | .shiftLeft => ['<', '<']
  | .shiftRight => ['>', '>']
  | .and => ['&', '&']
  | .or => ['|', '|']
  | .not => ['!']
  | .eq => ['=', '=']
  | .notEq => ['!', '=']
  | .lt => ['<']
  | .gt => ['>']
  | .ltEq => ['<', '=']
  | .gtEq => ['>', '=']

/-- The longest mark that a text starts with. -/
def startOf? (text : List Char) : Option Punct :=
  all.find? fun p => p.spelling.isPrefixOf text

end Punct

namespace Token

/-- What a token is, apart from its place and spelling. -/
inductive Kind where
  | integer (value : Int32)
  | float (value : Number.Single)
  | string (value : String)
  | char (value : Char)
  | identifier (name : String)
  | keyword (word : Keyword)
  | punct (mark : Punct)
  /-- A comment; the text does not include the two slashes. -/
  | comment (text : String)
  /-- The end of the source. -/
  | endOfFile
  deriving DecidableEq

/-- A kind of token as messages name it. -/
def Kind.text : Kind → String
  | .integer value => "integer " ++ Number.writeInt32 value
  | .float value => "float " ++ value.plain
  | .string value => "string " ++ Text.quoteString value
  | .char value => "char " ++ Text.quoteChar value
  | .identifier name => "identifier '" ++ name ++ "'"
  | .keyword word => "'" ++ word.spelling ++ "'"
  | .punct mark => "'" ++ String.ofList mark.spelling ++ "'"
  | .comment _ => "comment"
  | .endOfFile => "end of file"

end Token

/-- A place in a text: line and column, both counted from one. -/
structure Position where
  line : Nat
  column : Nat
  deriving DecidableEq

namespace Position

/-- Where a text starts. -/
def start : Position := ⟨1, 1⟩

/-- The place after a character. -/
def next (p : Position) (c : Char) : Position :=
  if c = '\n' then ⟨p.line + 1, 1⟩ else ⟨p.line, p.column + 1⟩

/-- The place after a run of characters. -/
def after (p : Position) (cs : List Char) : Position :=
  cs.foldl next p

end Position

/-- A word of the source with its text and its place. -/
structure Token where
  kind : Token.Kind
  lexeme : String
  position : Position
  deriving DecidableEq

end MiniC
