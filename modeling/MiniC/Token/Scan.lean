import MiniC.Token

/-!
# Reading source text as tokens

`Token.scan` cuts a text into pieces, one after another: blanks, comments and tokens. Each piece is a
nonempty start of what is left (`Piece.lexeme` followed by `Piece.rest` is the text it was cut from), so
the length of the text bounds the number of pieces. A token is placed where its piece starts, and the
place of the next piece follows from the characters of this one.
-/

namespace MiniC

/-- Why a text is not a sequence of tokens. -/
inductive ScanError where
  /-- No token starts with the character. -/
  | unrecognizedChar (c : Char) (position : Position)
  /-- The text ends inside the string that starts at the position. -/
  | unterminatedString (position : Position)
  /-- A string contains a line break. -/
  | multiLineString (line : Nat)
  /-- A backslash before a character that it cannot stand before. The position is that of the
  character; past the end of the text the character is NUL. -/
  | invalidEscape (c : Char) (position : Position)
  /-- The character literal at the position does not hold exactly one character. -/
  | invalidCharLiteral (position : Position)
  /-- A number that is malformed or out of range. -/
  | invalidNumber (lexeme : String) (line : Nat)
  deriving DecidableEq

/-- The message for a text that is not a sequence of tokens. -/
def ScanError.message : ScanError → String
  | .unrecognizedChar c ⟨line, column⟩ =>
    s!"unrecognized char {Text.quoteChar c} at line {line}, column {column}"
  | .unterminatedString ⟨line, column⟩ =>
    s!"unterminated string literal starting at line {line}, column {column}"
  | .multiLineString line => s!"multi line strings are not allowed (line {line})"
  | .invalidEscape c ⟨line, column⟩ =>
    "invalid escape sequence '\\" ++ c.toString ++ s!"' at line {line}, column {column}"
  | .invalidCharLiteral ⟨line, column⟩ => s!"invalid char literal at line {line}, column {column}"
  | .invalidNumber lexeme line => s!"invalid number literal '{lexeme}' at line {line}"

/-- A piece cut from the front of a text. -/
structure Piece where
  /-- The token that the piece is; a blank is none. -/
  kind? : Option Token.Kind
  /-- The characters of the piece. -/
  lexeme : List Char
  /-- The text after the piece. -/
  rest : List Char

namespace Piece

/-- The characters between tokens. -/
def isBlank (c : Char) : Bool :=
  c = ' ' || c = '\r' || c = '\t' || c = '\n'

/-- The characters that start a name or a keyword. -/
def isWordStart (c : Char) : Bool :=
  c.isAlpha || c = '_'

/-- The characters that continue a name or a keyword. -/
def isWordChar (c : Char) : Bool :=
  c.isAlphanum || c = '_'

/-- The characters that continue a number. Underscores only separate digits. -/
def isNumberChar (c : Char) : Bool :=
  c.isDigit || c = '_' || c = '.'

/-- The character that a backslash before `c` stands for. -/
def unescape? (c : Char) : Option Char :=
  match c with
  | 'n' => some '\n'
  | 't' => some '\t'
  | 'r' => some '\r'
  | '\\' => some '\\'
  | '\'' => some '\''
  | '"' => some '"'
  | _ => none

/-- Reads what follows a backslash: the character meant, the one written, and the text after it.
`here` is the place after the backslash. -/
def escape (here : Position) : List Char → Except ScanError (Char × Char × List Char)
  | [] => .error (.invalidEscape '\x00' here)
  | c :: rest =>
    match unescape? c with
    | some value => .ok (value, c, rest)
    | none => .error (.invalidEscape c here)

/-- Reads a string after its opening quote at `start`: its characters, its spelling up to the closing
quote, and the text after that. `here` is the place reached. -/
def stringBody (start : Position) :
    Position → List Char → Except ScanError (List Char × List Char × List Char)
  | _, [] => .error (.unterminatedString start)
  | here, '\\' :: cs =>
    match cs with
    | [] => .error (.invalidEscape '\x00' (here.next '\\'))
    | c :: cs =>
      match unescape? c with
      | none => .error (.invalidEscape c (here.next '\\'))
      | some value => do
        let (text, spelling, rest) ← stringBody start ((here.next '\\').next c) cs
        pure (value :: text, '\\' :: c :: spelling, rest)
  | here, c :: cs =>
    if c = '"' then .ok ([], [c], cs)
    else if c = '\n' then .error (.multiLineString here.line)
    else do
      let (text, spelling, rest) ← stringBody start (here.next c) cs
      pure (c :: text, c :: spelling, rest)

/-- Reads a string literal at `here`, given the text after its opening quote. -/
def string (here : Position) (cs : List Char) : Except ScanError Piece := do
  let (text, spelling, rest) ← stringBody here (here.next '"') cs
  pure ⟨some (.string (String.ofList text)), '"' :: spelling, rest⟩

/-- Reads the closing quote of a character literal at `here` that means `value` and is spelled
`spelling` so far. -/
def closeChar (here : Position) (value : Char) (spelling : List Char) :
    List Char → Except ScanError Piece
  | '\'' :: rest => .ok ⟨some (.char value), spelling ++ ['\''], rest⟩
  | _ => .error (.invalidCharLiteral here)

/-- Reads a character literal at `here`, given the text after its opening quote. NUL cannot be written
as itself. -/
def char (here : Position) : List Char → Except ScanError Piece
  | [] => .error (.invalidCharLiteral here)
  | '\\' :: cs => do
    let (value, written, rest) ← escape ((here.next '\'').next '\\') cs
    closeChar here value ['\'', '\\', written] rest
  | c :: cs =>
    if c = '\x00' ∨ c = '\'' ∨ c = '\n' then .error (.invalidCharLiteral here)
    else closeChar here c ['\'', c] cs

/-- The number that a run of digits, underscores and points denotes: a float if there is a point in it,
an integer otherwise. -/
def numberKind? (run : List Char) : Option Token.Kind :=
  let digits := run.filter (· ≠ '_')
  if digits.contains '.' then (Number.Single.read digits).map .float
  else (Number.readInt32 digits).map .integer

/-- Reads a number at `here`, which starts with the digit `c`. -/
def number (here : Position) (c : Char) (cs : List Char) : Except ScanError Piece :=
  let run := c :: cs.takeWhile isNumberChar
  match numberKind? run with
  | some kind => .ok ⟨some kind, run, cs.dropWhile isNumberChar⟩
  | none => .error (.invalidNumber (String.ofList run) here.line)

/-- The kind of a word: a keyword, or else a name. -/
def wordKind (word : String) : Token.Kind :=
  match Keyword.ofWord? word with
  | some k => .keyword k
  | none => .identifier word

/-- Reads a word, which starts with the letter `c`. -/
def word (c : Char) (cs : List Char) : Piece :=
  let run := c :: cs.takeWhile isWordChar
  ⟨some (wordKind (String.ofList run)), run, cs.dropWhile isWordChar⟩

/-- Reads a comment, given the text after its two slashes. It ends before the next line break. -/
def comment (cs : List Char) : Piece :=
  let body := cs.takeWhile (· ≠ '\n')
  ⟨some (.comment (String.ofList body)), '/' :: '/' :: body, cs.dropWhile (· ≠ '\n')⟩

/-- Cuts the first piece from the text `c :: cs` at `here`. -/
def read (here : Position) (c : Char) (cs : List Char) : Except ScanError Piece :=
  if isBlank c then .ok ⟨none, [c], cs⟩
  else if c = '/' ∧ cs.head? = some '/' then .ok (comment cs.tail)
  else
    match Punct.startOf? (c :: cs) with
    | some p => .ok ⟨some (.punct p), p.spelling, (c :: cs).drop p.spelling.length⟩
    | none =>
      if c = '"' then string here cs
      else if c = '\'' then char here cs
      else if c.isDigit then number here c cs
      else if isWordStart c then .ok (word c cs)
      else .error (.unrecognizedChar c here)

/-- The token that a piece at `here` contributes. Blanks contribute none, and comments only if they are
kept. -/
def token? (piece : Piece) (here : Position) (keepComments : Bool) : Option Token :=
  match piece.kind? with
  | none => none
  | some (.comment text) =>
    if keepComments then some ⟨.comment text, String.ofList piece.lexeme, here⟩ else none
  | some kind => some ⟨kind, String.ofList piece.lexeme, here⟩

end Piece

namespace Token

/-- The end of a source, at `here`. -/
def eof (here : Position) : Token :=
  ⟨.endOfFile, "", here⟩

/-- The tokens of the text `cs` at `here`, which has at most `bound` characters. -/
def scanFrom (keepComments : Bool) :
    (bound : Nat) → (here : Position) → (cs : List Char) → Except ScanError (List Token)
  | 0, here, _ => .ok [eof here]
  | _ + 1, here, [] => .ok [eof here]
  | bound + 1, here, c :: cs => do
    let piece ← Piece.read here c cs
    let tokens ← scanFrom keepComments bound (here.after piece.lexeme) piece.rest
    pure ((piece.token? here keepComments).toList ++ tokens)

/-- The tokens of a source. The last one, and no other, is the end of the source. -/
def scan (source : String) (keepComments : Bool := false) : Except ScanError (List Token) :=
  let cs := source.toList
  scanFrom keepComments cs.length .start cs

end Token

end MiniC
