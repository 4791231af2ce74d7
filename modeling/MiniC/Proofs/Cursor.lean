import MiniC.Proofs.Pieces

/-!
# Scanning with a cursor

A scanner that goes through a text with a cursor: an offset into the text, and the line and the column that
it counts as it goes. A token is placed where the cursor was when the token started, and its text is cut out
of the whole text between that offset and the one reached. To cut outside of the text is a failure of its own
(`Stop.outside`), apart from a text that is refused.

`Cursor.scan_eq`: on every text this gives what cutting pieces from the front of the text gives. So no cut
falls outside the text, neither in a text that is accepted nor in one that is refused, and the counted lines
and columns are those that the characters in front lead to. The only move past the end of the text is that
over the character after a backslash, and there the text is refused.
-/

namespace MiniC

/-- Where a scanner is in its text. -/
structure Cursor where
  offset : Nat := 0
  line : Nat := 1
  column : Nat := 1

namespace Cursor

/-- Why a scanner stops before the end of its text. -/
inductive Stop where
  | refused (cause : ScanError)
  /-- The text between two offsets is wanted, and they do not enclose a part of the text. -/
  | outside (start stop : Nat)

/-- A step of a scanner. -/
abbrev Scanning := EStateM Stop Cursor

/-- The place that a cursor has counted. -/
def position (c : Cursor) : Position := ⟨c.line, c.column⟩

/-- The cursor so many characters further in its line. -/
def forward (c : Cursor) (count : Nat) : Cursor :=
  { c with offset := c.offset + count, column := c.column + count }

/-- The marks that start with a character: those with a second character, and the one without. -/
def marksAt : Char → Option (List (Char × Punct) × Punct)
  | ',' => some ([], .comma)
  | ':' => some ([], .colon)
  | ';' => some ([], .semicolon)
  | '.' => some ([], .dot)
  | '^' => some ([], .caret)
  | '(' => some ([], .leftParen)
  | ')' => some ([], .rightParen)
  | '[' => some ([], .leftBracket)
  | ']' => some ([], .rightBracket)
  | '\x7b' => some ([], .leftBrace)
  | '\x7d' => some ([], .rightBrace)
  | '+' => some ([], .plus)
  | '-' => some ([('>', .arrow)], .minus)
  | '*' => some ([], .star)
  | '/' => some ([], .slash)
  | '%' => some ([], .percent)
  | '~' => some ([], .tilde)
  | '>' => some ([('>', .shiftRight), ('=', .gtEq)], .gt)
  | '<' => some ([('<', .shiftLeft), ('=', .ltEq)], .lt)
  | '=' => some ([('=', .eq)], .assign)
  | '!' => some ([('=', .notEq)], .not)
  | '&' => some ([('&', .and)], .ampersand)
  | '|' => some ([('|', .or)], .pipe)
  | _ => none

section Scanner

variable (text : List Char)

/-- The character at the cursor; past the end of the text it is NUL. -/
def peek (c : Cursor) : Char :=
  text[c.offset]?.getD '\x00'

/-- Takes the next character, also past the end of the text. -/
def advance : Scanning Char :=
  fun c => .ok (c.peek text) (c.forward 1)

/-- Takes the next character if it is the given one. -/
def accept (expected : Char) : Scanning Bool :=
  fun c => if text[c.offset]? = some expected then .ok true (c.forward 1) else .ok false c

/-- Takes characters as long as a condition holds at the cursor, at most `bound` of them. -/
def advanceWhile (goesOn : Cursor → Bool) : (bound : Nat) → Scanning Unit
  | 0 => pure ()
  | bound + 1 => do
    if goesOn (← get) then
      let _ ← advance text
      advanceWhile goesOn bound

/-- Counts a line. -/
def newline : Scanning Unit :=
  modify fun c => { c with line := c.line + 1, column := 1 }

/-- Cuts the text between two offsets out. -/
def slice (start stop : Nat) : Scanning (List Char) :=
  if start ≤ stop ∧ stop ≤ text.length then pure ((text.drop start).take (stop - start))
  else throw (.outside start stop)

/-- Refuses the text. -/
def refuse {α : Type} (cause : ScanError) : Scanning α :=
  throw (.refused cause)

/-- Makes a token of what was taken since `start`. -/
def token (start : Cursor) (kind : Token.Kind) : Scanning (Option Token) := do
  let lexeme ← slice text start.offset (← get).offset
  pure (some ⟨kind, String.ofList lexeme, start.position⟩)

/-- Takes the rest of a comment after its two slashes. -/
def comment (keepComments : Bool) (start : Cursor) : Scanning (Option Token) := do
  advanceWhile text (fun c => c.offset < text.length && c.peek text ≠ '\n') text.length
  if keepComments then
    let body ← slice text (start.offset + 2) (← get).offset
    token text start (.comment (String.ofList body))
  else pure none

/-- Takes a mark after its first character. -/
def mark (start : Cursor) (single : Punct) : List (Char × Punct) → Scanning (Option Token)
  | [] => token text start (.punct single)
  | (second, double) :: others => do
    if ← accept text second then token text start (.punct double)
    else mark start single others

/-- Takes the character after a backslash. -/
def escape : Scanning Char := do
  let here ← get
  let c ← advance text
  match Piece.unescape? c with
  | some value => pure value
  | none => refuse (.invalidEscape c here.position)

/-- Takes the rest of a string, of at most `bound` characters, after its opening quote. -/
def stringBody (start : Cursor) : (bound : Nat) → Scanning (List Char)
  | 0 => pure []
  | bound + 1 => do
    let here ← get
    if text.length ≤ here.offset then refuse (.unterminatedString start.position)
    else
      let c ← advance text
      if c = '"' then pure []
      else if c = '\n' then refuse (.multiLineString here.line)
      else
        let value ← if c = '\\' then escape text else pure c
        let values ← stringBody start bound
        pure (value :: values)

/-- Takes the closing quote of a character literal. -/
def closeChar (start : Cursor) (value : Char) : Scanning (Option Token) := do
  if ← accept text '\'' then token text start (.char value)
  else refuse (.invalidCharLiteral start.position)

/-- Takes a character literal after its opening quote. -/
def char (start : Cursor) : Scanning (Option Token) := do
  let c := (← get).peek text
  if c = '\x00' ∨ c = '\'' ∨ c = '\n' then refuse (.invalidCharLiteral start.position)
  else
    let _ ← advance text
    let value ← if c = '\\' then escape text else pure c
    closeChar text start value

/-- Takes a number after its first digit. -/
def number (start : Cursor) : Scanning (Option Token) := do
  advanceWhile text (fun c => Piece.isNumberChar (c.peek text)) text.length
  let run ← slice text start.offset (← get).offset
  match Piece.numberKind? run with
  | some kind => token text start kind
  | none => refuse (.invalidNumber (String.ofList run) start.line)

/-- Takes a word after its first letter. -/
def word (start : Cursor) : Scanning (Option Token) := do
  advanceWhile text (fun c => Piece.isWordChar (c.peek text)) text.length
  let run ← slice text start.offset (← get).offset
  token text start (Piece.wordKind (String.ofList run))

/-- Takes a string literal after its opening quote. -/
def string (start : Cursor) : Scanning (Option Token) := do
  let values ← stringBody text start (text.length + 1)
  token text start (.string (String.ofList values))

/-- Takes a comment or a token after its first character. -/
def scanText (keepComments : Bool) (start : Cursor) (c : Char) : Scanning (Option Token) := do
  if c = '/' then
    if ← accept text '/' then comment text keepComments start
    else token text start (.punct .slash)
  else
    match marksAt c with
    | some (doubles, single) => mark text start single doubles
    | none =>
      if c = '"' then string text start
      else if c = '\'' then char text start
      else if c.isDigit then number text start
      else if Piece.isWordStart c then word text start
      else refuse (.unrecognizedChar c start.position)

/-- Takes a blank, a comment or a token. -/
def scanOne (keepComments : Bool) : Scanning (Option Token) := do
  let start ← get
  let c ← advance text
  if c = ' ' ∨ c = '\r' ∨ c = '\t' then pure none
  else if c = '\n' then
    newline
    pure none
  else scanText text keepComments start c

/-- Takes everything up to the end of the text, in at most `bound` steps. -/
def scanAll (keepComments : Bool) : (bound : Nat) → Scanning (List Token)
  | 0 => pure []
  | bound + 1 => do
    let here ← get
    if text.length ≤ here.offset then pure [Token.eof here.position]
    else
      let token? ← scanOne text keepComments
      let tokens ← scanAll keepComments bound
      pure (token?.toList ++ tokens)

end Scanner

/-- What a scanner gives, without where it stopped. -/
def outcome {α : Type} : EStateM.Result Stop Cursor α → Except Stop α
  | .ok a _ => .ok a
  | .error stop _ => .error stop

/-- The tokens of a source, taken with a cursor. -/
def scan (source : String) (keepComments : Bool) : Except Stop (List Token) :=
  outcome (scanAll source.toList keepComments (source.toList.length + 1) {})

/-! ## What the cursor stands before -/

/-- The cursor stands before the rest of a text. -/
structure Before (text : List Char) (c : Cursor) (rest : List Char) : Prop where
  inside : c.offset ≤ text.length
  drop_eq : text.drop c.offset = rest

/-- The cursor after a run of characters. -/
def past (c : Cursor) (run : List Char) : Cursor :=
  ⟨c.offset + run.length, (c.position.after run).line, (c.position.after run).column⟩

/-- Without a line's end in it, a run only moves the column on. -/
theorem past_of_line {run : List Char} (line : '\n' ∉ run) (c : Cursor) : c.past run = c.forward run.length := by
  simp only [past, Position.after_of_line line, position, forward]

/-- A step in the line counts as the character's own place does. -/
theorem position_forward {d : Char} (line : d ≠ '\n') (c : Cursor) : (c.forward 1).position = c.position.next d :=
  (if_neg line).symm

theorem forward_forward (c : Cursor) (m n : Nat) : (c.forward m).forward n = c.forward (m + n) := by
  simp only [forward, Nat.add_assoc]

theorem forward_cons (c : Cursor) (d : Char) (run : List Char) :
    (c.forward 1).forward run.length = c.forward (d :: run).length := by
  rw [forward_forward, Nat.add_comm, List.length_cons]

section Scanner

variable {text : List Char} {c : Cursor} {rest : List Char}

/-- The character at the cursor is the first of the rest. -/
theorem Before.getElem? (h : Before text c rest) : text[c.offset]? = rest.head? := by
  rw [← h.drop_eq, List.head?_drop]

/-- What is behind the cursor and what is before it make up the text. -/
theorem Before.length_eq (h : Before text c rest) : c.offset + rest.length = text.length := by
  have inside := h.inside
  rw [← h.drop_eq, List.length_drop]
  omega

/-- The cursor is at the end exactly if nothing is left. -/
theorem Before.length_le_iff (h : Before text c rest) : text.length ≤ c.offset ↔ rest = [] := by
  have length := h.length_eq
  rw [← List.length_eq_zero_iff]
  omega

theorem Before.not_length_le {d : Char} (h : Before text c (d :: rest)) : ¬text.length ≤ c.offset := by
  rw [h.length_le_iff]
  exact List.cons_ne_nil d rest

theorem Before.length_le (h : Before text c rest) : rest.length ≤ text.length := by
  have length := h.length_eq
  omega

/-- Only the offset says what the cursor stands before; line and column do not matter. -/
theorem Before.move {taken : List Char} (h : Before text c (taken ++ rest)) {d : Cursor}
    (moved : d.offset = c.offset + taken.length) : Before text d rest := by
  have length := h.length_eq
  rw [List.length_append] at length
  refine ⟨by omega, ?_⟩
  rw [moved, ← List.drop_drop, h.drop_eq, List.drop_left]

/-- A run that has been taken is behind the cursor. -/
theorem Before.onward {taken : List Char} (h : Before text c (taken ++ rest)) :
    Before text (c.forward taken.length) rest :=
  h.move rfl

/-- A character that has been taken is behind the cursor. -/
theorem Before.next {d : Char} (h : Before text c (d :: rest)) : Before text (c.forward 1) rest :=
  @Before.onward text c rest [d] h

/-- At the end of the text NUL is seen, which is no character of any run. -/
theorem Before.peek_eq (h : Before text c rest) : c.peek text = rest.head?.getD '\x00' := by
  rw [peek, h.getElem?]

/-- Taking a character moves on also at the end, where there is none. -/
theorem Before.advance_eq (h : Before text c rest) :
    advance text c = .ok (rest.head?.getD '\x00') (c.forward 1) := by
  rw [advance, h.peek_eq]

/-- A character is accepted only if it is there, so this never moves past the end. -/
theorem Before.accept_eq (h : Before text c rest) (expected : Char) :
    accept text expected c = if rest.head? = some expected then .ok true (c.forward 1) else .ok false c := by
  rw [accept, h.getElem?]

/-- What has been taken can be cut out: it lies between the two offsets, which are in order and inside the text. -/
theorem Before.slice_eq {taken : List Char} (h : Before text c (taken ++ rest)) (d : Cursor) :
    slice text c.offset (c.forward taken.length).offset d = .ok taken d := by
  have first : c.offset ≤ (c.forward taken.length).offset := Nat.le_add_right _ _
  have taken_eq : (c.forward taken.length).offset - c.offset = taken.length := Nat.add_sub_cancel_left _ _
  rw [slice, if_pos ⟨first, h.onward.inside⟩, h.drop_eq, taken_eq, List.take_left, pure_apply]

/-- A token is placed where it started and has the text that was taken since. -/
theorem Before.token_eq {taken : List Char} (h : Before text c (taken ++ rest)) (kind : Token.Kind) :
    token text c kind (c.forward taken.length) =
      .ok (some ⟨kind, String.ofList taken, c.position⟩) (c.forward taken.length) := by
  rw [token, bind_of_ok get_apply, bind_of_ok (h.slice_eq _), pure_apply]

/-- A run is taken up to the first character that does not belong to it. -/
theorem Before.advanceWhile_eq {p : Char → Bool} {goesOn : Cursor → Bool}
    (goes : ∀ {c rest}, Before text c rest → goesOn c = rest.head?.any p) (h : Before text c rest) {bound : Nat}
    (enough : rest.length ≤ bound) :
    advanceWhile text goesOn bound c = .ok () (c.forward (rest.takeWhile p).length) := by
  induction bound generalizing c rest with
  | zero =>
    rw [Nat.le_zero, List.length_eq_zero_iff] at enough
    subst enough
    rfl
  | succ bound ih =>
    rw [advanceWhile, bind_of_ok get_apply, goes h]
    cases rest with
    | nil => rfl
    | cons d rest =>
      by_cases belongs : p d
      · have later := ih h.next (Nat.le_of_succ_le_succ enough)
        rw [if_pos (by simpa using belongs), bind_of_ok h.advance_eq, List.takeWhile_cons_of_pos belongs]
        rwa [forward_cons] at later
      · rw [if_neg (by simpa using belongs), List.takeWhile_cons_of_neg belongs]
        rfl

end Scanner

/-! ## Agreement with the reader of pieces -/

/-- A scanner and a reader of the same text agree: both refuse it, and for the same cause, or both accept
it, and what they give is related. -/
inductive Agrees {α β : Type} (related : α → β → Cursor → Prop) :
    Except ScanError α → EStateM.Result Stop Cursor β → Prop
  | accepted {a : α} {b : β} {c : Cursor} : related a b c → Agrees related (.ok a) (.ok b c)
  | refused {cause : ScanError} {c : Cursor} : Agrees related (.error cause) (.error (.refused cause) c)

/-- If first steps agree, and what follows them agrees on related results, the whole does. Where the reader refuses,
the scanner has refused already, so the second steps count only after both accepted. -/
theorem Agrees.bind {α β γ δ : Type} {r : α → β → Cursor → Prop} {q : γ → δ → Cursor → Prop}
    {x : Except ScanError α} {f : α → Except ScanError γ} {m : Scanning β} {g : β → Scanning δ} {c : Cursor}
    (first : Agrees r x (m c)) (second : ∀ a b d, x = .ok a → r a b d → Agrees q (f a) (g b d)) :
    Agrees q (x >>= f) ((m >>= g) c) := by
  generalize result : m c = z at first
  cases first with
  | accepted related =>
    rw [bind_of_ok result]
    exact second _ _ _ rfl related
  | refused =>
    rw [bind_of_error result]
    exact .refused

/-- Agreement on more is agreement on less; the reader's result may be used. -/
theorem Agrees.imp {α β : Type} {r q : α → β → Cursor → Prop} {x : Except ScanError α}
    {z : EStateM.Result Stop Cursor β} (h : Agrees r x z) (weaker : ∀ a b d, x = .ok a → r a b d → q a b d) :
    Agrees q x z := by
  cases h with
  | accepted related => exact .accepted (weaker _ _ _ rfl related)
  | refused => exact .refused

/-- Agreement on equal results is equality. In particular the scanner is never stopped outside of the text. -/
theorem Agrees.outcome_eq {α : Type} {x : Except ScanError α} {z : EStateM.Result Stop Cursor α}
    (h : Agrees (fun a b _ => b = a) x z) : outcome z = x.mapError .refused := by
  cases h with
  | accepted same =>
    subst same
    rfl
  | refused => rfl

/-- The token of a piece, and the cursor so many characters further in the line. -/
def InLine (keepComments : Bool) (start : Cursor) (piece : Piece) (token? : Option Token) (c : Cursor) : Prop :=
  token? = piece.token? start.position keepComments ∧ c = start.forward piece.lexeme.length

section Scanner

variable {text : List Char} {keepComments : Bool} {start c : Cursor} {rest : List Char}

/-- A token of the text taken so far is that of the piece with this text. -/
theorem Before.agrees_token {lexeme : List Char} (h : Before text start (lexeme ++ rest)) {kind : Token.Kind}
    (other : ∀ text, kind ≠ .comment text) :
    Agrees (InLine keepComments start) (.ok ⟨some kind, lexeme, rest⟩)
      (token text start kind (start.forward lexeme.length)) := by
  rw [h.token_eq kind]
  exact .accepted ⟨(Piece.token?_of_not_comment other _ _ _ _).symm, rfl⟩

/-! ### Comments, numbers and words -/

/-- A comment goes to the end of its line. Its text is cut out without the slashes, which lie before it. -/
theorem Before.agrees_comment (h : Before text start ('/' :: '/' :: rest)) :
    Agrees (InLine keepComments start) (.ok (Piece.comment rest))
      (comment text keepComments start (start.forward 2)) := by
  have body : Before text (start.forward 2) rest := @Before.onward text start rest ['/', '/'] h
  have goes : ∀ {c : Cursor} {rest : List Char}, Before text c rest →
      (decide (c.offset < text.length) && decide (c.peek text ≠ '\n')) = rest.head?.any (· ≠ '\n') := by
    intro c rest before
    rw [before.peek_eq, decide_eq_decide.2 (Nat.not_le.symm.trans (not_congr before.length_le_iff))]
    cases rest with
    | nil => simp
    | cons d rest =>
      rw [decide_eq_true (List.cons_ne_nil d rest), Bool.true_and]
      exact decide_eq_decide.2 Iff.rfl
  have taken := body.advanceWhile_eq goes body.length_le
  rw [comment, bind_of_ok taken]
  rw [← List.takeWhile_append_dropWhile (p := (· ≠ '\n')) (l := rest)] at h body
  have stop : (start.forward 2).forward (rest.takeWhile (· ≠ '\n')).length =
      start.forward ('/' :: '/' :: rest.takeWhile (· ≠ '\n')).length := by
    rw [← forward_cons, ← forward_cons, forward_forward start 1]
  cases keepComments with
  | false => exact .accepted ⟨rfl, stop⟩
  | true =>
    rw [if_pos rfl, bind_of_ok get_apply]
    refine (bind_of_ok (body.slice_eq _)).symm ▸ ?_
    rw [stop, @Before.token_eq text start _ ('/' :: '/' :: rest.takeWhile (· ≠ '\n')) h]
    exact .accepted ⟨rfl, rfl⟩

/-- A run that has started is taken to its end. -/
theorem Before.run_eq {p : Char → Bool} (stops : p '\x00' = false) {d : Char}
    (h : Before text start (d :: rest)) :
    advanceWhile text (fun c => p (c.peek text)) text.length (start.forward 1) =
      .ok () (start.forward (d :: rest.takeWhile p).length) := by
  have goes : ∀ {c : Cursor} {rest : List Char}, Before text c rest → p (c.peek text) = rest.head?.any p := by
    intro c rest before
    rw [before.peek_eq]
    cases rest with
    | nil => exact stops
    | cons d rest => rfl
  rw [h.next.advanceWhile_eq goes h.next.length_le, forward_cons]

/-- A run and what comes after it. -/
theorem Before.of_run (p : Char → Bool) {d : Char} (h : Before text start (d :: rest)) :
    Before text start ((d :: rest.takeWhile p) ++ rest.dropWhile p) := by
  rwa [List.cons_append, List.takeWhile_append_dropWhile]

/-- A number is the longest run of its characters, and both make the same of it, or refuse it. -/
theorem Before.agrees_number {d : Char} (h : Before text start (d :: rest)) :
    Agrees (InLine keepComments start) (Piece.number start.position d rest)
      (number text start (start.forward 1)) := by
  have run := h.of_run Piece.isNumberChar
  rw [number, bind_of_ok (h.run_eq (p := Piece.isNumberChar) rfl), bind_of_ok get_apply,
    bind_of_ok (run.slice_eq _)]
  simp only [Piece.number]
  cases read : Piece.numberKind? (d :: rest.takeWhile Piece.isNumberChar) with
  | none => exact .refused
  | some kind => exact run.agrees_token (Piece.numberKind?_not_comment read).1

/-- A word is the longest run of its characters. -/
theorem Before.agrees_word {d : Char} (h : Before text start (d :: rest)) :
    Agrees (InLine keepComments start) (.ok (Piece.word d rest)) (word text start (start.forward 1)) := by
  have run := h.of_run Piece.isWordChar
  rw [word, bind_of_ok (h.run_eq (p := Piece.isWordChar) rfl), bind_of_ok get_apply, bind_of_ok (run.slice_eq _)]
  exact run.agrees_token (Piece.wordKind_not_comment _).1

/-! ### Strings and characters -/

/-- A known character after a backslash is taken. -/
theorem Before.escape_of_some {d value : Char} (h : Before text c (d :: rest))
    (known : Piece.unescape? d = some value) : escape text c = .ok value (c.forward 1) := by
  rw [escape, bind_of_ok get_apply, bind_of_ok h.advance_eq]
  simp only [List.head?_cons, Option.getD_some, known, pure_apply]

/-- An unknown one is refused where it stands. At the end of the text this is NUL, which is past the end. -/
theorem Before.escape_of_none (h : Before text c rest)
    (unknown : Piece.unescape? (rest.head?.getD '\x00') = none) :
    escape text c = .error (.refused (.invalidEscape (rest.head?.getD '\x00') c.position)) (c.forward 1) := by
  rw [escape, bind_of_ok get_apply, bind_of_ok h.advance_eq]
  simp only [unknown, refuse, throw_apply]

/-- One turn of reading a string: what the next character decides. -/
theorem Before.stringBody_cons {d : Char} {bound : Nat} (h : Before text c (d :: rest))
    (enough : (d :: rest).length < bound) :
    stringBody text start bound c =
      (if d = '"' then pure []
      else if d = '\n' then refuse (.multiLineString c.line)
      else do
        let value ← if d = '\\' then escape text else pure d
        let values ← stringBody text start (bound - 1)
        pure (value :: values) : Scanning (List Char)) (c.forward 1) := by
  obtain ⟨bound, rfl⟩ := Nat.exists_eq_add_one_of_ne_zero (Nat.ne_zero_of_lt enough)
  rw [stringBody, bind_of_ok get_apply, if_neg h.not_length_le, bind_of_ok h.advance_eq]
  rfl

/-- The rest of a string is taken as it is read. The bound is above the length of the text that is left. -/
theorem Before.agrees_stringBody {bound : Nat} {here : Position} (h : Before text c rest)
    (placed : c.position = here) (enough : rest.length < bound) :
    Agrees (fun read values d => values = read.1 ∧ d = c.forward read.2.1.length)
      (Piece.stringBody start.position here rest) (stringBody text start bound c) := by
  -- The reader of pieces takes an escape in one step; the scanner takes its two characters one by one.
  fun_induction Piece.stringBody start.position here rest generalizing c bound with
  | case1 here =>
    obtain ⟨bound, rfl⟩ := Nat.exists_eq_add_one_of_ne_zero (Nat.ne_zero_of_lt enough)
    rw [stringBody, bind_of_ok get_apply, if_pos (h.length_le_iff.2 rfl)]
    exact .refused
  | case2 here =>
    subst placed
    rw [h.stringBody_cons enough, if_neg (by decide), if_neg (by decide), if_pos rfl,
      bind_of_error (h.next.escape_of_none rfl), position_forward (d := '\\') (by decide)]
    exact .refused
  | case3 here d cs unknown =>
    subst placed
    rw [h.stringBody_cons enough, if_neg (by decide), if_neg (by decide), if_pos rfl,
      bind_of_error (h.next.escape_of_none unknown), position_forward (d := '\\') (by decide)]
    exact .refused
  | case4 here d cs value known ih =>
    subst placed
    have line : d ≠ '\n' := by
      rintro rfl
      cases known
    have placed : ((c.forward 1).forward 1).position = (c.position.next '\\').next d := by
      rw [position_forward line, position_forward (d := '\\') (by decide)]
    rw [h.stringBody_cons enough, if_neg (by decide), if_neg (by decide), if_pos rfl,
      bind_of_ok (h.next.escape_of_some known)]
    have shorter : cs.length < bound - 1 := by
      simp only [List.length_cons] at enough
      omega
    refine (ih h.next.next placed shorter).bind ?_
    rintro ⟨values, spelling, rest⟩ _ _ - ⟨rfl, rfl⟩
    exact .accepted ⟨rfl, (forward_cons _ d spelling).trans (forward_cons _ _ _)⟩
  | case5 here cs =>
    rw [h.stringBody_cons enough, if_pos rfl]
    exact .accepted ⟨rfl, rfl⟩
  | case6 here cs =>
    subst placed
    rw [h.stringBody_cons enough, if_neg (by decide), if_pos rfl]
    exact .refused
  | case7 here d cs escaped quote newline ih =>
    subst placed
    rw [h.stringBody_cons enough, if_neg quote, if_neg newline, if_neg escaped]
    have shorter : cs.length < bound - 1 := by
      simp only [List.length_cons] at enough
      omega
    refine (ih h.next (position_forward newline c) shorter).bind ?_
    rintro ⟨values, spelling, rest⟩ _ _ - ⟨rfl, rfl⟩
    exact .accepted ⟨rfl, forward_cons _ _ _⟩

/-- A string is placed where its quote is, and its text includes both quotes. -/
theorem Before.agrees_string (h : Before text start ('"' :: rest)) :
    Agrees (InLine keepComments start) (Piece.string start.position rest)
      (string text start (start.forward 1)) := by
  have body : Agrees _ _ (stringBody text start (text.length + 1) (start.forward 1)) :=
    h.next.agrees_stringBody rfl (Nat.lt_succ_of_le h.next.length_le)
  refine body.bind ?_
  rintro ⟨value, spelling, rest⟩ values d read ⟨rfl, rfl⟩
  obtain ⟨rfl, -⟩ := Piece.stringBody_cut read
  have whole : Before text start (('"' :: spelling) ++ rest) := h
  rw [forward_cons _ '"']
  exact whole.agrees_token (by simp)

/-- A character literal must end with a quote, right after the one character. -/
theorem Before.agrees_closeChar {spelling : List Char} {value : Char}
    (h : Before text start (spelling ++ rest)) :
    Agrees (InLine keepComments start) (Piece.closeChar start.position value spelling rest)
      (closeChar text start value (start.forward spelling.length)) := by
  unfold Piece.closeChar
  split
  · rename_i rest
    have closed : Before text start ((spelling ++ ['\'']) ++ rest) := by simpa using h
    have taken : accept text '\'' (start.forward spelling.length) =
        .ok true (start.forward (spelling ++ ['\'']).length) := by
      rw [h.onward.accept_eq, if_pos List.head?_cons, forward_forward, List.length_append]
      rfl
    rw [closeChar, bind_of_ok taken, if_pos rfl]
    exact closed.agrees_token (by simp)
  · rename_i other
    have missing : rest.head? ≠ some '\'' := by
      intro first
      obtain ⟨tail, rfl⟩ := List.head?_eq_some_iff.1 first
      exact other tail rfl
    rw [closeChar, bind_of_ok ((h.onward.accept_eq _).trans (if_neg missing)), if_neg Bool.false_ne_true]
    exact .refused

/-- After a backslash both take one character and make the same of it. -/
theorem Before.agrees_escape (h : Before text c rest) :
    Agrees (fun read value d => value = read.1 ∧ d = c.forward 1 ∧ rest = read.2.1 :: read.2.2)
      (Piece.escape c.position rest) (escape text c) := by
  cases rest with
  | nil =>
    rw [h.escape_of_none rfl]
    exact .refused
  | cons d rest =>
    simp only [Piece.escape]
    cases known : Piece.unescape? d with
    | none =>
      rw [h.escape_of_none known]
      exact .refused
    | some value =>
      rw [h.escape_of_some known]
      exact .accepted ⟨rfl, rfl, rfl⟩

/-- A character literal holds one character, and a backslash with the character after it counts as one. -/
theorem Before.agrees_char (h : Before text start ('\'' :: rest)) :
    Agrees (InLine keepComments start) (Piece.char start.position rest)
      (char text start (start.forward 1)) := by
  have next := h.next
  rw [char, bind_of_ok get_apply, next.peek_eq]
  unfold Piece.char
  split
  · exact .refused
  · rename_i cs
    rw [List.head?_cons, Option.getD_some, if_neg (by decide), bind_of_ok next.advance_eq, if_pos rfl]
    have escaped : Agrees _ _ (escape text ((start.forward 1).forward 1)) := next.next.agrees_escape
    rw [position_forward (d := '\\') (by decide), position_forward (d := '\'') (by decide)] at escaped
    refine escaped.bind ?_
    rintro ⟨value, written, rest⟩ _ _ - ⟨rfl, rfl, rfl⟩
    rw [forward_forward, forward_forward]
    exact @Before.agrees_closeChar _ _ _ _ ['\'', '\\', written] _ h
  · rename_i d cs plain
    rw [List.head?_cons, Option.getD_some]
    split
    · exact .refused
    · rw [bind_of_ok next.advance_eq, bind_of_ok (pure_apply d), forward_forward]
      exact @Before.agrees_closeChar _ _ _ _ ['\'', d] _ h

/-! ### Marks -/

/-- The mark that the character after the first one decides on. -/
def chosen (single : Punct) (doubles : List (Char × Punct)) (next : Option Char) : Punct :=
  ((doubles.find? fun double => next = some double.1).map Prod.snd).getD single

/-- The table spells the marks as they are spelled. -/
theorem spelling_of_marksAt {d : Char} {doubles : List (Char × Punct)} {single : Punct}
    (h : marksAt d = some (doubles, single)) :
    single.spelling = [d] ∧ ∀ double ∈ doubles, double.2.spelling = [d, double.1] := by
  unfold marksAt at h
  split at h <;> cases h <;> exact ⟨rfl, by decide⟩

/-- Every mark is in the table of its first character. -/
theorem marksAt_of_spelling {p : Punct} {d : Char} {others : List Char} (h : p.spelling = d :: others) :
    ∃ doubles single, marksAt d = some (doubles, single) ∧ ∀ e ∈ others.head?, (e, p) ∈ doubles := by
  cases p <;> cases h <;> exact ⟨_, _, rfl, by simp⟩

/-- A character that is not in the table starts no mark. -/
theorem startOf?_of_marksAt_none {d : Char} (h : marksAt d = none) (rest : List Char) :
    Punct.startOf? (d :: rest) = none := by
  refine Punct.startOf?_eq_none_iff.2 fun q starts => ?_
  obtain ⟨others, spelled, -⟩ := (List.prefix_cons_iff.1 starts).resolve_left q.spelling_ne_nil
  obtain ⟨doubles, single, marks, -⟩ := marksAt_of_spelling spelled
  rw [h] at marks
  cases marks

/-- The character after the first one decides on the longest mark. -/
theorem startOf?_of_marksAt {d : Char} {doubles : List (Char × Punct)} {single : Punct}
    (h : marksAt d = some (doubles, single)) (rest : List Char) :
    Punct.startOf? (d :: rest) = some (chosen single doubles rest.head?) := by
  obtain ⟨one, two⟩ := spelling_of_marksAt h
  rw [Punct.startOf?_eq_some_iff, chosen]
  cases found : doubles.find? fun double => rest.head? = some double.1 with
  | some double =>
    have spelled := two double (List.mem_of_find?_eq_some found)
    have second : rest.head? = some double.1 := by simpa using List.find?_some found
    obtain ⟨rest, rfl⟩ := List.head?_eq_some_iff.1 second
    rw [Option.map_some, Option.getD_some, spelled]
    exact ⟨by simp, fun q _ => q.length_spelling_le⟩
  | none =>
    rw [Option.map_none, Option.getD_none, one]
    refine ⟨by simp, fun q starts => ?_⟩
    obtain ⟨others, spelled, starts⟩ := (List.prefix_cons_iff.1 starts).resolve_left q.spelling_ne_nil
    obtain ⟨doubles', single', marks, held⟩ := marksAt_of_spelling spelled
    rw [h] at marks
    cases marks
    cases others with
    | nil => exact Nat.le_of_eq (by rw [spelled])
    | cons e others =>
      have missing := List.find?_eq_none.1 found _ (held e rfl)
      obtain ⟨rest, rfl⟩ := starts
      simp at missing

/-- The scanner tries the second characters in turn and ends with the mark that the next character decides on. -/
theorem Before.mark_eq {d : Char} {doubles : List (Char × Punct)} {single : Punct}
    (h : Before text start (d :: rest)) (one : single.spelling = [d])
    (two : ∀ double ∈ doubles, double.2.spelling = [d, double.1]) :
    mark text start single doubles (start.forward 1) =
      token text start (.punct (chosen single doubles rest.head?))
        (start.forward (chosen single doubles rest.head?).spelling.length) := by
  induction doubles with
  | nil =>
    rw [mark, chosen, List.find?_nil, Option.map_none, Option.getD_none, one]
    rfl
  | cons double doubles ih =>
    obtain ⟨second, double⟩ := double
    rw [mark]
    by_cases next : rest.head? = some second
    · have taken := (h.next.accept_eq second).trans (if_pos next)
      rw [bind_of_ok taken, if_pos rfl, chosen, List.find?_cons_of_pos (by simpa using next), Option.map_some,
        Option.getD_some, two _ List.mem_cons_self, forward_forward]
      rfl
    · have left := (h.next.accept_eq second).trans (if_neg next)
      rw [bind_of_ok left, if_neg Bool.false_ne_true, chosen, List.find?_cons_of_neg (by simpa using next)]
      exact ih fun double mem => two double (List.mem_cons_of_mem _ mem)

/-! ### The first piece -/

/-- Where a mark starts the text, the longest one is taken. -/
theorem Before.agrees_mark {d : Char} {doubles : List (Char × Punct)} {single p : Punct}
    (h : Before text start (d :: rest)) (marks : marksAt d = some (doubles, single))
    (longest : Punct.startOf? (d :: rest) = some p) :
    Agrees (InLine keepComments start)
      (.ok ⟨some (.punct p), p.spelling, (d :: rest).drop p.spelling.length⟩)
      (mark text start single doubles (start.forward 1)) := by
  obtain ⟨one, two⟩ := spelling_of_marksAt marks
  obtain ⟨starts, -⟩ := Punct.startOf?_eq_some_iff.1 longest
  rw [startOf?_of_marksAt marks, Option.some.injEq] at longest
  rw [h.mark_eq one two, longest]
  rw [← List.prefix_iff_eq_append.1 starts] at h
  exact h.agrees_token (by simp)

/-- After its first character a comment or a token is taken as the piece is read. The cases are those of the scanner,
and the slash comes first since two of them start a comment. -/
theorem Before.agrees_scanText {d : Char} (h : Before text start (d :: rest)) (black : ¬Piece.isBlank d) :
    Agrees (InLine keepComments start) (Piece.read start.position d rest)
      (scanText text keepComments start d (start.forward 1)) := by
  rw [Piece.read, if_neg black, scanText]
  -- The slash is in the table of marks as well, and two of them are no mark.
  by_cases slash : d = '/'
  · subst slash
    by_cases second : rest.head? = some '/'
    · rw [if_pos rfl, if_pos ⟨rfl, second⟩, bind_of_ok ((h.next.accept_eq _).trans (if_pos second)), if_pos rfl,
        forward_forward]
      obtain ⟨body, rfl⟩ := List.head?_eq_some_iff.1 second
      exact h.agrees_comment
    · have longest := startOf?_of_marksAt (d := '/') rfl rest
      rw [if_pos rfl, if_neg fun both => second both.2,
        bind_of_ok ((h.next.accept_eq _).trans (if_neg second)), if_neg Bool.false_ne_true]
      simp only [longest]
      exact h.agrees_mark rfl longest
  · rw [if_neg slash, if_neg fun both => slash both.1]
    cases marks : marksAt d with
    | some table =>
      obtain ⟨doubles, single⟩ := table
      have longest := startOf?_of_marksAt marks rest
      simp only [longest]
      exact h.agrees_mark marks longest
    | none =>
      simp only [startOf?_of_marksAt_none marks rest]
      by_cases double : d = '"'
      · subst double
        exact h.agrees_string
      rw [if_neg double, if_neg double]
      by_cases single : d = '\''
      · subst single
        exact h.agrees_char
      rw [if_neg single, if_neg single]
      by_cases digit : d.isDigit
      · rw [if_pos digit, if_pos digit]
        exact h.agrees_number
      rw [if_neg digit, if_neg digit]
      by_cases letter : Piece.isWordStart d
      · rw [if_pos letter, if_pos letter]
        exact h.agrees_word
      rw [if_neg letter, if_neg letter]
      exact .refused

/-- What the scanner takes first is the piece that is cut first. -/
theorem Before.agrees_scanOne {d : Char} (h : Before text start (d :: rest)) :
    Agrees (fun piece token? c => token? = piece.token? start.position keepComments ∧ c = start.past piece.lexeme)
      (Piece.read start.position d rest) (scanOne text keepComments start) := by
  rw [scanOne, bind_of_ok get_apply, bind_of_ok h.advance_eq, List.head?_cons, Option.getD_some]
  by_cases blank : Piece.isBlank d
  · rw [Piece.read, if_pos blank]
    by_cases newline : d = '\n'
    · subst newline
      rw [if_neg (by decide), if_pos rfl]
      exact .accepted ⟨rfl, rfl⟩
    · have other : d = ' ' ∨ d = '\r' ∨ d = '\t' := by
        simpa [Piece.isBlank, newline, or_assoc] using blank
      rw [if_pos other]
      exact .accepted ⟨rfl, (@past_of_line [d] (by simpa using Ne.symm newline) start).symm⟩
  · have other : ¬(d = ' ' ∨ d = '\r' ∨ d = '\t') ∧ d ≠ '\n' := by
      simpa [Piece.isBlank, or_assoc, and_assoc] using blank
    rw [if_neg other.1, if_neg other.2]
    refine (h.agrees_scanText blank).imp ?_
    rintro piece _ _ read ⟨rfl, rfl⟩
    exact ⟨rfl, (past_of_line (Piece.newline_notMem_of_read read blank) start).symm⟩

/-! ### The whole text -/

theorem Before.scanAll_nil (h : Before text c []) (bound : Nat) :
    scanAll text keepComments (bound + 1) c = .ok [Token.eof c.position] c := by
  rw [scanAll, bind_of_ok get_apply, if_pos (h.length_le_iff.2 rfl), pure_apply]

/-- Piece by piece, the scanner takes what is cut. -/
theorem Before.agrees_scanAll {bound : Nat} (h : Before text c rest) (enough : rest.length ≤ bound) :
    Agrees (fun tokens taken _ => taken = tokens) (Token.scanFrom keepComments bound c.position rest)
      (scanAll text keepComments (bound + 1) c) := by
  induction bound generalizing c rest with
  | zero =>
    rw [Nat.le_zero, List.length_eq_zero_iff] at enough
    subst enough
    rw [h.scanAll_nil]
    exact .accepted rfl
  | succ bound ih =>
    cases rest with
    | nil =>
      rw [h.scanAll_nil]
      exact .accepted rfl
    | cons d rest =>
      rw [scanAll, bind_of_ok get_apply, if_neg h.not_length_le, Token.scanFrom]
      refine h.agrees_scanOne.bind ?_
      rintro piece _ _ read ⟨rfl, rfl⟩
      have cut := Piece.read_cut read
      rw [← cut.append_eq] at h
      have later : Before text (c.past piece.lexeme) piece.rest := h.move rfl
      refine (ih later (cut.length_le enough)).bind ?_
      rintro tokens _ _ - rfl
      exact .accepted rfl

end Scanner

/-- The scanner with a cursor gives the tokens of a source, or the cause why it has none. It never cuts
outside of the text. -/
theorem scan_eq (source : String) (keepComments : Bool) :
    scan source keepComments = (Token.scan source keepComments).mapError .refused := by
  have start : Before source.toList {} source.toList := ⟨Nat.zero_le _, rfl⟩
  exact (start.agrees_scanAll (Nat.le_refl _)).outcome_eq

end Cursor

end MiniC
