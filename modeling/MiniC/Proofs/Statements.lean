import MiniC.Proofs.Declarations

/-!
# Statements and blocks

The readers of statements and blocks call each other with less and less depth. Each reads what the grammar has for
it, if the others do with the depth that is left to them (`readsStatements`).
-/

namespace MiniC

open Grammar

namespace Stmt

/-! ## First tokens -/

/-- A declaration starts with a name, as an expression may. -/
theorem simple_first {ks : List Token.Kind} {s : Stmt} (h : Simple ks s) :
    ∃ k ks', ks = k :: ks' ∧ Expr.StartsOperand k := by
  rcases h with ⟨⟨⟨type⟩, names⟩ | ⟨target, value⟩⟩ | phrase
  · exact ⟨_, _, rfl, .inr (.inl ⟨_, rfl⟩)⟩
  · obtain ⟨k, ks', rfl, starts⟩ := Expr.exists_first target
    exact ⟨k, _, rfl, starts⟩
  · exact Expr.exists_first phrase

/-- A simple statement starts with a token that an expression can start with. -/
theorem simpleStatement_first {k : Token.Kind} {ks : List Token.Kind} {s : Stmt}
    (h : SimpleStatement (k :: ks) s) : Expr.StartsOperand k := by
  generalize same : k :: ks = ks' at h
  obtain ⟨phrase⟩ := h
  obtain ⟨k', ks', rfl, starts⟩ := simple_first phrase
  cases same
  exact starts

/-- Of the keywords only the truth values start a simple statement, so all others tell a statement of another kind. -/
theorem simpleStatement_keyword {word : Keyword} {ks : List Token.Kind} {s : Stmt}
    (h : SimpleStatement (.keyword word :: ks) s) : word = .trueK ∨ word = .falseK :=
  Expr.startsOperand_keyword (simpleStatement_first h)

/-- Every statement has a token. -/
theorem not_statement_nil {s : Stmt} : ¬ Statement [] s := by
  intro h
  generalize same : [] = ks at h
  cases h with
  | simple h =>
    obtain ⟨phrase⟩ := h
    exact absurd same (by simp)
  | compound h =>
    cases h
    cases same
  | conditional h => cases h <;> cases same
  | _ => cases same

theorem statement_length_pos {ks : List Token.Kind} {s : Stmt} (h : Statement ks s) : 0 < ks.length :=
  List.length_pos_iff.2 (by rintro rfl; exact not_statement_nil h)

/-! ## Each kind of statement -/

section Kinds

variable {d n : Nat}

/-- A `while` loop after its keyword. -/
theorem reads_while (block : (readBlock d).Reads n Compound Parser.anything) :
    (conditionParser >>= fun condition => readBlock d >>= fun body => pure (.whileLoop condition body)).Reads n
      (fun ks s => Statement (.keyword .whileK :: ks) s) Parser.anything := by
  refine ((conditionParser_reads n).andThen (fun condition => block.map (Stmt.whileLoop condition))
    fun _ _ => trivial).congr fun ks s => ?_
  constructor
  · rintro ⟨_, condition, ks', rfl, ⟨ks, rfl, phrase⟩, body, block, rfl⟩
    exact .whileLoop phrase block
  · intro h
    cases h with
    | simple h => exact absurd (simpleStatement_keyword h) (by decide)
    | compound h => cases h
    | conditional h => cases h
    | whileLoop phrase block => exact ⟨_, _, _, rfl, ⟨_, rfl, phrase⟩, _, block, rfl⟩

/-- A `do` loop after its keyword. The semicolon belongs to it. -/
theorem reads_doWhile (block : (readBlock d).Reads n Compound Parser.anything) :
    (readBlock d >>= fun body => Parser.keyword .whileK >>= fun _ => conditionParser >>= fun condition =>
      Parser.punct .semicolon >>= fun _ => pure (.doWhile body condition)).Reads n
      (fun ks s => Statement (.keyword .doK :: ks) s) Parser.anything := by
  refine (block.andThen (fun body => Parser.reads_keyword_bind ((conditionParser_reads n).closed trivial
    fun condition => Parser.reads_pure (Stmt.doWhile body condition)) (Nat.le_succ n))
    fun _ _ => trivial).congr fun ks s => ?_
  constructor
  · rintro ⟨ks, body, _, rfl, block, _, rfl, _, condition, _, rfl, ⟨ks', rfl, phrase⟩, rfl, rfl⟩
    exact .doWhile block phrase
  · intro h
    cases h with
    | simple h => exact absurd (simpleStatement_keyword h) (by decide)
    | compound h => cases h
    | conditional h => cases h
    | doWhile block phrase => exact ⟨_, _, _, rfl, block, _, rfl, _, _, _, rfl, ⟨_, rfl, phrase⟩, rfl, rfl⟩

/-- A `for` loop after its keyword. Each part of the head ends at the mark after it. -/
theorem reads_for (block : (readBlock d).Reads n Compound Parser.anything) :
    (Parser.punct .leftParen >>= fun _ => forInitParser >>= fun init => Parser.punct .semicolon >>= fun _ =>
      Expr.parser >>= fun condition => Parser.punct .semicolon >>= fun _ => forStepParser >>= fun step =>
      Parser.punct .rightParen >>= fun _ => readBlock d >>= fun body =>
      pure (.forLoop init condition step body)).Reads n
      (fun ks s => Statement (.keyword .forK :: ks) s) Parser.anything := by
  refine (Parser.reads_punct_bind ((forInitParser_reads n).closed (.inl rfl) fun init =>
    (Expr.parser_reads n).closed (stops_of_none rfl) fun condition =>
    (forStepParser_reads n).closed (.inr rfl) fun step => block.map (Stmt.forLoop init condition step))
    (Nat.le_succ n)).congr fun ks s => ?_
  constructor
  · rintro ⟨_, rfl, ks₁, init, _, rfl, start, ks₂, condition, _, rfl, phrase, ks₃, step, ks₄, rfl, assignment,
      body, block, rfl⟩
    have loop := Statement.forLoop start phrase assignment block
    simpa using loop
  · intro h
    cases h with
    | simple h => exact absurd (simpleStatement_keyword h) (by decide)
    | compound h => cases h
    | conditional h => cases h
    | forLoop start phrase assignment block =>
      exact ⟨_, by simp, _, _, _, rfl, start, _, _, _, rfl, phrase, _, _, _, rfl, assignment, _, block, rfl⟩

/-- A block starts with a brace. -/
theorem compound_head? {ks : List Token.Kind} {body : Block} (h : Compound ks body) :
    ks.head? = some (.punct .leftBrace) := by
  cases h
  rfl

/-- What comes after the parameters of a function: its result, if one is written, and its body. -/
theorem reads_result (block : (readBlock d).Reads n Compound Parser.anything) (f : TypeExpr → Block → Stmt) :
    (Parser.accept (.punct .arrow) >>= fun found =>
      if found then TypeExpr.parser >>= fun result => readBlock d >>= fun body => pure (f result body)
      else readBlock d >>= fun body => pure (f ⟨Primitive.void.name, []⟩ body)).Reads n
      (fun ks s => ∃ ks₁ result ks₂ body, ks = ks₁ ++ ks₂ ∧ Result ks₁ result ∧ Compound ks₂ body ∧
        f result body = s)
      Parser.anything := by
  have written := (TypeExpr.parser_reads n).andThen (fun result => block.map (f result)) (by
    rintro result ks _ next ⟨body, block, -⟩ -
    rw [compound_head? block]
    exact ⟨nofun, nofun⟩)
  refine (Parser.reads_accept written (block.map _) ?_ (Nat.le_succ n)).congr fun ks s => ?_
  · rintro ks _ next ⟨body, block, -⟩ -
    rw [compound_head? block]
    nofun
  · constructor
    · rintro (⟨_, rfl, ks₁, result, ks₂, rfl, type, body, block, rfl⟩ | ⟨body, block, rfl⟩)
      · exact ⟨_, result, ks₂, body, rfl, .written type, block, rfl⟩
      · exact ⟨[], _, ks, body, rfl, .missing, block, rfl⟩
    · rintro ⟨_, result, ks₂, body, rfl, _ | type, block, rfl⟩
      · exact .inr ⟨body, block, rfl⟩
      · exact .inl ⟨_, rfl, _, result, ks₂, rfl, type, body, block, rfl⟩

/-- A function after its keyword. Where the arrow is missing the body must come, and a body does not start with an
arrow. -/
theorem reads_function (block : (readBlock d).Reads n Compound Parser.anything) :
    (Parser.identifier >>= fun name => Parser.punct .leftParen >>= fun _ => Parameter.listParser >>= fun parameters =>
      Parser.accept (.punct .arrow) >>= fun found =>
      if found then TypeExpr.parser >>= fun result => readBlock d >>= fun body =>
        pure (.function name parameters result body)
      else readBlock d >>= fun body => pure (.function name parameters ⟨Primitive.void.name, []⟩ body)).Reads n
      (fun ks s => Statement (.keyword .fnK :: ks) s) Parser.anything := by
  refine (Parser.reads_identifier_bind (fun name => Parser.reads_punct_bind ((Parameter.listParser_reads n).andThen
    (fun parameters => reads_result block fun result body => .function name parameters result body)
    fun _ _ => trivial) (Nat.le_succ n)) (Nat.le_succ n)).congr fun ks s => ?_
  constructor
  · rintro ⟨name, _, rfl, _, rfl, _, parameters, _, rfl, ⟨ks₁, rfl, formals⟩, ks₂, result, ks₃, body, rfl, type,
      block, rfl⟩
    have function : Statement _ (.function name parameters result body) := .function formals type block
    simpa using function
  · intro h
    cases h with
    | simple h => exact absurd (simpleStatement_keyword h) (by decide)
    | compound h => cases h
    | conditional h => cases h
    | function formals type block =>
      exact ⟨_, _, rfl, _, by simp, _, _, _, rfl, ⟨_, rfl, formals⟩, _, _, _, _, rfl, type, block, rfl⟩

/-- What is printed is an expression up to the semicolon. -/
theorem reads_print (n : Nat) :
    (Expr.parser >>= fun value => Parser.punct .semicolon >>= fun _ => pure (.print value)).Reads n
      (fun ks s => Statement (.keyword .printK :: ks) s) Parser.anything := by
  refine (reads_value Stmt.print n).congr fun ks s => ?_
  constructor
  · rintro ⟨ks, value, rfl, phrase, rfl⟩
    exact .print phrase
  · intro h
    cases h with
    | simple h => exact absurd (simpleStatement_keyword h) (by decide)
    | compound h => cases h
    | conditional h => cases h
    | print phrase => exact ⟨_, _, rfl, phrase, rfl⟩

/-- What is read into is parsed as any expression; whether it is a place is a question for checking. -/
theorem reads_input (n : Nat) :
    (Expr.parser >>= fun target => Parser.punct .semicolon >>= fun _ => pure (.input target)).Reads n
      (fun ks s => Statement (.keyword .inputK :: ks) s) Parser.anything := by
  refine (reads_value Stmt.input n).congr fun ks s => ?_
  constructor
  · rintro ⟨ks, target, rfl, phrase, rfl⟩
    exact .input phrase
  · intro h
    cases h with
    | simple h => exact absurd (simpleStatement_keyword h) (by decide)
    | compound h => cases h
    | conditional h => cases h
    | input phrase => exact ⟨_, _, rfl, phrase, rfl⟩

/-- A `break` is its keyword and a semicolon. -/
theorem reads_break (n : Nat) :
    (Parser.punct .semicolon >>= fun _ => pure .breakLoop).Reads n
      (fun ks s => Statement (.keyword .breakK :: ks) s) Parser.anything := by
  refine (Parser.reads_punct_bind (Parser.reads_pure Stmt.breakLoop) (Nat.le_succ n)).congr fun ks s => ?_
  constructor
  · rintro ⟨_, rfl, rfl, rfl⟩
    exact .breakLoop
  · intro h
    cases h with
    | simple h => exact absurd (simpleStatement_keyword h) (by decide)
    | compound h => cases h
    | conditional h => cases h
    | breakLoop => exact ⟨_, rfl, rfl, rfl⟩

/-- A `continue` is its keyword and a semicolon. -/
theorem reads_continue (n : Nat) :
    (Parser.punct .semicolon >>= fun _ => pure .continueLoop).Reads n
      (fun ks s => Statement (.keyword .continueK :: ks) s) Parser.anything := by
  refine (Parser.reads_punct_bind (Parser.reads_pure Stmt.continueLoop) (Nat.le_succ n)).congr fun ks s => ?_
  constructor
  · rintro ⟨_, rfl, rfl, rfl⟩
    exact .continueLoop
  · intro h
    cases h with
    | simple h => exact absurd (simpleStatement_keyword h) (by decide)
    | compound h => cases h
    | conditional h => cases h
    | continueLoop => exact ⟨_, rfl, rfl, rfl⟩

/-- A `return` after its keyword, with a value or without. -/
theorem reads_return (n : Nat) :
    returnParser.Reads n (fun ks s => Statement (.keyword .returnK :: ks) s) Parser.anything := by
  refine (returnParser_reads n).congr fun ks s => ?_
  constructor
  · rintro (⟨rfl, rfl⟩ | ⟨ks, value, rfl, phrase, rfl⟩)
    · exact .returnNothing
    · exact .returnValue phrase
  · intro h
    cases h with
    | simple h => exact absurd (simpleStatement_keyword h) (by decide)
    | compound h => cases h
    | conditional h => cases h
    | returnNothing => exact .inl ⟨rfl, rfl⟩
    | returnValue phrase => exact .inr ⟨_, _, rfl, phrase, rfl⟩

/-! ## Statements -/

/-- No `else` comes next, which an `if` before it would take. -/
def NoElse (next : Option Token.Kind) : Prop :=
  next ≠ some (.keyword .elseK)

/-- At any other token a simple statement is read. -/
theorem read_simple {token : Token}
    (same : ∀ tokens, read (d + 1) (token :: tokens) = simpleStatementParser (token :: tokens))
    (only : ∀ {ks s}, Statement (token.kind :: ks) s → SimpleStatement (token.kind :: ks) s) :
    (read (d + 1)).ReadsFrom token n Statement NoElse :=
  (simpleStatementParser_reads n).always.starting same (fun _ _ => ⟨only, .simple⟩) fun _ h =>
    not_statement_nil (.simple h)

/-- What is read at a first token, by its kind. -/
theorem read_readsFrom (token : Token) (block : (readBlock d).Reads n Compound Parser.anything)
    (conditional : (readIf d).Reads n Conditional NoElse) :
    (read (d + 1)).ReadsFrom token n Statement NoElse := by
  obtain ⟨kind, lexeme, position⟩ := token
  cases kind with
  | keyword word =>
    cases word with
    | ifK =>
      -- A conditional is not read behind its keyword: it reads the keyword itself, after `else` as well.
      refine conditional.starting (fun _ => rfl) (fun ks s => ⟨fun h => ?_, .conditional⟩) nofun
      cases h with
      | simple h => exact absurd (simpleStatement_keyword h) (by decide)
      | compound h => cases h
      | conditional h => exact h
    | whileK => exact (reads_while block).always.after (fun _ => rfl) (Nat.le_succ n)
    | doK => exact (reads_doWhile block).always.after (fun _ => rfl) (Nat.le_succ n)
    | forK => exact (reads_for block).always.after (fun _ => rfl) (Nat.le_succ n)
    | fnK => exact (reads_function block).always.after (fun _ => rfl) (Nat.le_succ n)
    | printK => exact (reads_print n).always.after (fun _ => rfl) (Nat.le_succ n)
    | inputK => exact (reads_input n).always.after (fun _ => rfl) (Nat.le_succ n)
    | breakK => exact (reads_break n).always.after (fun _ => rfl) (Nat.le_succ n)
    | continueK => exact (reads_continue n).always.after (fun _ => rfl) (Nat.le_succ n)
    | returnK => exact (reads_return n).always.after (fun _ => rfl) (Nat.le_succ n)
    | _ =>
      refine read_simple (fun _ => rfl) fun h => ?_
      cases h with
      | simple h => exact h
      | compound h => cases h
      | conditional h => cases h
  | punct mark =>
    by_cases brace : mark = .leftBrace
    · subst brace
      refine (block.map Stmt.block).always.starting (fun _ => rfl) (fun ks s => ⟨fun h => ?_, ?_⟩) ?_
      · cases h with
        | simple h => exact absurd (Expr.startsOperand_punct (simpleStatement_first h)) (by decide)
        | compound h => exact ⟨_, h, rfl⟩
        | conditional h => cases h
      · rintro ⟨body, h, rfl⟩
        exact .compound h
      · rintro _ ⟨body, h, rfl⟩
        cases h
    · refine read_simple (fun tokens => ?_) fun h => ?_
      · cases mark <;> first | rfl | exact absurd rfl brace
      · cases h with
        | simple h => exact h
        | compound h =>
          cases h
          exact absurd rfl brace
        | conditional h => cases h
  | _ =>
    refine read_simple (fun _ => rfl) fun h => ?_
    cases h with
    | simple h => exact h
    | compound h => cases h
    | conditional h => cases h

/-! ## Blocks -/

/-- The statements of a block with its closing brace. -/
def Closed (ks : List Token.Kind) (ss : List Stmt) : Prop :=
  ∃ ks', ks = ks' ++ [.punct .rightBrace] ∧ Sequence ks' ss

/-- A block needs its brace. -/
theorem not_closed_nil (ss : List Stmt) : ¬ Closed [] ss := by
  rintro ⟨ks, same, -⟩
  exact absurd same (by simp)

/-- A block is its opening brace and what is read up to the closing one, which has one token less. -/
theorem readBlock_reads {m : Nat} (statements : (readUntilBrace d).Reads m Closed Parser.anything)
    (room : n ≤ m + 1) : (readBlock (d + 1)).Reads n Compound Parser.anything := by
  refine (Parser.reads_punct_bind (statements.map fun statements => Block.mk statements none) room).congr
    fun ks body => ?_
  constructor
  · rintro ⟨_, rfl, ss, ⟨ks, rfl, phrase⟩, rfl⟩
    exact .intro phrase
  · rintro ⟨phrase⟩
    exact ⟨_, rfl, _, ⟨_, rfl, phrase⟩, rfl⟩

/-- The first token of a statement neither closes a block nor belongs to the statement before. -/
theorem statement_head? {ks : List Token.Kind} {s : Stmt} (h : Statement ks s) (next : Option Token.Kind) :
    ks.head?.or next ≠ some (.punct .rightBrace) ∧ NoElse (ks.head?.or next) := by
  cases h with
  | simple h =>
    obtain ⟨phrase⟩ := h
    obtain ⟨k, ks, rfl, starts⟩ := simple_first phrase
    constructor
    · intro same
      cases same
      exact absurd (Expr.startsOperand_punct starts) (by decide)
    · intro same
      cases same
      exact absurd (Expr.startsOperand_keyword starts) (by decide)
  | compound h => cases h; exact ⟨nofun, nofun⟩
  | conditional h => cases h <;> exact ⟨nofun, nofun⟩
  | _ => exact ⟨nofun, nofun⟩

/-- No statement starts with `else`, so statements may come after an `if` without being taken for its alternative. -/
theorem sequence_noElse {ks : List Token.Kind} {ss : List Stmt} (h : Sequence ks ss) {next : Option Token.Kind}
    (ends : NoElse next) : NoElse (ks.head?.or next) := by
  cases h with
  | nil => exact ends
  | cons first others =>
    rw [List.head?_append, Option.or_assoc]
    exact (statement_head? first _).2

/-- Statements are read until the brace comes, which starts none. Each takes a token, so the rest has one less. -/
theorem readUntilBrace_reads {m : Nat} (statement : (read d).Reads n Statement NoElse)
    (statements : (readUntilBrace d).Reads m Closed Parser.anything) (room : n ≤ m + 1) :
    (readUntilBrace (d + 1)).Reads n Closed Parser.anything := by
  have more := statement.bind (fun s => statements.map (s :: ·))
    (by
      rintro s _ _ next ⟨ss, ⟨ks, rfl, phrase⟩, rfl⟩ -
      rw [List.head?_append, Option.or_assoc]
      exact sequence_noElse phrase nofun)
    (by
      intro ks s phrase
      have := statement_length_pos phrase
      omega)
  have choice : (Parser.accept (.punct .rightBrace) >>= fun found =>
      if found then pure [] else read d >>= fun s => readUntilBrace d >>= fun ss => pure (s :: ss)).Reads n Closed
      Parser.anything := by
    refine (Parser.reads_accept (Parser.reads_pure []) more ?_ (Nat.le_succ n)).congr fun ks ss => ?_
    · rintro _ _ next ⟨ks₁, s, ks₂, rfl, phrase, -⟩ -
      rw [List.head?_append, Option.or_assoc]
      exact (statement_head? phrase _).1
    · constructor
      · rintro (⟨_, rfl, rfl, rfl⟩ | ⟨ks₁, s, _, rfl, first, ss, ⟨ks₂, rfl, others⟩, rfl⟩)
        · exact ⟨[], rfl, .nil⟩
        · exact ⟨ks₁ ++ ks₂, (List.append_assoc ..).symm, .cons first others⟩
      · rintro ⟨_, rfl, _ | ⟨first, others⟩⟩
        · exact .inl ⟨_, rfl, rfl, rfl⟩
        · exact .inr ⟨_, _, _, List.append_assoc .., first, _, ⟨_, rfl, others⟩, rfl⟩
  -- Only the error differs at the end of the tokens.
  refine Parser.reads_of_readsFrom (fun token => choice.starting (fun tokens => ?_) (fun _ _ => Iff.rfl)
    not_closed_nil) nofun not_closed_nil
  by_cases brace : token.kind = .punct .rightBrace
  · rw [bind_of_ok (Parser.accept_cons brace)]
    obtain ⟨kind, lexeme, position⟩ := token
    cases brace
    rfl
  · have other : nextKind (token :: tokens) ≠ some (.punct .rightBrace) := fun same => brace (Option.some.inj same)
    rw [bind_of_ok (Parser.accept_of_ne other)]
    obtain ⟨kind, lexeme, position⟩ := token
    cases kind with
    | punct mark => cases mark <;> first | rfl | exact absurd rfl brace
    | _ => rfl

/-- What comes after an `else`. -/
theorem reads_otherwise (block : (readBlock d).Reads n Compound Parser.anything)
    (conditional : (readIf d).Reads n Conditional NoElse) (condition : Expr) (body : Block) :
    (Parser.peek? >>= fun next =>
      match next with
      | some (.keyword .ifK) => readIf d >>= fun otherwise => pure (Stmt.ifElse condition body otherwise)
      | _ => readBlock d >>= fun otherwise => pure (Stmt.ifElse condition body (.block otherwise))).Reads n
      (fun ks s => (∃ otherwise, Conditional ks otherwise ∧ Stmt.ifElse condition body otherwise = s) ∨
        ∃ otherwise, Compound ks otherwise ∧ Stmt.ifElse condition body (.block otherwise) = s)
      NoElse := by
  refine Parser.reads_peek (.keyword .ifK) (conditional.map _)
    (block.map fun otherwise => Stmt.ifElse condition body (.block otherwise)).always ?_ ?_ ?_ ?_
  · intro tokens here
    obtain ⟨⟨_, lexeme, position⟩, tokens, rfl, rfl⟩ := nextKind_eq_some here
    rfl
  · intro tokens there
    cases tokens with
    | nil => rfl
    | cons token tokens =>
      obtain ⟨kind, lexeme, position⟩ := token
      cases kind with
      | keyword word => cases word <;> first | rfl | exact absurd rfl there
      | _ => rfl
  · rintro ks _ ⟨otherwise, phrase, -⟩
    cases phrase <;> rfl
  · rintro ks _ next ⟨otherwise, phrase, -⟩ -
    rw [compound_head? phrase]
    nofun

/-- An `if` takes the `else` that comes after it. So it must not stand before one that belongs to another. -/
theorem readIf_reads {m : Nat} (block : (readBlock d).Reads m Compound Parser.anything)
    (conditional : (readIf d).Reads m Conditional NoElse) (room : n ≤ m + 1) :
    (readIf (d + 1)).Reads n Conditional NoElse := by
  refine (Parser.reads_keyword_bind ((conditionParser_reads m).andThen (fun condition => block.andThen
    (fun body => Parser.reads_accept (reads_otherwise block conditional condition body)
      (Parser.reads_pure (Stmt.ifThen condition body)) ?_ (Nat.le_succ m)) fun _ _ => trivial)
    fun _ _ => trivial) room).congr fun ks s => ?_
  · rintro _ _ next ⟨rfl, -⟩ noElse
    exact noElse
  · constructor
    · rintro ⟨_, rfl, _, condition, _, rfl, ⟨ks, rfl, phrase⟩, ks', body, _, rfl, block,
        ⟨ks'', rfl, ⟨otherwise, phrase', rfl⟩ | ⟨otherwise, phrase', rfl⟩⟩ | ⟨rfl, rfl⟩⟩
      · exact .elseIf phrase block phrase'
      · exact .ifElse phrase block phrase'
      · rw [List.append_nil]
        exact .ifThen phrase block
    · rintro (⟨phrase, block⟩ | ⟨phrase, block, phrase'⟩ | ⟨phrase, block, phrase'⟩)
      · exact ⟨_, rfl, _, _, _, rfl, ⟨_, rfl, phrase⟩, _, _, [], (List.append_nil _).symm, block, .inr ⟨rfl, rfl⟩⟩
      · exact ⟨_, rfl, _, _, _, rfl, ⟨_, rfl, phrase⟩, _, _, _, rfl, block, .inl ⟨_, rfl, .inr ⟨_, phrase', rfl⟩⟩⟩
      · exact ⟨_, rfl, _, _, _, rfl, ⟨_, rfl, phrase⟩, _, _, _, rfl, block, .inl ⟨_, rfl, .inl ⟨_, phrase', rfl⟩⟩⟩

end Kinds

/-- What the readers of statements read at a given depth. A third of it is used up by a block within a statement
within a block, which takes a token at least. -/
structure ReadsStatements (d : Nat) : Prop where
  statement : ∀ {n : Nat}, 3 * n ≤ d + 1 → (read d).Reads n Statement NoElse
  conditional : ∀ {n : Nat}, 3 * n ≤ d + 2 → (readIf d).Reads n Conditional NoElse
  block : ∀ {n : Nat}, 3 * n ≤ d + 2 → (readBlock d).Reads n Compound Parser.anything
  untilBrace : ∀ {n : Nat}, 3 * n ≤ d → (readUntilBrace d).Reads n Closed Parser.anything

/-- Without depth only the empty list of tokens counts, and nothing in the grammar is empty. -/
theorem readsStatements_zero : ReadsStatements 0 := by
  constructor <;> intro n bound <;> obtain rfl : n = 0 := by omega
  · exact Parser.reads_fail fun _ => not_statement_nil
  · exact Parser.reads_fail nofun
  · exact Parser.reads_fail nofun
  · exact Parser.reads_fail not_closed_nil

/-- By induction on the depth: every reader calls the others with less of it. -/
theorem readsStatements (d : Nat) : ReadsStatements d := by
  induction d with
  | zero => exact readsStatements_zero
  | succ d ih =>
    constructor <;> intro n bound
    · refine Parser.reads_of_readsFrom (fun token => read_readsFrom token (ih.block (by omega))
        (ih.conditional (by omega))) nofun fun _ => not_statement_nil
    · have room : 3 * (n - 1) ≤ d + 2 := by omega
      exact readIf_reads (ih.block room) (ih.conditional room) (by omega)
    · have room : 3 * (n - 1) ≤ d := by omega
      exact readBlock_reads (ih.untilBrace room) (by omega)
    · have room : 3 * (n - 1) ≤ d := by omega
      exact readUntilBrace_reads (ih.statement (by omega)) (ih.untilBrace room) (by omega)

end Stmt

end MiniC
