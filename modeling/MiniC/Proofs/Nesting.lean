import MiniC.Proofs.Calls

/-!
# Nesting of calls

What a call does depends only on the answers to calls on fewer tokens, and to calls of lower rank on as many
(`Answers.agree_perform`). Two things follow by induction. On the groups and the depth: every reader takes the tokens
that its call has to take (`Call.takes`). On the nesting: of four calls nested in each other one comes after a token
that has been taken, so no call is nested more than about four times as deeply as there are tokens
(`Answers.nested_eq`).
-/

namespace MiniC

/-! ## Agreement -/

namespace Answers

open MiniC.Parser

/-- Two ways to answer agree on the calls that a call of the given level and rank makes on at most `n` tokens: those on
fewer tokens, and those of a lower rank. -/
structure AgreeBelow (level rank n : Nat) (f g : Answers) : Prop where
  agree : ∀ {α : Type} (call : Call α) (m : Nat), call.level ≤ level → (m < n ∨ m ≤ n ∧ call.rank < rank) →
    Agree 0 m call.least (f.read call) (g.read call)

variable {level rank n m : Nat} {f g : Answers} {α : Type}

namespace AgreeBelow

/-- Agreement on at most `n` tokens is agreement on fewer. -/
theorem fewer (h : AgreeBelow level rank n f g) (le : m ≤ n) : AgreeBelow level rank m f g where
  agree call k known below := h.agree call k known (by omega)

/-- A call after a token has been taken. -/
theorem after (h : AgreeBelow level rank n f g) (call : Call α) (known : call.level ≤ level) (lt : m < n) :
    Agree 0 m call.least (f.read call) (g.read call) :=
  h.agree call m known (.inl lt)

/-- A call before a token has been taken. -/
theorem first (h : AgreeBelow level rank n f g) (call : Call α) (known : call.level ≤ level)
    (lower : call.rank < rank) : Agree 0 n call.least (f.read call) (g.read call) :=
  h.agree call n known (.inr ⟨Nat.le_refl _, lower⟩)

/-- An expression after a token has been taken, at whatever binding strength. -/
theorem expression (h : AgreeBelow level rank n f g) (strength : Nat) (lt : m < n) :
    Agree 0 m 1 (f.read (.expression strength)) (g.read (.expression strength)) :=
  h.after (.expression strength) (Nat.zero_le _) lt

/-- A block after a token has been taken. Blocks belong to the group of the statements, so the level is theirs. -/
theorem block (h : AgreeBelow 3 rank n f g) (lt : m < n) : Agree 0 m 1 (f.read .block) (g.read .block) :=
  h.after .block (Nat.le_refl _) lt

end AgreeBelow

/-- What follows a mark in front of an operand: the mark has been taken, so every call here is on fewer tokens. -/
theorem agree_prefixed (h : AgreeBelow 0 0 n f g) (lt : m < n) (mark : Punct) (token : Token) :
    Agree 0 m 0 (f.prefixed mark token) (g.prefixed mark token) := by
  unfold prefixed
  split
  case h_1 op strength _ => exact (h.expression strength lt).last fun operand => Expr.unary op operand
  case h_2 => exact agree_throw _

/-- An operand takes its first token itself, so the calls for what is nested in it are on fewer tokens. -/
theorem agree_operand (h : AgreeBelow 0 0 n f g) : Agree 0 n 1 f.operand g.operand := by
  refine (agree_next .expression).seq (Nat.le_refl _) fun token m lt => ?_
  cases token.kind with
  | punct mark =>
    cases mark with
    | leftParen =>
      refine (h.expression 0 lt).seq (Nat.zero_le _) fun inner _ _ => ?_
      exact (agree_punct _).last fun _ => inner
    | _ => exact agree_prefixed h lt _ token
  | keyword word =>
    cases word with
    | trueK | falseK => exact agree_pure _
    | _ => exact agree_throw _
  | comment | endOfFile => exact agree_throw _
  | _ => exact agree_pure _

/-- Each operator takes its sign before the operand on the right is called for, and the operators after it are called
on what is left, so the list makes calls on fewer tokens only. It may be empty, and so takes nothing for sure. -/
theorem agree_operators (h : AgreeBelow 0 0 n f g) (strength : Nat) (left : Expr) :
    Agree 0 n 0 (f.operators strength left) (g.operators strength left) := by
  -- Each turn of the loop has taken a token before the next one is called for.
  have again (left : Expr) (m : Nat) (lt : m < n) :
      Agree 0 m 0 (f.read (.operators strength left)) (g.read (.operators strength left)) :=
    h.after (.operators strength left) (Nat.le_refl _) lt
  refine agree_peek (agree_pure _) fun kind => ?_
  split
  case h_1 =>
    split
    case isTrue => exact agree_pure _
    case isFalse =>
      refine agree_skip.seq (Nat.zero_le _) fun _ m lt => ?_
      refine (h.expression 0 lt).seq (Nat.zero_le _) fun position k le => ?_
      refine (agree_punct _).seq (Nat.zero_le _) fun _ j le' => ?_
      exact again (.index left position) j (by omega)
  case h_2 =>
    split
    case isTrue => exact agree_pure _
    case isFalse =>
      refine agree_skip.seq (Nat.zero_le _) fun _ m lt => ?_
      refine (h.after .arguments (Nat.le_refl _) lt).seq (Nat.zero_le _) fun arguments k le => ?_
      exact again (.call left arguments) k (by omega)
  case h_3 =>
    split
    case h_1 => exact agree_pure _
    case h_2 op own _ =>
      split
      case isTrue => exact agree_pure _
      case isFalse =>
        refine agree_skip.seq (Nat.zero_le _) fun _ m lt => ?_
        refine (h.expression (own + 1) lt).seq (Nat.zero_le _) fun right k le => ?_
        exact again (.binary op left right) k (by omega)
  case h_4 => exact agree_pure _

/-! ### Types and declared names -/

/-- To look further for a name is to look behind a mark or a length in brackets, which is on fewer tokens. -/
theorem agree_nameFollows (h : AgreeBelow 1 0 n f g) : Agree 0 n 0 f.nameFollows g.nameFollows := by
  have further (rest : List Token) (lt : rest.length < n) :
      Agree 0 n 0 (ahead (f.read .nameFollows) rest) (ahead (g.read .nameFollows) rest) :=
    agree_ahead (h.after .nameFollows (Nat.le_refl _) lt) (Nat.le_refl _)
  refine .each fun tokens _ le => ?_
  unfold nameFollows
  split
  case h_1 => exact ⟨_, _, agree_pure true, rfl, rfl⟩
  case h_2 => exact ⟨_, _, further _ le, rfl, rfl⟩
  case h_3 => exact ⟨_, _, further _ (by simp only [List.length_cons] at le; omega), rfl, rfl⟩
  case h_4 => exact ⟨_, _, further _ (by simp only [List.length_cons] at le; omega), rfl, rfl⟩
  case h_5 => exact ⟨_, _, agree_pure false, rfl, rfl⟩

/-- A declaration starts with the name of a type, and the rest is looked for behind it. -/
theorem agree_declarationAhead (h : AgreeBelow (level + 1) rank n f g) :
    Agree 0 n 0 f.declarationAhead g.declarationAhead := by
  refine .each fun tokens _ le => ?_
  unfold declarationAhead
  split
  case h_1 => exact ⟨_, _, agree_ahead (h.after .nameFollows (Nat.le_add_left _ _) le) (Nat.le_refl _), rfl, rfl⟩
  case h_2 => exact ⟨_, _, agree_pure false, rfl, rfl⟩

/-- The length of an array is read without any calls, so there is nothing to agree on but what is taken. -/
theorem agree_readLength (line : Nat) : Agree 0 n 0 (TypeExpr.readLength line) (TypeExpr.readLength line) := by
  refine (Agree.refl (takes_accept _)).seq (Nat.le_refl _) fun negative m _ => ?_
  refine agree_peek (agree_fail _) fun kind => ?_
  split
  case h_1 =>
    refine agree_skip.seq (Nat.zero_le _) fun _ k _ => ?_
    refine (agree_punct _).seq (Nat.zero_le _) fun _ j _ => ?_
    extract_lets size
    split
    case isTrue => exact agree_throw _
    case isFalse => exact agree_pure _
  case h_2 => exact agree_fail _

/-- Each qualifier is taken before the next one is called for. -/
theorem agree_qualifiers (h : AgreeBelow 1 0 n f g) : Agree 0 n 0 f.qualifiers g.qualifiers := by
  have again (m : Nat) (lt : m < n) : Agree 0 m 0 (f.read .qualifiers) (g.read .qualifiers) :=
    h.after .qualifiers (Nat.le_refl _) lt
  refine agree_head (agree_pure _) fun token => ?_
  split
  case h_1 =>
    refine agree_skip.seq (Nat.zero_le _) fun _ m lt => ?_
    exact (again m lt).map _
  case h_2 =>
    refine agree_skip.seq (Nat.zero_le _) fun _ m lt => ?_
    refine (agree_readLength _).seq (Nat.le_refl _) fun length k le => ?_
    exact (again k (by omega)).map _
  case h_3 => exact agree_pure _

/-- A type takes the token of its base, and calls for the qualifiers behind it. -/
theorem agree_typeExpr (h : AgreeBelow (level + 1) rank n f g) : Agree 0 n 1 f.typeExpr g.typeExpr := by
  refine agree_identifier.seq (Nat.le_refl _) fun name m lt => ?_
  exact (h.after .qualifiers (Nat.le_add_left _ _) lt).map _

/-- A declared name is taken before its initial value is called for. -/
theorem agree_declarator (h : AgreeBelow level rank n f g) : Agree 0 n 1 f.declarator g.declarator := by
  refine agree_identifier.seq (Nat.le_refl _) fun name m lt => ?_
  refine agree_accept _ (l := 1) (fun k le => ?_) (agree_pure _) (Nat.zero_le _)
  exact (h.expression 0 (by omega)).map _

/-- The type of a parameter stands behind its name and a colon, and the name makes sure of the token that is taken. -/
theorem agree_parameter (h : AgreeBelow (level + 1) rank n f g) : Agree 0 n 1 f.parameter g.parameter := by
  refine agree_identifier.seq (Nat.le_refl _) fun name m lt => ?_
  refine (agree_punct _).seq (Nat.zero_le _) fun _ k le => ?_
  exact (agree_typeExpr (h.fewer (by omega))).last _

/-- Parameters are called for where the list starts, which their lower rank allows. -/
theorem agree_parameterList (h : AgreeBelow 3 2 n f g) : Agree 0 n 1 f.parameterList g.parameterList := by
  refine agree_accept _ (l := 0) (fun k le => agree_pure _) ?_ (Nat.le_refl _)
  refine (h.first .parameters (Nat.le_succ _) Nat.two_pos).seq (Nat.le_refl _) fun parameters m _ => ?_
  exact (agree_punct _).last _

/-! ### Statements -/

/-- A declaration starts with its type; the names are called for behind it. -/
theorem agree_declaration (h : AgreeBelow 3 rank n f g) : Agree 0 n 1 f.declaration g.declaration := by
  refine (agree_typeExpr h).seq (Nat.le_refl _) fun ty m lt => ?_
  exact (h.after .declarators (Nat.le_succ _) lt).last _

/-- An assignment calls for an expression where it starts, which has a lower rank, and for the other one behind the
sign. -/
theorem agree_assignment (h : AgreeBelow 3 2 n f g) : Agree 0 n 1 f.assignment g.assignment := by
  refine (h.first (.expression 0) (Nat.zero_le _) Nat.one_lt_two).seq (Nat.le_refl _) fun target m lt => ?_
  refine agree_accept _ (l := 1) (fun k le => ?_) (agree_pure _) (Nat.zero_le _)
  exact (h.expression 0 (by omega)).map _

/-- To tell a declaration from an assignment takes nothing, so both may be called for on all of the tokens. -/
theorem agree_simple (h : AgreeBelow 3 2 n f g) : Agree 0 n 1 f.simple g.simple := by
  refine (agree_declarationAhead h).bind (l := 1) (fun declares m le => ?_) (Nat.le_refl _)
  cases declares with
  | true => exact agree_declaration (h.fewer le)
  | false => exact agree_assignment (h.fewer le)

/-- A condition is called for behind its bracket. -/
theorem agree_condition (h : AgreeBelow 3 rank n f g) : Agree 0 n 1 f.condition g.condition := by
  refine (agree_punct _).seq (Nat.le_refl _) fun _ m lt => ?_
  refine (h.expression 0 lt).seq (Nat.zero_le _) fun condition k _ => ?_
  exact (agree_punct _).last _

/-- The first part of a loop's head is a simple statement, some of which are refused after they have been read. -/
theorem agree_forInit (h : AgreeBelow 3 2 n f g) : Agree 0 n 1 f.forInit g.forInit := by
  refine (agree_simple h).seq (Nat.le_refl _) fun statement m _ => ?_
  split
  case h_1 => exact agree_pure _
  case h_2 => exact agree_pure _
  case h_3 => exact agree_fail _

/-- The last part of a loop's head is a simple statement too, of which all but assignments are refused. -/
theorem agree_forStep (h : AgreeBelow 3 2 n f g) : Agree 0 n 1 f.forStep g.forStep := by
  refine (agree_simple h).seq (Nat.le_refl _) fun statement m _ => ?_
  split
  case h_1 => exact agree_pure _
  case h_2 => exact agree_fail _

/-- An expression is called for where the statement starts, and the semicolon is read without calls. -/
theorem agree_ended (h : AgreeBelow 3 2 n f g) (statement : Expr → Stmt) :
    Agree 0 n 1 (f.ended statement) (g.ended statement) := by
  refine (h.first (.expression 0) (Nat.zero_le _) Nat.one_lt_two).seq (Nat.le_refl _) fun value m _ => ?_
  exact (agree_punct _).last _

/-- The condition takes its bracket, so the body is called for on fewer tokens. -/
theorem agree_whileLoop (h : AgreeBelow 3 rank n f g) : Agree 0 n 1 f.whileLoop g.whileLoop := by
  refine (agree_condition h).seq (Nat.le_refl _) fun condition m lt => ?_
  exact (h.block lt).last _

/-- The body is a block, which has a lower rank, and the condition stands behind it. -/
theorem agree_doWhile (h : AgreeBelow 3 2 n f g) : Agree 0 n 1 f.doWhile g.doWhile := by
  refine (h.first .block (Nat.le_refl _) Nat.two_pos).seq (Nat.le_refl _) fun body m lt => ?_
  refine (agree_keyword _).seq (Nat.zero_le _) fun _ k le => ?_
  refine (agree_condition (h.fewer (by omega))).seq (Nat.zero_le _) fun condition j _ => ?_
  exact (agree_punct _).last _

/-- The bracket of the head is taken first, so all parts of the head and the body are on fewer tokens. -/
theorem agree_forLoop (h : AgreeBelow 3 2 n f g) : Agree 0 n 1 f.forLoop g.forLoop := by
  refine (agree_punct _).seq (Nat.le_refl _) fun _ m lt => ?_
  refine (agree_forInit (h.fewer (by omega))).seq (Nat.zero_le _) fun init m₁ le₁ => ?_
  refine (agree_punct _).seq (Nat.zero_le _) fun _ m₂ le₂ => ?_
  refine (h.expression 0 (by omega)).seq (Nat.zero_le _) fun condition m₃ le₃ => ?_
  refine (agree_punct _).seq (Nat.zero_le _) fun _ m₄ le₄ => ?_
  refine (agree_forStep (h.fewer (by omega))).seq (Nat.zero_le _) fun step m₅ le₅ => ?_
  refine (agree_punct _).seq (Nat.zero_le _) fun _ m₆ le₆ => ?_
  exact (h.block (by omega)).last _

/-- The name is taken first, so whatever follows it is on fewer tokens: the parameters, the type of the result, which
may be missing, and the body. -/
theorem agree_function (h : AgreeBelow 3 2 n f g) : Agree 0 n 1 f.function g.function := by
  refine agree_identifier.seq (Nat.le_refl _) fun name m lt => ?_
  refine (agree_punct _).seq (Nat.zero_le _) fun _ m₁ le₁ => ?_
  refine (agree_parameterList (h.fewer (by omega))).seq (Nat.zero_le _) fun parameters m₂ le₂ => ?_
  refine (Agree.refl (takes_accept _)).seq (Nat.le_refl _) fun arrow m₃ le₃ => ?_
  have body (result : TypeExpr) (m₄ : Nat) (le₄ : m₄ ≤ m₃) :=
    (h.block (show m₄ < n by omega)).last fun body => Stmt.function name parameters result body
  cases arrow with
  | true =>
    refine (agree_typeExpr (h.fewer (by omega))).seq (Nat.zero_le _) fun result m₄ le₄ => ?_
    exact body result m₄ (by omega)
  | false => exact (agree_pure _).seq (Nat.zero_le _) body

/-- A value is called for unless a semicolon is there already. -/
theorem agree_returnValue (h : AgreeBelow 3 2 n f g) : Agree 0 n 1 f.returnValue g.returnValue := by
  refine agree_peek (agree_ended (h.fewer (Nat.zero_le _)) _) fun kind => ?_
  split
  case h_1 => exact agree_skip.map _
  case h_2 => exact (agree_ended h _).any

/-- A simple statement with its semicolon. -/
theorem agree_simpleStatement (h : AgreeBelow 3 2 n f g) :
    Agree 0 n 1 f.simpleStatement g.simpleStatement := by
  refine (agree_simple h).seq (Nat.le_refl _) fun statement m _ => ?_
  exact (agree_punct _).last _

/-- A statement is told by its first token. A block and a conditional read theirs themselves and have a lower rank;
the other keywords are taken before anything is called for. -/
theorem agree_statement (h : AgreeBelow 3 2 n f g) : Agree 0 n 1 f.statement g.statement := by
  have skipping {p q : Parser Stmt} (rest : ∀ m, m ≤ n → AgreeBelow 3 2 m f g → Agree 0 m 1 p q) :
      Agree 1 n 1 (skip >>= fun _ => p) (skip >>= fun _ => q) :=
    agree_skip.seq (Nat.le_refl _) fun _ m lt =>
      (rest m (Nat.le_of_lt lt) (h.fewer (Nat.le_of_lt lt))).mono (Nat.zero_le _)
  refine agree_peek (agree_simpleStatement (h.fewer (Nat.zero_le _))) fun kind => ?_
  split
  case h_1 => exact (h.first .block (Nat.le_refl _) Nat.two_pos).any.map _
  case h_2 => exact (h.first .conditional (Nat.le_refl _) Nat.two_pos).any
  case h_3 => exact skipping fun _ _ h => agree_whileLoop h
  case h_4 => exact skipping fun _ _ h => agree_doWhile h
  case h_5 => exact skipping fun _ _ h => agree_forLoop h
  case h_6 => exact skipping fun _ _ h => agree_function h
  case h_7 => exact skipping fun _ _ h => agree_ended h _
  case h_8 => exact skipping fun _ _ h => agree_ended h _
  case h_9 => exact skipping fun _ _ _ => (agree_punct _).map _
  case h_10 => exact skipping fun _ _ _ => (agree_punct _).map _
  case h_11 => exact skipping fun _ _ h => agree_returnValue h
  case h_12 => exact (agree_simpleStatement h).any

/-- What stands behind `else` is a conditional or a block; both come after the tokens of the conditional before it. -/
theorem agree_alternative (h : AgreeBelow 3 rank n f g) (lt : m < n) (condition : Expr) (body : Block) :
    Agree 0 m 1 (f.alternative condition body) (g.alternative condition body) := by
  refine agree_peek ((h.block (Nat.lt_of_le_of_lt (Nat.zero_le _) lt)).map _) fun kind => ?_
  split
  case h_1 => exact (h.after .conditional (Nat.le_refl _) lt).any.map _
  case h_2 => exact (h.block lt).any.map _

/-- A conditional takes its keyword and its condition before its body is called for. -/
theorem agree_conditional (h : AgreeBelow 3 rank n f g) : Agree 0 n 1 f.conditional g.conditional := by
  refine (agree_keyword _).seq (Nat.le_refl _) fun _ m lt => ?_
  refine (agree_condition (h.fewer (by omega))).seq (Nat.zero_le _) fun condition m₁ le₁ => ?_
  refine (h.block (by omega)).seq (Nat.zero_le _) fun body m₂ le₂ => ?_
  exact agree_accept _ (fun m₃ le₃ => agree_alternative h (by omega) condition body) (agree_pure _) (Nat.zero_le _)

/-- The brace is taken first, so the statements are called for on fewer tokens. -/
theorem agree_block (h : AgreeBelow 3 rank n f g) : Agree 0 n 1 f.block g.block := by
  refine (agree_punct _).seq (Nat.le_refl _) fun _ m lt => ?_
  exact (h.after .untilBrace (Nat.le_refl _) lt).last _

/-- Statements up to a brace: either the brace is taken, or a statement, which has a lower rank, and then the rest. -/
theorem agree_untilBrace (h : AgreeBelow 3 3 n f g) : Agree 0 n 1 f.untilBrace g.untilBrace := by
  refine agree_peek (agree_fail _) fun kind => ?_
  split
  case h_1 => exact agree_fail _
  case h_2 => exact agree_skip.map _
  case h_3 =>
    refine (h.first .statement (Nat.le_refl _) (Nat.lt_succ_self _)).any.seq (Nat.le_refl _) fun statement m lt => ?_
    exact (h.after .untilBrace (Nat.le_refl _) lt).last _

/-- Statements up to the end: a statement takes a token, so the rest is called for on fewer tokens. -/
theorem agree_statements (h : AgreeBelow 3 3 n f g) : Agree 0 n 0 f.statements g.statements := by
  refine agree_peek (agree_pure _) fun kind => ?_
  refine (h.first .statement (Nat.le_refl _) (Nat.lt_succ_self _)).any.seq (Nat.zero_le _) fun statement m lt => ?_
  exact (h.after .statements (Nat.le_refl _) lt).map _

/-- If the calls that it makes are answered alike, a call does the same, and takes what it has to take. -/
theorem agree_perform (call : Call α) (h : AgreeBelow call.level call.rank n f g) :
    Agree 0 n call.least (f.perform call) (g.perform call) := by
  cases call with
  | expression strength =>
    refine (h.first .operand (Nat.le_refl _) Nat.one_pos).seq (Nat.le_refl _) fun left m lt => ?_
    exact h.after (.operators strength left) (Nat.le_refl _) lt
  | operand => exact agree_operand h
  | operators strength left => exact agree_operators h strength left
  | arguments =>
    refine agree_accept _ (fun _ _ => agree_pure _) ?_ (Nat.le_refl _)
    exact h.first .argumentList (Nat.le_refl _) (Nat.lt_succ_self _)
  | argumentList =>
    exact agree_listTurn (h.first (.expression 0) (Nat.le_refl _) Nat.one_lt_two)
      (fun m lt => h.after .argumentList (Nat.le_refl _) lt) fun _ _ => agree_punct _
  | nameFollows => exact agree_nameFollows h
  | qualifiers => exact agree_qualifiers h
  | declarators =>
    exact agree_listTurn (agree_declarator h) (fun m lt => h.after .declarators (Nat.le_refl _) lt)
      fun _ _ => agree_pure _
  | parameters =>
    exact agree_listTurn (agree_parameter h) (fun m lt => h.after .parameters (Nat.le_refl _) lt)
      fun _ _ => agree_pure _
  | statement => exact agree_statement h
  | conditional => exact agree_conditional h
  | block => exact agree_block h
  | untilBrace => exact agree_untilBrace h
  | statements => exact agree_statements h

end Answers

/-! ## Progress -/

namespace Call

open MiniC.Parser Answers

variable {α β : Type} {m n : Nat}

/-- There are four ranks, so chains of calls on the same tokens are at most four long. -/
theorem rank_le (call : Call α) : call.rank ≤ 3 := by
  cases call <;> simp [rank]

/-- Plain lists call for nothing where they start but what has no rank either. -/
theorem rank_of_isList {call : Call α} (list : call.isList) : call.rank = 0 := by
  cases call with
  | nameFollows | qualifiers | declarators | parameters => rfl
  | _ => cases list

/-- Without any depth a call takes what it takes at least if those of the groups below do. -/
theorem takes_zero (call : Call α)
    (lower : ∀ {β : Type} (call' : Call β) (depth : Nat) (tokens : List Token), call'.level < call.level →
      Takes call'.least tokens (call'.readerAt depth tokens)) (tokens : List Token) :
    Takes call.least tokens (call.readerAt 0 tokens) := by
  have below (level : Nat) (lt : level < call.level) (n : Nat) :
      AgreeBelow level 0 n (within call.level 0) (within call.level 0) :=
    ⟨fun call' _ known _ => .refl fun tokens => lower call' _ tokens (by omega)⟩
  cases call with
  | nameFollows => exact takes_nothing _ _
  | qualifiers => exact takes_nothing _ _
  | statements => exact takes_nothing _ _
  | declarators =>
    exact ((agree_declarator (below 1 (Nat.lt_succ_self _) tokens.length)).map _).takes (Nat.zero_le _) (Nat.le_refl _)
  | parameters =>
    exact ((agree_parameter (below 1 (Nat.lt_succ_self _) tokens.length)).map _).takes (Nat.zero_le _) (Nat.le_refl _)
  | _ => exact (agree_fail _).takes (Nat.zero_le _) (Nat.le_refl _)

/-- Every reader takes what its call has to take, with whatever depth. -/
theorem takes (call : Call α) (depth : Nat) (tokens : List Token) :
    Takes call.least tokens (call.readerAt depth tokens) := by
  generalize same : call.level = level
  induction level using Nat.strongRecOn generalizing α depth tokens with
  | ind level lower =>
    induction depth generalizing α tokens with
    | zero => exact call.takes_zero (fun call' depth tokens lt => lower _ (same ▸ lt) call' depth tokens rfl) tokens
    | succ depth ih =>
      rw [call.readerAt_succ]
      refine (agree_perform call (n := tokens.length) ⟨fun call' _ known _ => .refl fun tokens => ?_⟩).takes
        (Nat.zero_le _) (Nat.le_refl _)
      -- A call of the same group has less depth, any other is of a lower group, whatever its depth.
      show Takes call'.least tokens (call'.readerAt (if call'.level = call.level then depth else _) tokens)
      split
      case isTrue equal => exact ih call' tokens (equal.trans same)
      case isFalse other => exact lower call'.level (by omega) call' _ tokens rfl

/-- The depth that a parser gives its reader is enough for the tokens it is given. -/
theorem enough_le_ownDepth (call : Call α) (tokens : List Token) :
    call.enough tokens.length ≤ call.ownDepth tokens := by
  have := call.rank_le
  unfold enough ownDepth Expr.depthFor
  split <;> omega

/-- The calls that a call makes within its group need less depth. -/
theorem enough_lt {call : Call α} {call' : Call β} (same : call'.level = call.level)
    (below : m < n ∨ m ≤ n ∧ call'.rank < call.rank) : call'.enough m < call.enough n := by
  have := call'.rank_le
  have kinds : call'.isList = call.isList := by
    unfold isList
    rw [same]
  unfold enough
  rw [kinds]
  split
  case isTrue list =>
    have := rank_of_isList list
    omega
  case isFalse => omega

/-- Where there are no tokens, plain lists need no depth. -/
theorem perform_nil {call : Call α} (list : call.isList) (answers : Answers) :
    answers.perform call [] = call.readerAt 0 [] := by
  cases call with
  | nameFollows | qualifiers | declarators | parameters => rfl
  | _ => cases list

end Call

/-! ## Nesting -/

namespace Answers

open MiniC.Parser

variable {α : Type}

/-- Performing a call with its calls nested deeply enough does what its reader does with enough depth, whatever the
answers are to calls nested more deeply: there are none. -/
theorem nested_eq (deepest : Answers) (call : Call α) {depth depth' : Nat} {tokens : List Token}
    (nesting : 4 * tokens.length + call.rank + 1 ≤ depth) (enough : call.enough tokens.length ≤ depth') :
    (deepest.nested depth).read call tokens = call.readerAt depth' tokens := by
  induction depth generalizing α depth' tokens with
  | zero => omega
  | succ depth ih =>
    show (deepest.nested depth).perform call tokens = _
    cases depth' with
    | zero =>
      -- No depth is enough for a plain list, and there only if no tokens are left.
      unfold Call.enough at enough
      split at enough
      case isTrue list =>
        rw [List.length_eq_zero_iff.1 (Nat.le_zero.1 enough)]
        exact Call.perform_nil list _
      case isFalse => omega
    | succ depth' =>
      rw [call.readerAt_succ]
      refine (agree_perform call ⟨fun call' m known below => ?_⟩).same (Nat.zero_le _) (Nat.le_refl _)
      have := call'.rank_le
      refine ⟨fun {rest} _ le => ih call' (by omega) ?_, fun _ _ => call'.takes _ _⟩
      split
      case isTrue same =>
        have := Call.enough_lt (m := rest.length) (n := tokens.length) same (by omega)
        omega
      case isFalse => exact call'.enough_le_ownDepth rest

/-- What answers with readers agrees with itself: all of them take what they have to take. -/
theorem agreeBelow_within (level rank n level' depth : Nat) :
    AgreeBelow level rank n (within level' depth) (within level' depth) :=
  ⟨fun call _ _ _ => .refl fun tokens => call.takes _ tokens⟩

/-- Looking for a declaration with nested calls finds what the parser's own look-ahead finds. -/
theorem nested_declarationAhead (deepest : Answers) {depth : Nat} {tokens : List Token}
    (nesting : 4 * (tokens.length + 1) ≤ depth) :
    (deepest.nested depth).declarationAhead tokens = .ok (Stmt.startsDeclaration tokens) tokens := by
  have below : AgreeBelow 1 0 tokens.length (deepest.nested depth) (within 3 0) := by
    refine ⟨fun call m known below => ⟨fun {rest} _ le => deepest.nested_eq call ?_ ?_, fun _ _ => call.takes _ _⟩⟩
    · have := call.rank_le
      omega
    · rw [if_neg (by omega)]
      exact call.enough_le_ownDepth rest
  rw [(agree_declarationAhead below).same (Nat.zero_le _) (Nat.le_refl _)]
  exact within_declarationAhead tokens

/-- Reading a whole source with nested calls is reading it with the parser. -/
theorem nested_program (deepest : Answers) {depth : Nat} {tokens : List Token}
    (nesting : 4 * (tokens.length + 1) ≤ depth) :
    (deepest.nested depth).program tokens = Block.parser tokens := by
  have all : (deepest.nested depth).read .statements tokens = Stmt.readAll (Expr.depthFor tokens) tokens :=
    deepest.nested_eq .statements nesting (Call.statements.enough_le_ownDepth tokens)
  show ((deepest.nested depth).read .statements >>= _ : Parser Block) tokens =
    (Stmt.readAll (Expr.depthFor tokens) >>= _ : Parser Block) tokens
  cases answer : Stmt.readAll (Expr.depthFor tokens) tokens with
  | ok statements rest => rw [bind_of_ok (all.trans answer), bind_of_ok answer]
  | error e rest => rw [bind_of_error (all.trans answer), bind_of_error answer]

end Answers

/-- Reading makes progress and ends, whatever the tokens are: none, some without an end, or some with ends between them.

A statement, an expression, a type, and every turn of a list of declared names, parameters or arguments takes at least a
token if it succeeds. No reader goes back or beyond the first end, be it that it succeeds or fails. Looking for a
declaration takes nothing. And calls nest at most `4 * (n + 1)` deep if there are `n` tokens up to the end: with calls
performed to this depth or more, and answered arbitrarily (`deepest`) below it, the answers are those of the parsers for
a look-ahead from any place, for a whole source, and for an expression that is read where any number of calls before,
which may have failed, have stopped. -/
theorem Parser.advances_and_nesting_bounded :
    (∀ depth, (Stmt.read depth).Advances 1) ∧
    (∀ depth strength, (Expr.readAt depth strength).Advances 1) ∧
    TypeExpr.parser.Advances 1 ∧
    (turn Declarator.parser).Advances 1 ∧
    (turn Parameter.parser).Advances 1 ∧
    (∀ depth, (turn (Expr.readAt depth 0)).Advances 1) ∧
    (∀ {α : Type} (call : Call α) (depth : Nat), (call.readerAt depth).Advances call.least) ∧
    Block.parser.Advances 0 ∧
    ∀ (deepest : Answers) (tokens : List Token) (more : Nat),
      let nested := deepest.nested (4 * (Token.endPlace tokens + 1) + more)
      (∀ place, nested.declarationAhead ((Token.readable tokens).drop place) =
        .ok (Stmt.startsDeclaration ((Token.readable tokens).drop place)) ((Token.readable tokens).drop place)) ∧
      nested.program (Token.readable tokens) = Block.parser (Token.readable tokens) ∧
      ∀ count, ∃ place left, StandsAt tokens place left ∧
        Expr.parser.restAfter count (Token.readable tokens) = left ∧
        nested.read (.expression 0) left = Expr.parser left := by
  have below (n : Nat) : Answers.AgreeBelow 3 2 n (.within 3 0) (.within 3 0) := Answers.agreeBelow_within ..
  have expression (depth strength n : Nat) : Agree 0 n 1 (Expr.readAt depth strength) (Expr.readAt depth strength) :=
    .refl ((Call.expression strength).takes depth)
  have program (n : Nat) : Agree 0 n 0 Block.parser Block.parser :=
    (Agree.refl fun tokens => Call.statements.takes (Expr.depthFor tokens) tokens).map _
  refine ⟨?_, ?_, ?_, ?_, ?_, ?_, ?_, advances_of_agree program, ?_⟩
  · intro depth
    exact advances_of_takes (Call.statement.takes depth)
  · intro depth strength
    exact advances_of_agree (expression depth strength)
  · exact advances_of_agree fun n => Answers.agree_typeExpr (below n)
  · exact advances_of_agree fun n => agree_turn (Answers.agree_declarator (below n))
  · exact advances_of_agree fun n => agree_turn (Answers.agree_parameter (below n))
  · intro depth
    exact advances_of_agree fun n => agree_turn (expression depth 0 n)
  · intro α call depth
    exact advances_of_takes (call.takes depth)
  intro deepest tokens more nested
  have whole := Token.length_readable tokens
  refine ⟨fun place => ?_, ?_, fun count => ?_⟩
  · refine deepest.nested_declarationAhead ?_
    rw [List.length_drop]
    omega
  · exact deepest.nested_program (by omega)
  · have start : StandsAt tokens 0 (Token.readable tokens) := ⟨Nat.zero_le _, rfl⟩
    have advances : Expr.parser.Advances 0 :=
      advances_of_takes fun tokens => ((Call.expression 0).takes (Expr.depthFor tokens) tokens).mono (Nat.zero_le _)
    -- Reading that has failed has stopped somewhere before the end too, and goes on from there.
    obtain ⟨place, _, stands⟩ := standsAt_restAfter advances start count
    refine ⟨place, _, stands, rfl, ?_⟩
    have fewer := stands.length_le
    have nesting : 4 * (Expr.parser.restAfter count (Token.readable tokens)).length + 1 + 1 ≤
        4 * (Token.endPlace tokens + 1) + more := by omega
    exact deepest.nested_eq (.expression 0) nesting ((Call.expression 0).enough_le_ownDepth _)

/-- A call whose arguments the first end cuts off. Reading fails there, and reading on does not go beyond it. -/
theorem Parser.advances_and_nesting_bounded_cut :
    let tokens : List Token :=
      [⟨.identifier "f", "f", ⟨1, 1⟩⟩, ⟨.punct .leftParen, "(", ⟨1, 2⟩⟩, ⟨.integer 1, "1", ⟨1, 3⟩⟩,
        ⟨.punct .comma, ",", ⟨1, 4⟩⟩, ⟨.endOfFile, "", ⟨1, 5⟩⟩, ⟨.identifier "x", "x", ⟨2, 1⟩⟩]
    let deepest : Answers := ⟨fun _ => Parser.fail .block⟩
    Token.endPlace tokens = 4 ∧ Expr.parser.restAfter 1 (Token.readable tokens) = [] ∧
      (∃ next, 0 ≤ next ∧ StandsAt tokens next []) ∧
      (deepest.nested 20).read (.expression 0) [] = Expr.parser [] := by
  intro tokens deepest
  obtain ⟨_, expression, _, _, _, _, _, _, nesting⟩ := advances_and_nesting_bounded
  have start : StandsAt tokens 0 (Token.readable tokens) := ⟨Nat.zero_le _, rfl⟩
  have failed : Expr.readAt 20 0 (Token.readable tokens) = .error (.unexpectedEnd .expression) [] := rfl
  obtain ⟨_, _, again⟩ := nesting deepest tokens 0
  obtain ⟨_, left, _, same, answer⟩ := again 1
  subst same
  exact ⟨rfl, rfl, (expression 20 0).error start failed, answer⟩

end MiniC
