import MiniC.Expr.Parser
import MiniC.Proofs.Reading

/-!
# Strengths and levels

The reader of expressions knows strengths, the grammar knows levels. An expression that is read at a strength
is one of a level that binds at least as strongly, and the reader stops where the next token binds less.
-/

namespace MiniC

open Grammar

/-- How strongly the operators of a level bind. The operators before an operand have two strengths for the
reader; what counts is that they lie between those of products and of indices. -/
def Grammar.Level.strength : Level → Nat
  | .disjunction => 10
  | .conjunction => 20
  | .comparison => 30
  | .sum => 50
  | .product => 60
  | .unary => 70
  | .applied => 100
  | .primary => 110

/-- The strength at which the operand of an operator is read. -/
def UnaryOp.strength : UnaryOp → Nat
  | .plus | .neg | .bitNot => 90
  | .not => 80

/-- The level of what a token adds to the expression before it. -/
def Grammar.extension? : Option Token.Kind → Option Level
  | some (.punct .leftBracket) | some (.punct .leftParen) => some .applied
  | some (.punct mark) => (operator? mark).map Prod.fst
  | _ => none

/-- What comes next binds less than a strength. -/
def Stops (s : Nat) (next : Option Token.Kind) : Prop :=
  ∀ level, extension? next = some level → level.strength < s

/-- What binds less than a strength binds less than every greater one. -/
theorem Stops.mono {s s' : Nat} {next : Option Token.Kind} (h : Stops s next) (le : s ≤ s') : Stops s' next :=
  fun level same => Nat.lt_of_lt_of_le (h level same) le

/-- A token that adds nothing to an expression. -/
theorem stops_of_none {s : Nat} {next : Option Token.Kind} (h : extension? next = none) : Stops s next :=
  fun _ same => nomatch h.symm.trans same

/-- Nothing binds more strongly to what stands before it than an index or a call. -/
theorem stops_applied (next : Option Token.Kind) : Stops (Level.applied.strength + 1) next := by
  intro level same
  unfold extension? at same
  split at same
  · cases same
    decide
  · cases same
    decide
  · rename_i mark _ _
    cases mark <;> cases same <;> decide
  · cases same

namespace Expr

/-- No operator between operands binds more strongly than a product. -/
theorem strength_le_of_operator? {mark : Punct} {level : Level} {op : BinaryOp}
    (h : operator? mark = some (level, op)) : level.strength ≤ 60 := by
  cases mark <;> cases h <;> decide

/-- Operators before an operand bind more strongly than those between operands, and less than indices and calls. -/
theorem strength_bounds (op : UnaryOp) : 80 ≤ op.strength ∧ op.strength ≤ 90 := by
  cases op <;> decide

/-- The next tighter level binds no less. -/
theorem strength_tighter (level : Level) : level.strength ≤ level.tighter.strength := by
  cases level <;> decide

/-- Where operators stand between operands the next tighter level binds more. -/
theorem strength_lt_tighter {mark : Punct} {level : Level} {op : BinaryOp}
    (h : operator? mark = some (level, op)) : level.strength < level.tighter.strength := by
  cases mark <;> cases h <;> decide

/-- No level lies between a level and the next tighter one. -/
theorem strength_tighter_le {level level' : Level} (h : level.strength < level'.strength) :
    level.tighter.strength ≤ level'.strength := by
  cases level <;> cases level' <;> first | decide | exact absurd h (by decide)

/-! ## One step of the reader -/

/-- The tokens that an expression can start with. -/
def StartsOperand (k : Token.Kind) : Prop :=
  (∃ value, literal? k = some value) ∨ (∃ spelling, k = .identifier spelling) ∨ k = .punct .leftParen ∨
    ∃ mark op, k = .punct mark ∧ sign? mark = some op

/-- A mark that starts an expression is a bracket or a sign. -/
theorem startsOperand_punct {mark : Punct} (h : StartsOperand (.punct mark)) :
    mark = .leftParen ∨ (sign? mark).isSome := by
  rcases h with ⟨_, found⟩ | ⟨_, found⟩ | found | ⟨_, _, found, sign⟩
  · cases found
  · cases found
  · cases found
    exact .inl rfl
  · cases found
    exact .inr (Option.isSome_of_eq_some sign)

/-- Of the keywords only the truth values start an expression. -/
theorem startsOperand_keyword {word : Keyword} (h : StartsOperand (.keyword word)) :
    word = .trueK ∨ word = .falseK := by
  rcases h with ⟨_, found⟩ | ⟨_, found⟩ | found | ⟨_, _, found, -⟩
  · cases word <;> first | exact .inl rfl | exact .inr rfl | cases found
  · cases found
  · cases found
  · cases found

section Steps

variable {d s : Nat} {x : Expr} {token : Token} {tokens : List Token}

/-- A literal is an operand by itself. -/
theorem readOperand_literal {value : Literal} (h : literal? token.kind = some value) :
    readOperand (d + 1) (token :: tokens) = .ok (.literal value) tokens := by
  obtain ⟨kind, lexeme, position⟩ := token
  cases kind with
  | keyword word => cases word <;> cases h <;> rfl
  | _ => cases h <;> rfl

/-- A name is an operand by itself. -/
theorem readOperand_name {spelling : String} (h : token.kind = .identifier spelling) :
    readOperand (d + 1) (token :: tokens) = .ok (.name spelling) tokens := by
  obtain ⟨kind, lexeme, position⟩ := token
  cases h
  rfl

/-- Between brackets any expression may stand, so it is read at strength 0. -/
theorem readOperand_parens (h : token.kind = .punct .leftParen) :
    readOperand (d + 1) (token :: tokens) =
      (readAt d 0 >>= fun inner => Parser.punct .rightParen >>= fun _ => pure inner : Parser Expr) tokens := by
  obtain ⟨kind, lexeme, position⟩ := token
  cases h
  rfl

/-- The operand of a sign is read at the strength of the sign. -/
theorem readOperand_sign {mark : Punct} {op : UnaryOp} (h : token.kind = .punct mark)
    (sign : sign? mark = some op) :
    readOperand (d + 1) (token :: tokens) =
      (readAt d op.strength >>= fun operand => pure (.unary op operand) : Parser Expr) tokens := by
  obtain ⟨kind, lexeme, position⟩ := token
  cases h
  cases mark <;> cases sign <;> rfl

/-- An operand is read only where one starts. -/
theorem readOperand_cases {rest : List Token} (h : readOperand (d + 1) (token :: tokens) = .ok x rest) :
    StartsOperand token.kind := by
  obtain ⟨kind, lexeme, position⟩ := token
  cases kind with
  | integer value => exact .inl ⟨_, rfl⟩
  | float value => exact .inl ⟨_, rfl⟩
  | string value => exact .inl ⟨_, rfl⟩
  | char value => exact .inl ⟨_, rfl⟩
  | identifier spelling => exact .inr (.inl ⟨_, rfl⟩)
  | keyword word => cases word <;> first | exact .inl ⟨_, rfl⟩ | cases h
  | punct mark =>
    cases mark <;> first | exact .inr (.inr (.inl rfl)) | exact .inr (.inr (.inr ⟨_, _, rfl, rfl⟩)) | cases h
  | comment text => cases h
  | endOfFile => cases h

/-- An index is added to what stands before it at every strength that the reader is given: none is above 90. -/
theorem readOperators_index (h : token.kind = .punct .leftBracket) (le : s ≤ 90) :
    readOperators (d + 1) s x (token :: tokens) =
      (readAt d 0 >>= fun position => Parser.punct .rightBracket >>= fun _ =>
        readOperators d s (.index x position) : Parser Expr) tokens := by
  obtain ⟨kind, lexeme, position⟩ := token
  cases h
  have bound : ¬ indexStrength < s := Nat.not_lt.2 (Nat.le_trans le (by decide))
  show (if indexStrength < s then pure x else _ : Parser Expr) _ = _
  rw [if_neg bound]
  rfl

/-- A call is added to what stands before it at every strength that the reader is given, as an index is. -/
theorem readOperators_call (h : token.kind = .punct .leftParen) (le : s ≤ 90) :
    readOperators (d + 1) s x (token :: tokens) =
      (readArguments d >>= fun arguments => readOperators d s (.call x arguments) : Parser Expr) tokens := by
  obtain ⟨kind, lexeme, position⟩ := token
  cases h
  have bound : ¬ callStrength < s := Nat.not_lt.2 (Nat.le_trans le (by decide))
  show (if callStrength < s then pure x else _ : Parser Expr) _ = _
  rw [if_neg bound]
  rfl

/-- An operator is taken unless it binds too loosely. -/
theorem readOperators_operator {mark : Punct} {level : Level} {op : BinaryOp} (h : token.kind = .punct mark)
    (operator : operator? mark = some (level, op)) :
    readOperators (d + 1) s x (token :: tokens) =
      if level.strength < s then .ok x (token :: tokens)
      else (readAt d (level.strength + 1) >>= fun right => readOperators d s (.binary op x right) : Parser Expr)
        tokens := by
  obtain ⟨kind, lexeme, position⟩ := token
  cases h
  have choice : readOperators (d + 1) s x (⟨.punct mark, lexeme, position⟩ :: tokens) =
      (if level.strength < s then pure x else Parser.skip >>= fun _ => readAt d (level.strength + 1) >>= fun right =>
        readOperators d s (.binary op x right) : Parser Expr) (⟨.punct mark, lexeme, position⟩ :: tokens) := by
    cases mark <;> cases operator <;> rfl
  rw [choice]
  split <;> rfl

/-- An operator that binds strongly enough is taken. Its right operand is read at one more than its own strength, so
operators of the same strength group to the left. -/
theorem readOperators_binary {mark : Punct} {level : Level} {op : BinaryOp} (h : token.kind = .punct mark)
    (operator : operator? mark = some (level, op)) (le : s ≤ level.strength) :
    readOperators (d + 1) s x (token :: tokens) =
      (readAt d (level.strength + 1) >>= fun right => readOperators d s (.binary op x right) : Parser Expr)
        tokens := by
  rw [readOperators_operator h operator, if_neg (Nat.not_lt.2 le)]

/-- Where nothing can be added the loop ends with what has been read. -/
theorem readOperators_stop (stops : Stops s (nextKind tokens)) (le : s ≤ 90) :
    readOperators (d + 1) s x tokens = .ok x tokens := by
  cases tokens with
  | nil => rfl
  | cons token tokens =>
    cases kind : token.kind with
    | punct mark =>
      rw [nextKind_cons, kind] at stops
      have weak : ¬ Level.applied.strength < s := Nat.not_lt.2 (Nat.le_trans le (by decide))
      have noBracket : mark ≠ .leftBracket := fun same => weak (stops _ (same ▸ rfl))
      have noParen : mark ≠ .leftParen := fun same => weak (stops _ (same ▸ rfl))
      cases operator : operator? mark with
      | some found =>
        have weaker : found.1.strength < s := stops _ (by cases mark <;> cases operator <;> rfl)
        rw [readOperators_operator kind operator, if_pos weaker]
      | none =>
        obtain ⟨_, lexeme, position⟩ := token
        cases kind
        cases mark <;> first | rfl | exact absurd rfl noBracket | exact absurd rfl noParen | cases operator
    | _ =>
      obtain ⟨_, lexeme, position⟩ := token
      cases kind
      rfl

end Steps

/-! ## What is read is an expression -/

/-- An expression of a level is one of every level that binds more loosely. -/
theorem loosen {level level' : Level} {ks : List Token.Kind} {x : Expr} (h : Expression level ks x)
    (le : level'.strength ≤ level.strength) : Expression level' ks x := by
  cases level' <;> cases level <;>
    first
    | exact absurd le (by decide)
    | exact h
    | repeat (first | exact h | refine .tighter ?_)

/-- If the loop need not stop, what comes next is a bracket or an operator that binds strongly enough. -/
theorem Stops.cases {s : Nat} {tokens : List Token} (go : ¬ Stops s (nextKind tokens)) :
    ∃ token rest, tokens = token :: rest ∧ (token.kind = .punct .leftBracket ∨ token.kind = .punct .leftParen ∨
      ∃ mark level op, token.kind = .punct mark ∧ operator? mark = some (level, op) ∧ s ≤ level.strength) := by
  cases tokens with
  | nil => exact absurd (stops_of_none rfl) go
  | cons token rest =>
    refine ⟨token, rest, rfl, ?_⟩
    rw [nextKind_cons] at go
    cases kind : token.kind with
    | punct mark =>
      rw [kind] at go
      by_cases bracket : mark = .leftBracket
      · exact .inl (bracket ▸ rfl)
      by_cases paren : mark = .leftParen
      · exact .inr (.inl (paren ▸ rfl))
      have extension : extension? (some (.punct mark)) = (operator? mark).map Prod.fst := by
        cases mark <;> first | rfl | exact absurd rfl bracket | exact absurd rfl paren
      cases operator : operator? mark with
      | none => exact absurd (stops_of_none (by rw [extension, operator]; rfl)) go
      | some found =>
        refine .inr (.inr ⟨mark, found.1, found.2, rfl, operator, Nat.not_lt.1 fun weak => go ?_⟩)
        intro level same
        rw [extension, operator] at same
        cases same
        exact weak
    | _ => exact absurd (stops_of_none (by rw [kind]; rfl)) go

/-- What the readers of expressions find at a given depth. An operand is at least an operator with its operand;
what stands before further operators must not be able to take them itself. -/
structure ReadsExpressions (d : Nat) : Prop where
  whole : ∀ {s : Nat} {tokens rest : List Token} {x : Expr}, s ≤ 90 → readAt d s tokens = .ok x rest →
    ∃ ks level, kinds tokens = ks ++ kinds rest ∧ Expression level ks x ∧ min s 70 ≤ level.strength ∧
      Stops s (nextKind rest)
  operand : ∀ {tokens rest : List Token} {x : Expr}, readOperand d tokens = .ok x rest →
    ∃ ks level, kinds tokens = ks ++ kinds rest ∧ Expression level ks x ∧ 70 ≤ level.strength ∧
      Stops (level.strength + 1) (nextKind rest)
  operators : ∀ {s : Nat} {tokens rest : List Token} {left x : Expr} {level : Level} {ks : List Token.Kind},
    s ≤ 90 → Expression level ks left → min s 70 ≤ level.strength →
      Stops (level.strength + 1) (nextKind tokens) → readOperators d s left tokens = .ok x rest →
    ∃ ks' level', kinds tokens = ks' ++ kinds rest ∧ Expression level' (ks ++ ks') x ∧
      min s 70 ≤ level'.strength ∧ Stops s (nextKind rest)
  arguments : ∀ {tokens rest : List Token} {xs : List Expr}, readArguments d tokens = .ok xs rest →
    ∃ ks, kinds tokens = ks ++ .punct .rightParen :: kinds rest ∧
      (ks = [] ∧ xs = [] ∨ Separated (Expression .disjunction) ks xs)
  argumentList : ∀ {tokens rest : List Token} {xs : List Expr}, readArgumentList d tokens = .ok xs rest →
    ∃ ks, kinds tokens = ks ++ .punct .rightParen :: kinds rest ∧ Separated (Expression .disjunction) ks xs

/-- Without depth nothing is read. -/
theorem readsExpressions_zero : ReadsExpressions 0 where
  whole _ run := absurd run Parser.fail_ne_ok
  operand run := absurd run Parser.fail_ne_ok
  operators _ _ _ _ run := absurd run Parser.fail_ne_ok
  arguments run := absurd run Parser.fail_ne_ok
  argumentList run := absurd run Parser.fail_ne_ok

section Step

variable {d : Nat} (ih : ReadsExpressions d)

include ih

/-- An expression that is read where anything may follow. -/
theorem ReadsExpressions.loosest {tokens rest : List Token} {x : Expr} (run : readAt d 0 tokens = .ok x rest) :
    ∃ ks, kinds tokens = ks ++ kinds rest ∧ Expression .disjunction ks x := by
  obtain ⟨ks, level, split, phrase, -, -⟩ := ih.whole (Nat.zero_le _) run
  exact ⟨ks, split, loosen phrase (by cases level <;> decide)⟩

/-- What an operand is read as is an expression that binds at least as strongly as a sign, and whatever comes after it
binds no more strongly. -/
theorem readOperand_expression {tokens rest : List Token} {x : Expr}
    (run : readOperand (d + 1) tokens = .ok x rest) :
    ∃ ks level, kinds tokens = ks ++ kinds rest ∧ Expression level ks x ∧ 70 ≤ level.strength ∧
      Stops (level.strength + 1) (nextKind rest) := by
  have free : Stops (Level.primary.strength + 1) (nextKind rest) := fun level _ => by cases level <;> decide
  cases tokens with
  | nil => cases run
  | cons token tokens =>
    rcases readOperand_cases run with ⟨value, literal⟩ | ⟨spelling, kind⟩ | kind | ⟨mark, op, kind, sign⟩
    · rw [readOperand_literal literal] at run
      obtain ⟨rfl, rfl⟩ := EStateM.Result.ok.inj run
      exact ⟨[token.kind], .primary, rfl, .literal literal, by decide, free⟩
    · rw [readOperand_name kind] at run
      obtain ⟨rfl, rfl⟩ := EStateM.Result.ok.inj run
      exact ⟨[.identifier spelling], .primary, by rw [kinds_cons, kind]; rfl, .name, by decide, free⟩
    · rw [readOperand_parens kind] at run
      obtain ⟨inner, between, hinner, run⟩ := bind_eq_ok.1 run
      obtain ⟨_, rest', hclose, run⟩ := bind_eq_ok.1 run
      obtain ⟨rfl, rfl⟩ := EStateM.Result.ok.inj run
      obtain ⟨ks, split, phrase⟩ := ih.loosest hinner
      obtain ⟨closing, rfl, closed⟩ := Parser.punct_eq_ok.1 hclose
      refine ⟨parens ks, .primary, ?_, .parenthesized phrase, by decide, free⟩
      rw [kinds_cons, kind, split, kinds_cons, closed]
      simp [parens]
    · rw [readOperand_sign kind sign] at run
      obtain ⟨operand, between, hoperand, run⟩ := bind_eq_ok.1 run
      obtain ⟨rfl, rfl⟩ := EStateM.Result.ok.inj run
      obtain ⟨strong, weak⟩ := strength_bounds op
      obtain ⟨ks, level, split, phrase, least, stops⟩ := ih.whole weak hoperand
      have phrase' : Expression .unary ks operand := loosen phrase (by
        show 70 ≤ level.strength
        omega)
      refine ⟨.punct mark :: ks, .unary, by rw [kinds_cons, kind, split]; rfl, .unary sign phrase', by decide, ?_⟩
      intro level' same
      have := stops level' same
      cases level' <;> simp [Level.strength] at this ⊢ <;> omega

/-- Every turn of the loop adds to the expression on the left. What it adds binds no more strongly than the
left itself, and what it stops at binds less than the strength. -/
theorem readOperators_expression {s : Nat} {tokens rest : List Token} {left x : Expr} {level : Level}
    {ks : List Token.Kind} (le : s ≤ 90) (phrase : Expression level ks left) (least : min s 70 ≤ level.strength)
    (stops : Stops (level.strength + 1) (nextKind tokens))
    (run : readOperators (d + 1) s left tokens = .ok x rest) :
    ∃ ks' level', kinds tokens = ks' ++ kinds rest ∧ Expression level' (ks ++ ks') x ∧
      min s 70 ≤ level'.strength ∧ Stops s (nextKind rest) := by
  by_cases stop : Stops s (nextKind tokens)
  · rw [readOperators_stop stop le] at run
    obtain ⟨rfl, rfl⟩ := EStateM.Result.ok.inj run
    exact ⟨[], level, rfl, by rwa [List.append_nil], least, stop⟩
  have applied : min s 70 ≤ Level.applied.strength := by
    show min s 70 ≤ 100
    omega
  obtain ⟨token, tokens, rfl, kind | kind | ⟨mark, level', op, kind, operator, strong⟩⟩ := Stops.cases stop
  · rw [readOperators_index kind le] at run
    obtain ⟨position, between, hposition, closes⟩ := bind_eq_ok.1 run
    obtain ⟨_, between', hclose, goesOn⟩ := bind_eq_ok.1 closes
    obtain ⟨ks₁, split₁, phrase₁⟩ := ih.loosest hposition
    obtain ⟨closing, rfl, closed⟩ := Parser.punct_eq_ok.1 hclose
    have base : Expression .applied ks left := loosen phrase (Nat.le_of_lt_succ (stops .applied (by
      rw [nextKind_cons, kind]
      rfl)))
    obtain ⟨ks₂, level₂, split₂, phrase₂, least₂, stops₂⟩ :=
      ih.operators le (.index base phrase₁) applied (stops_applied _) goesOn
    refine ⟨brackets ks₁ ++ ks₂, level₂, ?_, by rwa [← List.append_assoc], least₂, stops₂⟩
    rw [kinds_cons, kind, split₁, kinds_cons, closed, split₂]
    simp [brackets]
  · rw [readOperators_call kind le] at run
    obtain ⟨arguments, between, harguments, run⟩ := bind_eq_ok.1 run
    obtain ⟨ks₁, split₁, phrase₁⟩ := ih.arguments harguments
    have callee : Expression .applied ks left := loosen phrase (Nat.le_of_lt_succ (stops .applied (by
      rw [nextKind_cons, kind]
      rfl)))
    have called : Expression .applied (ks ++ parens ks₁) (.call left arguments) := by
      rcases phrase₁ with ⟨rfl, rfl⟩ | phrase₁
      · exact .call callee
      · exact .callWith callee phrase₁
    obtain ⟨ks₂, level₂, split₂, phrase₂, least₂, stops₂⟩ := ih.operators le called applied (stops_applied _) run
    refine ⟨parens ks₁ ++ ks₂, level₂, ?_, by rwa [← List.append_assoc], least₂, stops₂⟩
    rw [kinds_cons, kind, split₁, split₂]
    simp [parens]
  · rw [readOperators_binary kind operator strong] at run
    obtain ⟨right, between, hright, run⟩ := bind_eq_ok.1 run
    have bound := strength_le_of_operator? operator
    obtain ⟨ks₁, level₁, split₁, phrase₁, least₁, stops₁⟩ := ih.whole (by omega) hright
    -- The left could not take the operator itself, so it binds at least as strongly.
    have looser : level'.strength ≤ level.strength := Nat.le_of_lt_succ (stops level' (by
      rw [nextKind_cons, kind]
      cases mark <;> cases operator <;> rfl))
    have tighter : level'.tighter.strength ≤ level₁.strength := strength_tighter_le (by omega)
    obtain ⟨ks₂, level₂, split₂, phrase₂, least₂, stops₂⟩ :=
      ih.operators le (.binary operator (loosen phrase looser) (loosen phrase₁ tighter)) (by omega) stops₁ run
    refine ⟨.punct mark :: (ks₁ ++ ks₂), level₂, ?_, ?_, least₂, stops₂⟩
    · rw [kinds_cons, kind, split₁, split₂]
      simp
    · simpa using phrase₂

/-- Arguments are read up to their closing bracket, which may come at once. -/
theorem readArguments_expressions {tokens rest : List Token} {xs : List Expr}
    (run : readArguments (d + 1) tokens = .ok xs rest) :
    ∃ ks, kinds tokens = ks ++ .punct .rightParen :: kinds rest ∧
      (ks = [] ∧ xs = [] ∨ Separated (Expression .disjunction) ks xs) := by
  rw [readArguments] at run
  obtain ⟨found, between, haccept, goesOn⟩ := bind_eq_ok.1 run
  rcases Parser.accept_eq_ok haccept with ⟨rfl, token, rfl, kind⟩ | ⟨rfl, rfl, -⟩
  · obtain ⟨rfl, rfl⟩ := EStateM.Result.ok.inj goesOn
    exact ⟨[], by rw [kinds_cons, kind]; rfl, .inl ⟨rfl, rfl⟩⟩
  · obtain ⟨ks, split, phrase⟩ := ih.argumentList goesOn
    exact ⟨ks, split, .inr phrase⟩

/-- After a comma there must be another argument. -/
theorem readArgumentList_expressions {tokens rest : List Token} {xs : List Expr}
    (run : readArgumentList (d + 1) tokens = .ok xs rest) :
    ∃ ks, kinds tokens = ks ++ .punct .rightParen :: kinds rest ∧ Separated (Expression .disjunction) ks xs := by
  rw [readArgumentList] at run
  obtain ⟨x, between, hx, run⟩ := bind_eq_ok.1 run
  obtain ⟨ks₁, split₁, phrase₁⟩ := ih.loosest hx
  obtain ⟨found, between', haccept, goesOn⟩ := bind_eq_ok.1 run
  rcases Parser.accept_eq_ok haccept with ⟨rfl, token, rfl, kind⟩ | ⟨rfl, rfl, -⟩
  · obtain ⟨others, rest', hothers, result⟩ := bind_eq_ok.1 goesOn
    obtain ⟨rfl, rfl⟩ := EStateM.Result.ok.inj result
    obtain ⟨ks₂, split₂, phrase₂⟩ := ih.argumentList hothers
    refine ⟨ks₁ ++ .punct .comma :: ks₂, ?_, .more phrase₁ phrase₂⟩
    rw [split₁, kinds_cons, kind, split₂]
    simp
  · obtain ⟨_, rest', hclose, result⟩ := bind_eq_ok.1 goesOn
    obtain ⟨rfl, rfl⟩ := EStateM.Result.ok.inj result
    obtain ⟨closing, rfl, closed⟩ := Parser.punct_eq_ok.1 hclose
    exact ⟨ks₁, by rw [split₁, kinds_cons, closed], .one phrase₁⟩

end Step

/-- By induction on the depth: every reader calls the others with less of it. -/
theorem readsExpressions (d : Nat) : ReadsExpressions d := by
  induction d with
  | zero => exact readsExpressions_zero
  | succ d ih =>
    refine ⟨?_, readOperand_expression ih, readOperators_expression ih, readArguments_expressions ih,
      readArgumentList_expressions ih⟩
    intro s tokens rest x le run
    rw [readAt] at run
    obtain ⟨left, between, hleft, run⟩ := bind_eq_ok.1 run
    obtain ⟨ks₁, level, split₁, phrase, least, stops⟩ := ih.operand hleft
    obtain ⟨ks₂, level', split₂, phrase', least', stops'⟩ := ih.operators le phrase (by omega) stops run
    exact ⟨ks₁ ++ ks₂, level', by rw [split₁, split₂, List.append_assoc], phrase', least', stops'⟩

/-! ## Every expression is read -/

/-- An operator adds to an expression what its level says. -/
theorem extension?_operator {mark : Punct} {level : Level} {op : BinaryOp}
    (h : operator? mark = some (level, op)) : extension? (some (.punct mark)) = some level := by
  cases mark <;> cases h <;> rfl

/-- A phrase is an expression's own first token before anything else. -/
theorem exists_first {level : Level} {ks : List Token.Kind} {x : Expr} :
    Expression level ks x → ∃ k ks', ks = k :: ks' ∧ StartsOperand k
  | .tighter h => exists_first h
  | .binary _ h _ | .index h _ | .call h | .callWith h _ => by
    obtain ⟨k, ks', rfl, starts⟩ := exists_first h
    exact ⟨k, _, rfl, starts⟩
  | .unary sign _ => ⟨_, _, rfl, .inr (.inr (.inr ⟨_, _, rfl, sign⟩))⟩
  | .literal found => ⟨_, _, rfl, .inl ⟨_, found⟩⟩
  | .name => ⟨_, _, rfl, .inr (.inl ⟨_, rfl⟩)⟩
  | .parenthesized _ => ⟨_, _, rfl, .inr (.inr (.inl rfl))⟩

/-- The reader goes through the tokens of a phrase and arrives at the operators after it, with enough depth left
for what is still to be read. -/
def Arrives (level : Level) (ks : List Token.Kind) (x : Expr) : Prop :=
  ∀ ⦃tokens rest : List Token⦄ ⦃d s : Nat⦄, kinds tokens = ks → Stops (level.strength + 1) (nextKind rest) →
    min s 70 ≤ level.strength → s ≤ 90 → 4 * (tokens ++ rest).length + 2 ≤ d →
      ∃ d', 4 * rest.length + 1 ≤ d' ∧ readAt d s (tokens ++ rest) = readOperators d' s x rest

/-- If what comes next binds too loosely, the reader stops there. -/
theorem Arrives.readAt_eq {level : Level} {ks : List Token.Kind} {x : Expr} (h : Arrives level ks x)
    {tokens rest : List Token} {d s b : Nat} (same : kinds tokens = ks) (stops : Stops b (nextKind rest))
    (below : b ≤ level.strength + 1) (le : b ≤ s) (least : min s 70 ≤ level.strength) (bound : s ≤ 90)
    (depth : 4 * (tokens ++ rest).length + 2 ≤ d) : readAt d s (tokens ++ rest) = .ok x rest := by
  obtain ⟨d', enough, run⟩ := h same (stops.mono below) least bound depth
  obtain ⟨d', rfl⟩ : ∃ k, d' = k + 1 := ⟨d' - 1, by omega⟩
  rw [run, readOperators_stop (stops.mono le) bound]

/-- An expression before a token that adds nothing to it. -/
theorem Arrives.read {ks : List Token.Kind} {x : Expr} (h : Arrives .disjunction ks x) {tokens rest : List Token}
    {d : Nat} (same : kinds tokens = ks) (stops : Stops 0 (nextKind rest))
    (depth : 4 * (tokens ++ rest).length + 2 ≤ d) : readAt d 0 (tokens ++ rest) = .ok x rest :=
  h.readAt_eq same stops (Nat.zero_le _) (Nat.zero_le _) (by simp) (Nat.zero_le _) depth

/-- An expression before a mark that adds nothing to it. -/
theorem Arrives.before {ks : List Token.Kind} {x : Expr} (h : Arrives .disjunction ks x) {tokens : List Token}
    {closing : Token} {mark : Punct} {d : Nat} (rest : List Token) (same : kinds tokens = ks)
    (closed : closing.kind = .punct mark) (plain : extension? (some (.punct mark)) = none)
    (depth : 4 * (tokens.length + (rest.length + 1)) + 2 ≤ d) :
    readAt d 0 (tokens ++ closing :: rest) = .ok x (closing :: rest) :=
  h.read same (stops_of_none (by rw [nextKind_cons, closed, plain]))
    (by rw [List.length_append, List.length_cons]; exact depth)

/-- After an operand the reader goes on with operators. -/
theorem readAt_of_operand {d s : Nat} {tokens rest : List Token} {x : Expr}
    (h : readOperand d tokens = .ok x rest) : readAt (d + 1) s tokens = readOperators d s x rest :=
  bind_of_ok h

/-- A list of arguments starts with what its first argument starts with. -/
theorem separated_first {ks : List Token.Kind} {xs : List Expr} (h : Separated (Expression .disjunction) ks xs) :
    ∃ k ks', ks = k :: ks' ∧ StartsOperand k := by
  cases h with
  | one h => exact exists_first h
  | more h hs =>
    obtain ⟨k, ks', rfl, starts⟩ := exists_first h
    exact ⟨k, _, rfl, starts⟩

/-- Where an argument starts the list of arguments is not empty. -/
theorem readArguments_of_list {ks : List Token.Kind} {xs : List Expr} {tokens rest : List Token} {d : Nat}
    (h : Separated (Expression .disjunction) ks xs) (same : kinds tokens = ks) :
    readArguments (d + 1) (tokens ++ rest) = readArgumentList d (tokens ++ rest) := by
  obtain ⟨k, ks', rfl, starts⟩ := separated_first h
  obtain ⟨token, tokens, rfl, rfl, -⟩ := kinds_eq_cons same
  have other : nextKind (token :: tokens ++ rest) ≠ some (.punct .rightParen) := by
    intro closed
    exact absurd (startsOperand_punct (Option.some.inj closed ▸ starts)) (by decide)
  rw [readArguments, bind_of_ok (Parser.accept_of_ne other)]
  rfl

mutual

/-- By induction on the derivation. An operator is taken by the reader of its left operand, which arrives at it,
and not by that of its right operand, which stops before the next. -/
theorem arrives {level : Level} {ks : List Token.Kind} {x : Expr} : Expression level ks x → Arrives level ks x
  | .tighter h => by
    intro tokens rest d s same stops least le depth
    have looser := strength_tighter level
    exact arrives h same (stops.mono (Nat.succ_le_succ looser)) (Nat.le_trans least looser) le depth
  | @Expression.binary level mark op _ _ left right operator hleft hright => by
    intro tokens rest d s same stops least le depth
    obtain ⟨tokens₁, tokens', rfl, same₁, same'⟩ := kinds_eq_append same
    obtain ⟨token, tokens₂, rfl, kind, same₂⟩ := kinds_eq_cons same'
    rw [List.append_assoc, List.cons_append] at depth ⊢
    -- The left operand arrives at the operator, which binds no more strongly than its own level.
    have stops₁ : Stops (level.strength + 1) (nextKind (token :: (tokens₂ ++ rest))) := by
      intro level' reached
      rw [nextKind_cons, kind, extension?_operator operator] at reached
      cases reached
      exact Nat.lt_succ_self _
    obtain ⟨d₁, enough, run⟩ := arrives hleft same₁ stops₁ least le depth
    rw [List.length_cons] at enough
    obtain ⟨d₁, rfl⟩ : ∃ k, d₁ = k + 1 := ⟨d₁ - 1, by omega⟩
    have bound := strength_le_of_operator? operator
    have tighter := strength_lt_tighter operator
    -- The right operand is read one strength higher, so it leaves operators of the same level to the loop.
    have hright' : readAt d₁ (level.strength + 1) (tokens₂ ++ rest) = .ok right rest :=
      (arrives hright).readAt_eq same₂ stops (by omega) (Nat.le_refl _) (by omega) (by omega) (by omega)
    rw [List.length_append] at enough
    refine ⟨d₁, by omega, ?_⟩
    rw [run, readOperators_binary kind operator (by omega), bind_of_ok hright']
  | @Expression.unary mark op _ operand sign h => by
    intro tokens rest d s same stops least le depth
    obtain ⟨token, tokens', rfl, kind, same'⟩ := kinds_eq_cons same
    rw [List.cons_append, List.length_cons] at depth
    obtain ⟨d, rfl⟩ : ∃ k, d = k + 2 := ⟨d - 2, by omega⟩
    obtain ⟨strong, weak⟩ := strength_bounds op
    -- Whatever the strength of the sign is, what comes after the whole binds less.
    have hoperand : readAt d op.strength (tokens' ++ rest) = .ok operand rest :=
      (arrives h).readAt_eq same' stops (Nat.le_refl _) (Nat.le_trans (by decide) strong)
        (Nat.min_le_right _ _) weak (by omega)
    rw [List.length_append] at depth
    refine ⟨d + 1, by omega, readAt_of_operand ?_⟩
    rw [List.cons_append, readOperand_sign kind sign, bind_of_ok hoperand]
    rfl
  | .index hbase hposition => by
    intro tokens rest d s same stops least le depth
    obtain ⟨tokens₁, tokens', rfl, same₁, same'⟩ := kinds_eq_append same
    obtain ⟨opening, tokens₂, closing, rfl, opened, same₂, closed⟩ := kinds_eq_enclosed same'
    rw [List.append_assoc, List.cons_append, List.append_assoc, List.singleton_append] at depth ⊢
    obtain ⟨d₁, enough, run⟩ := arrives hbase same₁ (stops_applied _) least le depth
    simp only [List.length_append, List.length_cons] at enough
    obtain ⟨d₁, rfl⟩ : ∃ k, d₁ = k + 1 := ⟨d₁ - 1, by omega⟩
    have position := (arrives hposition).before (d := d₁) rest same₂ closed rfl (by omega)
    refine ⟨d₁, by omega, ?_⟩
    rw [run, readOperators_index opened le, bind_of_ok position, bind_of_ok (Parser.punct_cons closed)]
  | .call h => by
    intro tokens rest d s same stops least le depth
    obtain ⟨tokens₁, tokens', rfl, same₁, same'⟩ := kinds_eq_append same
    obtain ⟨opening, none, closing, rfl, opened, empty, closed⟩ := kinds_eq_enclosed same'
    obtain rfl := kinds_eq_nil empty
    rw [List.append_assoc, List.cons_append, List.nil_append, List.singleton_append] at depth ⊢
    obtain ⟨d₁, enough, run⟩ := arrives h same₁ (stops_applied _) least le depth
    simp only [List.length_cons] at enough
    obtain ⟨d₁, rfl⟩ : ∃ k, d₁ = k + 2 := ⟨d₁ - 2, by omega⟩
    have arguments : readArguments (d₁ + 1) (closing :: rest) = .ok [] rest := by
      rw [readArguments, bind_of_ok (Parser.accept_cons closed)]
      rfl
    refine ⟨d₁ + 1, by omega, ?_⟩
    rw [run, readOperators_call opened le, bind_of_ok arguments]
  | .callWith h hs => by
    intro tokens rest d s same stops least le depth
    obtain ⟨tokens₁, tokens', rfl, same₁, same'⟩ := kinds_eq_append same
    obtain ⟨opening, tokens₂, closing, rfl, opened, same₂, closed⟩ := kinds_eq_enclosed same'
    rw [List.append_assoc, List.cons_append, List.append_assoc, List.singleton_append] at depth ⊢
    obtain ⟨d₁, enough, run⟩ := arrives h same₁ (stops_applied _) least le depth
    simp only [List.length_append, List.length_cons] at enough
    obtain ⟨d₁, rfl⟩ : ∃ k, d₁ = k + 2 := ⟨d₁ - 2, by omega⟩
    have list := readArgumentList_of (d := d₁) rest hs same₂ closed (by omega)
    have arguments := (readArguments_of_list hs same₂).trans list
    refine ⟨d₁ + 1, by omega, ?_⟩
    rw [run, readOperators_call opened le, bind_of_ok arguments]
  | .literal found => by
    intro tokens rest d s same stops least le depth
    obtain ⟨token, rfl, rfl⟩ := kinds_eq_singleton same
    rw [List.singleton_append] at depth ⊢
    rw [List.length_cons] at depth
    obtain ⟨d, rfl⟩ : ∃ k, d = k + 2 := ⟨d - 2, by omega⟩
    exact ⟨d + 1, by omega, readAt_of_operand (readOperand_literal found)⟩
  | .name => by
    intro tokens rest d s same stops least le depth
    obtain ⟨token, rfl, kind⟩ := kinds_eq_singleton same
    rw [List.singleton_append] at depth ⊢
    rw [List.length_cons] at depth
    obtain ⟨d, rfl⟩ : ∃ k, d = k + 2 := ⟨d - 2, by omega⟩
    exact ⟨d + 1, by omega, readAt_of_operand (readOperand_name kind)⟩
  | .parenthesized h => by
    intro tokens rest d s same stops least le depth
    obtain ⟨opening, inner, closing, rfl, opened, same₁, closed⟩ := kinds_eq_enclosed same
    rw [List.cons_append, List.append_assoc, List.singleton_append] at depth ⊢
    simp only [List.length_cons, List.length_append] at depth
    obtain ⟨d, rfl⟩ : ∃ k, d = k + 2 := ⟨d - 2, by omega⟩
    have hinner := (arrives h).before (d := d) rest same₁ closed rfl (by omega)
    refine ⟨d + 1, by omega, readAt_of_operand ?_⟩
    rw [readOperand_parens opened, bind_of_ok hinner, bind_of_ok (Parser.punct_cons closed)]
    rfl

/-- By induction on the list, with the first argument read up to the comma or the bracket after it. -/
theorem readArgumentList_of {ks : List Token.Kind} {xs : List Expr} {tokens : List Token} {closing : Token}
    {d : Nat} (rest : List Token) : Separated (Expression .disjunction) ks xs → kinds tokens = ks →
      closing.kind = .punct .rightParen → 4 * (tokens.length + (rest.length + 1)) + 3 ≤ d →
        readArgumentList d (tokens ++ closing :: rest) = .ok xs rest
  | .one h, same, closed, depth => by
    obtain ⟨d, rfl⟩ : ∃ k, d = k + 1 := ⟨d - 1, by omega⟩
    have argument := (arrives h).before (d := d) rest same closed rfl (by omega)
    have other : nextKind (closing :: rest) ≠ some (.punct .comma) := by
      rw [nextKind_cons, closed]
      nofun
    rw [readArgumentList, bind_of_ok argument, bind_of_ok (Parser.accept_of_ne other), if_neg Bool.false_ne_true,
      bind_of_ok (Parser.punct_cons closed)]
    rfl
  | .more h hs, same, closed, depth => by
    obtain ⟨tokens₁, tokens', rfl, same₁, same'⟩ := kinds_eq_append same
    obtain ⟨comma, tokens₂, rfl, kind, same₂⟩ := kinds_eq_cons same'
    rw [List.append_assoc, List.cons_append]
    simp only [List.length_append, List.length_cons] at depth
    obtain ⟨d, rfl⟩ : ∃ k, d = k + 1 := ⟨d - 1, by omega⟩
    have argument := (arrives h).before (d := d) (tokens₂ ++ closing :: rest) same₁ kind rfl (by
      simp only [List.length_append, List.length_cons]
      omega)
    have others := readArgumentList_of (d := d) rest hs same₂ closed (by omega)
    rw [readArgumentList, bind_of_ok argument, bind_of_ok (Parser.accept_cons kind), if_pos rfl,
      bind_of_ok others]
    rfl

end

/-- An expression is read up to where nothing can be added to it. -/
theorem parser_reads (n : Nat) : Expr.parser.Reads n (Expression .disjunction) (Stops 0) where
  sound _ run := (readsExpressions _).loosest run
  complete _ phrase next := (arrives phrase).read rfl next (Nat.add_le_add_left (by decide) _)

/-- An expression is read before any token that cannot be added to it. -/
theorem parser_reads_before {F : Option Token.Kind → Prop} (n : Nat) (ends : ∀ next, F next → Stops 0 next) :
    Expr.parser.Reads n (Expression .disjunction) F :=
  (parser_reads n).mono (Nat.le_refl n) ends

end Expr

end MiniC
