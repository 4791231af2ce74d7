import MiniC.Proofs.Precedence
import MiniC.Stmt.Parser

/-!
# Types, declarations and assignments

What is read without calling the reader of statements. The one choice that a single token does not settle is that
between a declaration and an expression or assignment, which may both start with a name and brackets. Where the
lookahead finds a second name, an expression ends before that name, or before a caret; and neither is what comes
after an expression or assignment (`simpleParser_reads`).
-/

namespace MiniC

open Grammar

/-! ## Types -/

namespace TypeExpr

/-- What does not look like one more qualifier. -/
def Ends (next : Option Token.Kind) : Prop :=
  next ≠ some (.punct .caret) ∧ next ≠ some (.punct .leftBracket)

/-- A length is a positive number. A minus sign before it is taken, but then the length is not positive. -/
theorem readLength_reads (line n : Nat) :
    (readLength line).Reads n
      (fun ks size => ∃ length : Int32, ks = [.integer length, .punct .rightBracket] ∧ 0 < length.toInt ∧
        length.toInt.toNat = size)
      Parser.anything where
  sound := by
    intro tokens rest size unsigned run
    rw [readLength] at run
    obtain ⟨negative, tokens', haccept, run'⟩ := bind_eq_ok.1 run
    obtain ⟨next, _, hpeek, choice⟩ := bind_eq_ok.1 run'
    obtain ⟨rfl, rfl⟩ := EStateM.Result.ok.inj hpeek
    cases tokens' with
    | nil => cases choice
    | cons first tokens' =>
      obtain ⟨kind, lexeme, position⟩ := first
      cases kind with
      | integer value =>
        obtain ⟨_, _, hskip, closes⟩ := bind_eq_ok.1 choice
        obtain rfl := Parser.skip_cons_eq_ok hskip
        obtain ⟨_, _, hclose, result⟩ := bind_eq_ok.1 closes
        obtain ⟨closing, rfl, closed⟩ := Parser.punct_eq_ok.1 hclose
        have natural : 0 ≤ value.toInt := by
          refine unsigned value ?_
          rcases Parser.accept_eq_ok haccept with ⟨-, _, rfl, -⟩ | ⟨-, rfl, -⟩ <;> simp
        rcases Parser.accept_eq_ok haccept with ⟨rfl, -⟩ | ⟨rfl, rfl, -⟩
        · rw [if_pos rfl, if_pos (by omega)] at result
          cases result
        · by_cases positive : 0 < value.toInt
          · rw [if_neg Bool.false_ne_true, if_neg (Int.not_le.2 positive)] at result
            obtain ⟨rfl, rfl⟩ := EStateM.Result.ok.inj result
            exact ⟨_, by rw [kinds_cons, kinds_cons, closed]; rfl, value, rfl, positive, rfl⟩
          · rw [if_neg Bool.false_ne_true, if_pos (Int.not_lt.1 positive)] at result
            cases result
      | _ => cases choice
  complete := by
    rintro tokens rest _ - ⟨length, same, positive, rfl⟩ -
    obtain ⟨⟨_, lexeme, position⟩, tokens, rfl, rfl, same'⟩ := kinds_eq_cons same
    obtain ⟨closing, rfl, closed⟩ := kinds_eq_singleton same'
    have other : nextKind (⟨.integer length, lexeme, position⟩ :: closing :: rest) ≠ some (.punct .minus) := nofun
    show readLength line (⟨.integer length, lexeme, position⟩ :: closing :: rest) = _
    rw [readLength, bind_of_ok (Parser.accept_of_ne other)]
    show (Parser.punct .rightBracket >>= _) (closing :: rest) = _
    rw [bind_of_ok (Parser.punct_cons closed), if_neg Bool.false_ne_true, if_neg (Int.not_le.2 positive)]
    rfl

section Steps

variable {n : Nat} {token : Token} {tokens : List Token}

/-- A caret is one more pointer. -/
theorem readQualifiers_caret (h : token.kind = .punct .caret) :
    readQualifiers (n + 1) (token :: tokens) =
      (readQualifiers n >>= fun inner => pure (.pointer :: inner) : Parser (List Qualifier)) tokens := by
  obtain ⟨kind, lexeme, position⟩ := token
  cases h
  rfl

/-- A bracket is one more array, and its length must follow. -/
theorem readQualifiers_bracket (h : token.kind = .punct .leftBracket) :
    readQualifiers (n + 1) (token :: tokens) =
      (readLength token.position.line >>= fun length => readQualifiers n >>= fun inner =>
        pure (.array length :: inner) : Parser (List Qualifier)) tokens := by
  obtain ⟨kind, lexeme, position⟩ := token
  cases h
  rfl

/-- A token that is neither a caret nor a bracket ends the qualifiers. -/
theorem readQualifiers_end (h : Ends (nextKind tokens)) : readQualifiers (n + 1) tokens = .ok [] tokens := by
  cases tokens with
  | nil => rfl
  | cons token tokens =>
    obtain ⟨kind, lexeme, position⟩ := token
    cases kind with
    | punct mark => cases mark <;> first | rfl | exact absurd rfl h.1 | exact absurd rfl h.2
    | _ => rfl

end Steps

/-- Qualifiers are read as long as they come. By induction on the number of tokens that the reader can be sure of. -/
theorem readQualifiers_reads (n : Nat) : (readQualifiers n).Reads n Qualifiers Ends := by
  induction n with
  | zero =>
    refine ⟨fun _ run => ?_, fun fits phrase _ => ?_⟩
    · obtain ⟨rfl, rfl⟩ := EStateM.Result.ok.inj run
      exact ⟨[], rfl, .none⟩
    · obtain ⟨rfl, rfl⟩ := List.append_eq_nil_iff.1 (List.length_eq_zero_iff.1 (Nat.le_zero.1 fits))
      cases phrase
      rfl
  | succ n ih =>
    have array (line : Nat) := (readLength_reads line n).andThen (fun length => ih.map (.array length :: ·))
      fun _ _ => trivial
    refine ⟨?_, ?_⟩
    · intro tokens rest qs unsigned run
      by_cases caret : nextKind tokens = some (.punct .caret)
      · obtain ⟨token, tokens, rfl, kind⟩ := nextKind_eq_some caret
        rw [readQualifiers_caret kind] at run
        obtain ⟨ks, split, qs, phrase, rfl⟩ := (ih.map (.pointer :: ·)).sound unsigned.tail run
        exact ⟨.punct .caret :: ks, by rw [kinds_cons, kind, split]; rfl, .pointer phrase⟩
      by_cases bracket : nextKind tokens = some (.punct .leftBracket)
      · obtain ⟨token, tokens, rfl, kind⟩ := nextKind_eq_some bracket
        rw [readQualifiers_bracket kind] at run
        obtain ⟨_, split, _, _, ks, rfl, ⟨length, rfl, positive, rfl⟩, qs, phrase, rfl⟩ :=
          (array _).sound unsigned.tail run
        exact ⟨_, by rw [kinds_cons, kind, split]; rfl, .array positive phrase⟩
      · rw [readQualifiers_end ⟨caret, bracket⟩] at run
        obtain ⟨rfl, rfl⟩ := EStateM.Result.ok.inj run
        exact ⟨[], rfl, .none⟩
    · intro tokens rest qs fits phrase next
      generalize same : kinds tokens = ks at phrase
      cases phrase with
      | none =>
        obtain rfl := kinds_eq_nil same
        exact readQualifiers_end next
      | pointer phrase =>
        obtain ⟨token, tokens, rfl, kind, rfl⟩ := kinds_eq_cons same
        rw [List.cons_append, readQualifiers_caret kind]
        exact (ih.map _).complete (Nat.le_of_succ_le_succ fits) ⟨_, phrase, rfl⟩ next
      | array positive phrase =>
        obtain ⟨token, tokens, rfl, kind, same'⟩ := kinds_eq_cons same
        rw [List.cons_append, readQualifiers_bracket kind]
        exact (array _).complete (Nat.le_of_succ_le_succ fits)
          ⟨_, _, _, same', ⟨_, rfl, positive, rfl⟩, _, phrase, rfl⟩ next

/-- A type is a name and its qualifiers, and ends where no more of them come. -/
theorem parser_reads (n : Nat) : TypeExpr.parser.Reads n WrittenType Ends := by
  refine (Parser.reads_identifier_bind (fun name => (Parser.reads_bounded readQualifiers_reads).map fun qs =>
    TypeExpr.mk name qs) (Nat.le_succ n)).congr fun ks ty => ?_
  constructor
  · rintro ⟨name, ks', rfl, qs, phrase, rfl⟩
    exact .intro phrase
  · rintro ⟨phrase⟩
    exact ⟨_, _, rfl, _, phrase, rfl⟩

end TypeExpr

/-! ## Declared names and parameters -/

/-- What comes after a declaration, an assignment or an expression that is no part of another. -/
def Closes (next : Option Token.Kind) : Prop :=
  next = some (.punct .semicolon) ∨ next = some (.punct .rightParen)

/-- Nothing that closes can be added to an expression. -/
theorem Closes.stops {next : Option Token.Kind} (h : Closes next) : Stops 0 next := by
  rcases h with rfl | rfl <;> exact stops_of_none rfl

/-- Nothing that closes makes an assignment of the expression before it. -/
theorem Closes.ne_assign {next : Option Token.Kind} (h : Closes next) : next ≠ some (.punct .assign) := by
  rcases h with rfl | rfl <;> nofun

/-- A parameter starts with its name. -/
theorem Grammar.Formal.head? {ks : List Token.Kind} {parameter : Parameter} (h : Formal ks parameter) :
    ∃ name, ks.head? = some (.identifier name) := by
  cases h
  exact ⟨_, rfl⟩

/-- What is declared starts with its name. -/
theorem Grammar.Declared.head? {ks : List Token.Kind} {declarator : Declarator} (h : Declared ks declarator) :
    ∃ name, ks.head? = some (.identifier name) := by
  cases h <;> exact ⟨_, rfl⟩

/-- A list starts with the name that its first member starts with. -/
theorem Grammar.Separated.head? {α : Type} {G : List Token.Kind → α → Prop}
    (first : ∀ {ks a}, G ks a → ∃ name, ks.head? = some (.identifier name)) {ks : List Token.Kind} {as : List α}
    (h : Separated G ks as) : ∃ name, ks.head? = some (.identifier name) := by
  cases h with
  | one item => exact first item
  | more item items =>
    obtain ⟨name, head⟩ := first item
    exact ⟨name, by rw [List.head?_append, head]; rfl⟩

namespace Declarator

/-- A declared name is read up to what closes the declaration, or to the comma before the next name. -/
theorem parser_reads (n : Nat) :
    Declarator.parser.Reads n Declared fun next => Closes next ∨ next = some (.punct .comma) := by
  refine (Parser.reads_identifier_bind (fun name => Parser.reads_accept
    ((Expr.parser_reads_before n ?_).map fun x => Declarator.mk name (some x) none)
    (Parser.reads_pure { name }) ?_ (Nat.le_succ n)) (Nat.le_succ n)).congr fun ks declarator => ?_
  · rintro next (closes | rfl)
    · exact closes.stops
    · exact stops_of_none rfl
  · rintro _ _ next ⟨rfl, -⟩ (closes | rfl)
    · exact closes.ne_assign
    · nofun
  · constructor
    · rintro ⟨name, _, rfl, ⟨ks, rfl, x, phrase, rfl⟩ | ⟨rfl, rfl⟩⟩
      · exact .valued phrase
      · exact .bare
    · rintro (_ | phrase)
      · exact ⟨_, _, rfl, .inr ⟨rfl, rfl⟩⟩
      · exact ⟨_, _, rfl, .inl ⟨_, rfl, _, phrase, rfl⟩⟩

/-- After a comma there must be another name. -/
theorem readList_reads (n : Nat) : (readList n).Reads n (Separated Declared) Closes :=
  Parser.reads_separated rfl (fun _ => rfl) parser_reads nofun (by rintro (h | h) <;> cases h) n

end Declarator

namespace Parameter

/-- A parameter ends where its type does. -/
theorem parser_reads (n : Nat) : Parameter.parser.Reads n Formal TypeExpr.Ends := by
  refine (Parser.reads_identifier_bind (fun name => Parser.reads_punct_bind
    ((TypeExpr.parser_reads n).map fun ty => Parameter.mk name ty none) (Nat.le_succ n))
    (Nat.le_succ n)).congr fun ks parameter => ?_
  constructor
  · rintro ⟨name, _, rfl, ks, rfl, ty, phrase, rfl⟩
    exact .intro phrase
  · rintro ⟨phrase⟩
    exact ⟨_, _, rfl, _, rfl, _, phrase, rfl⟩

/-- Parameters are read up to the bracket that closes their list. -/
theorem readList_reads (n : Nat) :
    (readList n).Reads n (Separated Formal) fun next => next = some (.punct .rightParen) := by
  refine Parser.reads_separated rfl (fun _ => rfl) (fun n => (parser_reads n).mono (Nat.le_refl n) ?_) nofun nofun n
  rintro next (rfl | rfl) <;> exact ⟨nofun, nofun⟩

/-- The bracket is read with the list, which may be empty. -/
theorem listParser_reads (n : Nat) :
    listParser.Reads n (fun ks ps => ∃ ks', ks = ks' ++ [.punct .rightParen] ∧ Formals ks' ps)
      Parser.anything := by
  have list := (Parser.reads_bounded (n := n) readList_reads).closed (F := Parser.anything) rfl Parser.reads_pure
  refine (Parser.reads_accept (Parser.reads_pure []) list ?_ (Nat.le_succ n)).congr fun ks parameters => ?_
  · rintro _ ps next ⟨ks, as, _, rfl, phrase, -⟩ -
    obtain ⟨name, head⟩ := Separated.head? Formal.head? phrase
    rw [List.head?_append, head]
    nofun
  · constructor
    · rintro (⟨ks', rfl, rfl, rfl⟩ | ⟨ks', ps, _, rfl, phrase, rfl, rfl⟩)
      · exact ⟨[], rfl, .none⟩
      · exact ⟨ks', rfl, .some phrase⟩
    · rintro ⟨ks', rfl, _ | phrase⟩
      · exact .inl ⟨[], rfl, rfl, rfl⟩
      · exact .inr ⟨ks', _, _, rfl, phrase, rfl, rfl⟩

end Parameter

/-! ## Declarations, assignments and expressions -/

namespace Stmt

/-- A declaration is a type and the names after it. A name adds nothing to a type, so the type ends before the first
one. -/
theorem declarationParser_reads (n : Nat) : declarationParser.Reads n Declaration Closes := by
  refine ((TypeExpr.parser_reads n).andThen (fun ty =>
    (Parser.reads_bounded Declarator.readList_reads).map (Stmt.declare ty)) ?_).congr fun ks s => ?_
  · rintro ty ks _ next ⟨ds, phrase, -⟩ -
    obtain ⟨name, head⟩ := Separated.head? Declared.head? phrase
    rw [head]
    exact ⟨nofun, nofun⟩
  · constructor
    · rintro ⟨ks₁, ty, ks₂, rfl, type, ds, names, rfl⟩
      exact .intro type names
    · rintro ⟨type, names⟩
      exact ⟨_, _, _, rfl, type, _, names, rfl⟩

/-- An expression is an assignment's target if the sign comes after it, and a statement by itself if not. -/
theorem assignmentParser_reads (n : Nat) :
    assignmentParser.Reads n
      (fun ks s => Assignment ks s ∨ ∃ x, Expression .disjunction ks x ∧ .eval x = s) Closes := by
  refine ((Expr.parser_reads n).andThen (fun target => Parser.reads_accept
    ((Expr.parser_reads_before n fun _ => Closes.stops).map (Stmt.assign target))
    (Parser.reads_pure (Stmt.eval target)) ?_ (Nat.le_succ n)) ?_).congr fun ks s => ?_
  · rintro _ _ next ⟨rfl, -⟩ closes
    exact closes.ne_assign
  · rintro target _ _ next (⟨ks, rfl, -⟩ | ⟨rfl, -⟩) closes
    · exact stops_of_none rfl
    · exact closes.stops
  · constructor
    · rintro ⟨ks₁, target, _, rfl, phrase, ⟨ks₂, rfl, value, phrase', rfl⟩ | ⟨rfl, rfl⟩⟩
      · exact .inl (.intro phrase phrase')
      · exact .inr ⟨target, by rwa [List.append_nil], rfl⟩
    · rintro (⟨phrase, phrase'⟩ | ⟨x, phrase, rfl⟩)
      · exact ⟨_, _, _, rfl, phrase, .inl ⟨_, rfl, _, phrase', rfl⟩⟩
      · exact ⟨ks, x, [], (List.append_nil ks).symm, phrase, .inr ⟨rfl, rfl⟩⟩

/-- The lookahead passes the qualifiers of a type. -/
theorem nameFollows_of_qualifiers {ks : List Token.Kind} {qs : List Qualifier} (h : Qualifiers ks qs)
    {tokens rest : List Token} {name : String} (same : kinds tokens = ks)
    (next : nextKind rest = some (.identifier name)) : nameFollows (tokens ++ rest) = true := by
  induction h generalizing tokens with
  | none =>
    obtain rfl := kinds_eq_nil same
    obtain ⟨⟨_, lexeme, position⟩, rest, rfl, rfl⟩ := nextKind_eq_some next
    rfl
  | pointer _ ih =>
    obtain ⟨⟨_, lexeme, position⟩, tokens, rfl, rfl, same'⟩ := kinds_eq_cons same
    show nameFollows (tokens ++ rest) = true
    exact ih same'
  | array _ _ ih =>
    obtain ⟨⟨_, lexeme₁, position₁⟩, tokens₁, rfl, rfl, same₁⟩ := kinds_eq_cons same
    obtain ⟨⟨_, lexeme₂, position₂⟩, tokens₂, rfl, rfl, same₂⟩ := kinds_eq_cons same₁
    obtain ⟨⟨_, lexeme₃, position₃⟩, tokens₃, rfl, rfl, same₃⟩ := kinds_eq_cons same₂
    show nameFollows (tokens₃ ++ rest) = true
    exact ih same₃

/-- The lookahead finds every declaration: the name comes after the qualifiers, which it passes. -/
theorem startsDeclaration_of_declaration {tokens rest : List Token} {s : Stmt}
    (h : Declaration (kinds tokens) s) : startsDeclaration (tokens ++ rest) = true := by
  generalize same : kinds tokens = ks at h
  obtain ⟨⟨qualifiers⟩, names⟩ := h
  obtain ⟨⟨_, lexeme, position⟩, tokens, rfl, rfl, same'⟩ := kinds_eq_cons same
  obtain ⟨tokens₁, tokens₂, rfl, same₁, same₂⟩ := kinds_eq_append same'
  obtain ⟨name, head⟩ := Separated.head? Declared.head? names
  have next : nextKind (tokens₂ ++ rest) = some (.identifier name) := by
    rw [nextKind_append, same₂, head]
    rfl
  rw [List.cons_append, List.append_assoc]
  exact nameFollows_of_qualifiers qualifiers same₁ next

/-- An integer is an expression of every level. -/
theorem expression_integer (level : Level) (value : Int32) :
    Expression level [.integer value] (.literal (.int value)) :=
  Expr.loosen (.literal rfl) (by cases level <;> decide)

/-- What the lookahead passes before a caret or a name are indices, which may stand after an expression too. -/
theorem indices_of_nameFollows {tokens : List Token} (h : nameFollows tokens = true) :
    ∃ indices rest, tokens = indices ++ rest ∧
      (nextKind rest = some (.punct .caret) ∨ ∃ name, nextKind rest = some (.identifier name)) ∧
      ∀ {ks : List Token.Kind} {x : Expr}, Expression .applied ks x →
        ∃ x', Expression .applied (ks ++ kinds indices) x' := by
  fun_induction nameFollows tokens with
  | case1 name lexeme position rest =>
    exact ⟨[], _, rfl, .inr ⟨name, rfl⟩, fun phrase => ⟨_, by rwa [kinds_nil, List.append_nil]⟩⟩
  | case2 lexeme position rest =>
    exact ⟨[], _, rfl, .inl rfl, fun phrase => ⟨_, by rwa [kinds_nil, List.append_nil]⟩⟩
  | case3 _ _ value _ _ _ _ _ ih =>
    obtain ⟨indices, rest, rfl, next, longer⟩ := ih h
    refine ⟨_ :: _ :: _ :: indices, rest, rfl, next, fun phrase => ?_⟩
    obtain ⟨x', phrase'⟩ := longer (.index phrase (expression_integer .disjunction value))
    exact ⟨x', by simpa using phrase'⟩
  | case4 _ _ _ _ value _ _ _ _ _ ih =>
    obtain ⟨indices, rest, rfl, next, longer⟩ := ih h
    refine ⟨_ :: _ :: _ :: _ :: indices, rest, rfl, next, fun phrase => ?_⟩
    -- The lookahead lets a minus sign pass, which makes no length but does make an index.
    have negative : Expression .unary [.punct .minus, .integer value] _ :=
      .unary rfl (expression_integer .unary value)
    obtain ⟨x', phrase'⟩ := longer (.index phrase (Expr.loosen negative (by decide)))
    exact ⟨x', by simpa using phrase'⟩
  | case5 => cases h

/-- Where the lookahead finds a declaration, an expression ends before a caret or a name. -/
theorem expression_of_startsDeclaration {tokens : List Token} (h : startsDeclaration tokens = true) :
    ∃ x rest, Expr.parser tokens = .ok x rest ∧
      (nextKind rest = some (.punct .caret) ∨ ∃ name, nextKind rest = some (.identifier name)) := by
  unfold startsDeclaration at h
  split at h
  · rename_i name lexeme position tokens
    obtain ⟨indices, rest, rfl, next, longer⟩ := indices_of_nameFollows h
    have start : Expression .applied [.identifier name] (.name name) := .tighter .name
    obtain ⟨x, phrase⟩ := longer start
    refine ⟨x, rest, ?_, next⟩
    show Expr.parser (⟨.identifier name, lexeme, position⟩ :: indices ++ rest) = .ok x rest
    refine (Expr.parser_reads _).complete (Nat.le_refl _) (Expr.loosen phrase (by decide)) ?_
    rcases next with next | ⟨name, next⟩ <;> rw [next] <;> exact stops_of_none rfl
  · cases h

/-- The lookahead finds no declaration where an expression is to be read. It would have to find a name, and no
expression goes on with one. -/
theorem not_startsDeclaration {tokens : List Token} {x : Expr} (rest : List Token)
    (phrase : Expression .disjunction (kinds tokens) x)
    (next : Closes (nextKind rest) ∨ nextKind rest = some (.punct .assign)) :
    startsDeclaration (tokens ++ rest) = false := by
  have stops : Stops 0 (nextKind rest) := by
    rcases next with closes | next
    · exact closes.stops
    · exact next ▸ stops_of_none rfl
  have run := (Expr.parser_reads _).complete (Nat.le_refl _) phrase stops
  -- Otherwise the same reader would end at two different tokens.
  refine Bool.eq_false_iff.2 fun found => ?_
  obtain ⟨x', rest', run', next'⟩ := expression_of_startsDeclaration found
  obtain ⟨-, rfl⟩ := EStateM.Result.ok.inj (run.symm.trans run')
  rcases next with (next | next) | next <;> rcases next' with next' | ⟨name, next'⟩ <;>
    exact nomatch next.symm.trans next'

/-- The lookahead decides rightly between declarations and what starts with an expression. -/
theorem simpleParser_reads (n : Nat) : simpleParser.Reads n Simple Closes where
  sound := by
    intro tokens rest s unsigned run
    unfold simpleParser at run
    split at run
    · obtain ⟨ks, split, phrase⟩ := (declarationParser_reads n).sound unsigned run
      exact ⟨ks, split, .start (.declaration phrase)⟩
    · obtain ⟨ks, split, phrase | ⟨x, phrase, rfl⟩⟩ := (assignmentParser_reads n).sound unsigned run
      · exact ⟨ks, split, .start (.assignment phrase)⟩
      · exact ⟨ks, split, .expression phrase⟩
  complete := by
    intro tokens rest s fits phrase next
    generalize same : kinds tokens = ks at phrase
    cases phrase with
    | start phrase =>
      cases phrase with
      | declaration phrase =>
        subst same
        rw [simpleParser, if_pos (startsDeclaration_of_declaration phrase)]
        exact (declarationParser_reads n).complete fits phrase next
      | assignment phrase =>
        have whole := phrase
        obtain ⟨target, value⟩ := phrase
        obtain ⟨tokens₁, tokens', rfl, rfl, same'⟩ := kinds_eq_append same
        obtain ⟨token, tokens₂, rfl, kind, rfl⟩ := kinds_eq_cons same'
        have other := not_startsDeclaration (token :: tokens₂ ++ rest) target (.inr (congrArg some kind))
        rw [simpleParser, List.append_assoc, if_neg (Bool.eq_false_iff.1 other), ← List.append_assoc]
        exact (assignmentParser_reads n).complete fits (.inl (same ▸ whole)) next
    | expression phrase =>
      subst same
      rw [simpleParser, if_neg (Bool.eq_false_iff.1 (not_startsDeclaration rest phrase (.inl next)))]
      exact (assignmentParser_reads n).complete fits (.inr ⟨_, phrase, rfl⟩) next

/-- A simple statement with its semicolon, after which anything may come. -/
theorem simpleStatementParser_reads (n : Nat) :
    simpleStatementParser.Reads n SimpleStatement Parser.anything := by
  refine ((simpleParser_reads n).closed (.inl rfl) Parser.reads_pure).congr fun ks s => ?_
  constructor
  · rintro ⟨ks, s, _, rfl, phrase, rfl, rfl⟩
    exact .intro phrase
  · rintro ⟨phrase⟩
    exact ⟨_, s, _, rfl, phrase, rfl, rfl⟩

/-- A loop starts with a declaration or an assignment; an expression by itself is rejected. -/
theorem forInitParser_reads (n : Nat) : forInitParser.Reads n Start Closes := by
  refine (simpleParser_reads n).keep ?_ ?_
  · rintro ks s tokens s' rest (⟨⟨type, names⟩ | ⟨target, value⟩⟩ | phrase) run
    · obtain ⟨rfl, rfl⟩ := EStateM.Result.ok.inj run
      exact ⟨rfl, rfl, .declaration (.intro type names)⟩
    · obtain ⟨rfl, rfl⟩ := EStateM.Result.ok.inj run
      exact ⟨rfl, rfl, .assignment (.intro target value)⟩
    · exact absurd run Parser.fail_ne_ok
  · rintro ks s phrase
    refine ⟨.start phrase, fun tokens => ?_⟩
    rcases phrase with ⟨type, names⟩ | ⟨target, value⟩ <;> rfl

/-- The step of a loop is an assignment; everything else is rejected. -/
theorem forStepParser_reads (n : Nat) : forStepParser.Reads n Assignment Closes := by
  refine (simpleParser_reads n).keep ?_ ?_
  · rintro ks s tokens s' rest (⟨⟨type, names⟩ | ⟨target, value⟩⟩ | phrase) run
    · exact absurd run Parser.fail_ne_ok
    · obtain ⟨rfl, rfl⟩ := EStateM.Result.ok.inj run
      exact ⟨rfl, rfl, .intro target value⟩
    · exact absurd run Parser.fail_ne_ok
  · rintro ks s phrase
    refine ⟨.start (.assignment phrase), fun tokens => ?_⟩
    cases phrase
    rfl

/-- A condition is an expression between brackets. -/
theorem conditionParser_reads (n : Nat) :
    conditionParser.Reads n (fun ks x => ∃ ks', ks = parens ks' ∧ Expression .disjunction ks' x)
      Parser.anything := by
  refine (Parser.reads_punct_bind ((Expr.parser_reads n).closed (stops_of_none rfl) Parser.reads_pure)
    (Nat.le_succ n)).congr fun ks x => ?_
  constructor
  · rintro ⟨_, rfl, ks, x, _, rfl, phrase, rfl, rfl⟩
    exact ⟨ks, rfl, phrase⟩
  · rintro ⟨ks, rfl, phrase⟩
    exact ⟨_, rfl, ks, x, _, rfl, phrase, rfl, rfl⟩

/-- An expression with its semicolon. -/
theorem reads_value (f : Expr → Stmt) (n : Nat) :
    (Expr.parser >>= fun x => Parser.punct .semicolon >>= fun _ => pure (f x)).Reads n
      (fun ks s => ∃ ks' x, ks = ks' ++ [.punct .semicolon] ∧ Expression .disjunction ks' x ∧ f x = s)
      Parser.anything := by
  refine ((Expr.parser_reads n).closed (stops_of_none rfl) fun x => Parser.reads_pure (f x)).congr fun ks s => ?_
  constructor
  · rintro ⟨ks, x, _, rfl, phrase, rfl, rfl⟩
    exact ⟨ks, x, rfl, phrase, rfl⟩
  · rintro ⟨ks, x, rfl, phrase, rfl⟩
    exact ⟨ks, x, _, rfl, phrase, rfl, rfl⟩

/-- A value may be returned or not; the semicolon tells. -/
theorem returnParser_reads (n : Nat) :
    returnParser.Reads n
      (fun ks s => (ks = [.punct .semicolon] ∧ .returnValue none = s) ∨
        ∃ ks' x, ks = ks' ++ [.punct .semicolon] ∧ Expression .disjunction ks' x ∧ .returnValue (some x) = s)
      Parser.anything := by
  have nothing : (Parser.punct .semicolon >>= fun _ => pure (.returnValue none) : Parser Stmt).Reads n
      (fun ks s => ks = [.punct .semicolon] ∧ .returnValue none = s) Parser.anything := by
    refine (Parser.reads_punct_bind (Parser.reads_pure _) (Nat.le_succ n)).congr fun ks s => ?_
    constructor
    · rintro ⟨_, rfl, rfl, rfl⟩
      exact ⟨rfl, rfl⟩
    · rintro ⟨rfl, rfl⟩
      exact ⟨_, rfl, rfl, rfl⟩
  refine Parser.reads_peek (.punct .semicolon) nothing (reads_value (fun x => .returnValue (some x)) n) ?_ ?_ ?_ ?_
  · intro tokens here
    obtain ⟨⟨_, lexeme, position⟩, tokens, rfl, rfl⟩ := nextKind_eq_some here
    rfl
  · intro tokens there
    cases tokens with
    | nil => rfl
    | cons token tokens =>
      obtain ⟨kind, lexeme, position⟩ := token
      cases kind with
      | punct mark => cases mark <;> first | rfl | exact absurd rfl there
      | _ => rfl
  · rintro _ _ ⟨rfl, -⟩
    rfl
  · rintro _ _ next ⟨ks, x, rfl, phrase, -⟩ - same
    obtain ⟨k, ks, rfl, starts⟩ := Expr.exists_first phrase
    cases same
    exact absurd (Expr.startsOperand_punct starts) (by decide)

end Stmt

end MiniC
