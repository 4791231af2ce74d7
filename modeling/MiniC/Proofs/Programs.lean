import MiniC.Proofs.Annotation
import MiniC.Proofs.Statements

/-!
# Programs

A list of tokens is accepted if and only if the grammar has it as a program, and the tree is the one that the grammar
has for it (`Block.parse_eq_ok_iff_program`).
-/

namespace MiniC

open Grammar

/-! ## Statements up to the end -/

namespace Stmt

/-- Without tokens there are no statements. -/
theorem sequence_nil {ss : List Stmt} (h : Sequence [] ss) : ss = [] := by
  generalize same : [] = ks at h
  cases h with
  | nil => rfl
  | cons first others =>
    obtain ⟨rfl, rfl⟩ := List.append_eq_nil_iff.1 same.symm
    exact absurd first not_statement_nil

theorem readAll_cons {d : Nat} {token : Token} {tokens : List Token} :
    readAll (d + 1) (token :: tokens) =
      (read d >>= fun s => readAll d >>= fun ss => pure (s :: ss) : Parser (List Stmt)) (token :: tokens) :=
  rfl

/-- Statements are read up to the end. Every statement takes a token, so three times the number of tokens is depth
enough. -/
theorem readAll_reads (d : Nat) : ∀ {n : Nat}, 3 * n ≤ d → (readAll d).Reads n Sequence (· = none) := by
  induction d with
  | zero =>
    intro n bound
    obtain rfl : n = 0 := by omega
    refine ⟨fun _ run => ?_, fun fits phrase _ => ?_⟩
    · obtain ⟨rfl, rfl⟩ := EStateM.Result.ok.inj run
      exact ⟨[], rfl, .nil⟩
    · obtain ⟨rfl, rfl⟩ := List.append_eq_nil_iff.1 (List.length_eq_zero_iff.1 (Nat.le_zero.1 fits))
      rw [sequence_nil phrase]
      rfl
  | succ d ih =>
    intro n bound
    -- A statement takes a token, which pays for three calls.
    have room : 3 * (n - 1) ≤ d := by omega
    have more := ((readsStatements d).statement (n := n) (by omega)).bind (fun s => (ih room).map (s :: ·))
      (by
        rintro s ks _ next ⟨ss, phrase, rfl⟩ rfl
        exact sequence_noElse phrase nofun)
      (by
        intro ks s phrase
        have := statement_length_pos phrase
        omega)
    refine ⟨?_, ?_⟩
    · intro tokens rest ss unsigned run
      cases tokens with
      | nil =>
        obtain ⟨rfl, rfl⟩ := EStateM.Result.ok.inj run
        exact ⟨[], rfl, .nil⟩
      | cons token tokens =>
        obtain ⟨_, split, ks₁, s, ks₂, rfl, first, ss, others, rfl⟩ := more.sound unsigned run
        exact ⟨_, split, .cons first others⟩
    · intro tokens rest ss fits phrase next
      cases tokens with
      | nil =>
        obtain rfl := sequence_nil phrase
        cases rest with
        | nil => rfl
        | cons token rest => cases next
      | cons token tokens =>
        refine more.complete fits ?_ next
        generalize same : kinds (token :: tokens) = ks at phrase
        cases phrase with
        | nil => cases same
        | cons first others => exact ⟨_, _, _, rfl, first, _, others, rfl⟩

/-- With enough depth everything is read, since every statement takes a token. -/
theorem readAll_rest {d : Nat} {tokens rest : List Token} {ss : List Stmt} (unsigned : Unsigned tokens)
    (run : readAll d tokens = .ok ss rest) (depth : tokens.length < d) : rest = [] := by
  induction d generalizing tokens ss with
  | zero => exact absurd depth (Nat.not_lt_zero _)
  | succ d ih =>
    cases tokens with
    | nil => exact (EStateM.Result.ok.inj run).2.symm
    | cons token tokens =>
      rw [readAll_cons] at run
      obtain ⟨s, between, hs, run'⟩ := bind_eq_ok.1 run
      obtain ⟨ss', between', hss, result⟩ := bind_eq_ok.1 run'
      obtain ⟨-, rfl⟩ := EStateM.Result.ok.inj result
      obtain ⟨ks, split, phrase⟩ := ((readsStatements d).statement (n := 0) (by omega)).sound unsigned hs
      have taken := statement_length_pos phrase
      have lengths := congrArg List.length split
      simp only [kinds, List.length_append, List.length_map] at lengths
      exact ih (unsigned.rest split) hss (by simp only [List.length_cons] at *; omega)

end Stmt

/-! ## Trees without annotations -/

mutual

/-- The grammar's expressions carry no annotations. -/
theorem Expr.erase_eq_self {level : Level} {ks : List Token.Kind} {x : Expr} :
    Expression level ks x → x.erase = x
  | .tighter h | .parenthesized h => Expr.erase_eq_self h
  | .binary _ hleft hright => by rw [Expr.erase, Expr.erase_eq_self hleft, Expr.erase_eq_self hright]
  | .unary _ h => by rw [Expr.erase, Expr.erase_eq_self h]
  | .index hbase hposition => by rw [Expr.erase, Expr.erase_eq_self hbase, Expr.erase_eq_self hposition]
  | .call h => by rw [Expr.erase, Expr.erase_eq_self h, Expr.eraseAll]
  | .callWith h hs => by rw [Expr.erase, Expr.erase_eq_self h, Expr.eraseAll_eq_self hs]
  | .literal _ => by rw [Expr.erase]
  | .name => by rw [Expr.erase]

theorem Expr.eraseAll_eq_self {ks : List Token.Kind} {xs : List Expr} :
    Separated (Expression .disjunction) ks xs → Expr.eraseAll xs = xs
  | .one h => by rw [Expr.eraseAll, Expr.erase_eq_self h, Expr.eraseAll]
  | .more h hs => by rw [Expr.eraseAll, Expr.erase_eq_self h, Expr.eraseAll_eq_self hs]

end

/-- What changes no member of a list does not change the list. -/
theorem separated_map_eq_self {α : Type} {G : List Token.Kind → α → Prop} {f : α → α}
    (item : ∀ {ks a}, G ks a → f a = a) {ks : List Token.Kind} {as : List α} (h : Separated G ks as) :
    as.map f = as := by
  induction h with
  | one h => rw [List.map_cons, item h, List.map_nil]
  | more h _ ih => rw [List.map_cons, item h, ih]

/-- The grammar's declared names carry no symbols. -/
theorem Declarator.erase_eq_self {ks : List Token.Kind} {declarator : Declarator} (h : Declared ks declarator) :
    declarator.erase = declarator := by
  cases h with
  | bare => rfl
  | valued h => rw [Declarator.erase, Option.map_some, Expr.erase_eq_self h]

/-- The grammar's parameters carry no symbols. -/
theorem Parameter.erase_eq_self {ks : List Token.Kind} {parameter : Parameter} (h : Formal ks parameter) :
    parameter.erase = parameter := by
  cases h
  rfl

theorem Parameter.map_erase_eq_self {ks : List Token.Kind} {parameters : List Parameter}
    (h : Formals ks parameters) : parameters.map Parameter.erase = parameters := by
  cases h with
  | none => rfl
  | some h => exact separated_map_eq_self Parameter.erase_eq_self h

namespace Stmt

theorem erase_assignment {ks : List Token.Kind} {s : Stmt} (h : Assignment ks s) : s.erase = s := by
  obtain ⟨target, value⟩ := h
  rw [erase, Expr.erase_eq_self target, Expr.erase_eq_self value]

/-- What starts a loop is a declaration or an assignment, and carries no annotations. -/
theorem erase_start {ks : List Token.Kind} {s : Stmt} (h : Start ks s) : s.erase = s := by
  rcases h with ⟨type, names⟩ | h
  · rw [erase, separated_map_eq_self Declarator.erase_eq_self names]
  · exact erase_assignment h

theorem erase_simple {ks : List Token.Kind} {s : Stmt} (h : SimpleStatement ks s) : s.erase = s := by
  obtain ⟨h | h⟩ := h
  · exact erase_start h
  · rw [erase, Expr.erase_eq_self h]

end Stmt

mutual

/-- The grammar's statements carry no annotations, by induction on the derivation. -/
theorem Stmt.erase_eq_self {ks : List Token.Kind} {s : Stmt} : Statement ks s → s.erase = s
  | .simple h => Stmt.erase_simple h
  | .compound h => by rw [Stmt.erase, Block.erase_eq_self h]
  | .conditional h => Stmt.erase_conditional h
  | .whileLoop hcondition hbody => by rw [Stmt.erase, Expr.erase_eq_self hcondition, Block.erase_eq_self hbody]
  | .doWhile hbody hcondition => by rw [Stmt.erase, Expr.erase_eq_self hcondition, Block.erase_eq_self hbody]
  | .forLoop hinit hcondition hstep hbody => by
    rw [Stmt.erase, Stmt.erase_start hinit, Expr.erase_eq_self hcondition, Stmt.erase_assignment hstep,
      Block.erase_eq_self hbody]
  | .function hparameters _ hbody => by
    rw [Stmt.erase, Parameter.map_erase_eq_self hparameters, Block.erase_eq_self hbody]
  | .print h => by rw [Stmt.erase, Expr.erase_eq_self h]
  | .input h => by rw [Stmt.erase, Expr.erase_eq_self h]
  | .breakLoop => by rw [Stmt.erase]
  | .continueLoop => by rw [Stmt.erase]
  | .returnNothing => by rw [Stmt.erase, Option.map_none]
  | .returnValue h => by rw [Stmt.erase, Option.map_some, Expr.erase_eq_self h]

theorem Stmt.erase_conditional {ks : List Token.Kind} {s : Stmt} : Conditional ks s → s.erase = s
  | .ifThen hcondition hbody => by rw [Stmt.erase, Expr.erase_eq_self hcondition, Block.erase_eq_self hbody]
  | .ifElse hcondition hbody hotherwise => by
    rw [Stmt.erase, Expr.erase_eq_self hcondition, Block.erase_eq_self hbody, Stmt.erase,
      Block.erase_eq_self hotherwise]
  | .elseIf hcondition hbody hotherwise => by
    rw [Stmt.erase, Expr.erase_eq_self hcondition, Block.erase_eq_self hbody, Stmt.erase_conditional hotherwise]

theorem Block.erase_eq_self {ks : List Token.Kind} {body : Block} : Compound ks body → body.erase = body
  | .intro h => by rw [Block.erase, Stmt.eraseAll_eq_self h]

theorem Stmt.eraseAll_eq_self {ks : List Token.Kind} {ss : List Stmt} : Sequence ks ss → Stmt.eraseAll ss = ss
  | .nil => by rw [Stmt.eraseAll]
  | .cons h hs => by rw [Stmt.eraseAll, Stmt.erase_eq_self h, Stmt.eraseAll_eq_self hs]

end

namespace Block

/-- The grammar's programs carry no annotations. -/
theorem erase_program {ks : List Token.Kind} {b : Block} (h : Grammar.Program ks b) : b.erase = b := by
  cases h with
  | compound h => exact Block.erase_eq_self h
  | sequence h _ => rw [Block.erase, Stmt.eraseAll_eq_self h]

/-! ## The main result -/

/-- Statements that are not a single block are the statements of the program's own block. -/
theorem ofStatements_eq_mk {statements : List Stmt} (h : ∀ body, statements ≠ [.block body]) :
    ofStatements statements = { statements } := by
  unfold ofStatements
  split
  · exact absurd rfl (h _)
  · rfl

/-- Only a block in braces is a statement that is a block. -/
theorem compound_of_statement {ks : List Token.Kind} {body : Block} (h : Statement ks (.block body)) :
    Compound ks body := by
  cases h with
  | simple h =>
    obtain ⟨⟨h | h⟩ | _⟩ := h <;> cases h
  | compound h => exact h
  | conditional h => cases h

/-- A program is a sequence of statements up to the end. If it is a single block, this block is the program's. -/
theorem program_iff {ks : List Token.Kind} {b : Block} :
    Grammar.Program ks b ↔ ∃ statements, Sequence ks statements ∧ ofStatements statements = b := by
  constructor
  · rintro (h | ⟨h, other⟩)
    · exact ⟨[.block b], by simpa using Sequence.cons (.compound h) .nil, rfl⟩
    · exact ⟨_, h, ofStatements_eq_mk other⟩
  · rintro ⟨statements, h, rfl⟩
    by_cases single : ∃ body, statements = [.block body]
    · obtain ⟨body, rfl⟩ := single
      obtain _ | ⟨first, _ | _⟩ := h
      rw [List.append_nil]
      exact .compound (compound_of_statement first)
    · have other : ∀ body, statements ≠ [.block body] := fun body same => single ⟨body, same⟩
      rw [ofStatements_eq_mk other]
      exact .sequence h other

/-- The parser accepts exactly the programs of the grammar, and reads all of the tokens where it does. -/
theorem parser_eq_ok_iff {tokens : List Token} (unsigned : Unsigned tokens) {b : Block} :
    (∃ rest, parser tokens = .ok b rest) ↔ Grammar.Program (kinds tokens) b := by
  have enough : 3 * tokens.length ≤ Expr.depthFor tokens := by
    unfold Expr.depthFor
    omega
  have reads := Stmt.readAll_reads _ enough
  rw [program_iff]
  constructor
  · rintro ⟨rest, run⟩
    obtain ⟨statements, _, all, result⟩ := bind_eq_ok.1 run
    obtain ⟨rfl, rfl⟩ := EStateM.Result.ok.inj result
    obtain ⟨ks, split, phrase⟩ := reads.sound unsigned all
    obtain rfl := Stmt.readAll_rest unsigned all (by unfold Expr.depthFor; omega)
    rw [kinds_nil, List.append_nil] at split
    exact ⟨statements, split ▸ phrase, rfl⟩
  · rintro ⟨statements, phrase, rfl⟩
    have all : Stmt.readAll (Expr.depthFor tokens) (tokens ++ []) = .ok statements [] :=
      reads.complete (Nat.le_of_eq (congrArg List.length (List.append_nil tokens))) phrase rfl
    rw [List.append_nil] at all
    exact ⟨[], bind_of_ok all⟩

/-- To drop comments and what comes after the end brings no negative integers in. -/
theorem unsigned_readable {tokens : List Token} (h : Unsigned tokens) : Unsigned (Token.readable tokens) := by
  intro value mem
  obtain ⟨token, mem, kind⟩ := List.mem_map.1 mem
  have whole : token ∈ tokens := (List.takeWhile_sublist _).subset (List.mem_filter.1 mem).1
  exact h value (List.mem_map.2 ⟨token, whole, kind⟩)

/-- Tokens are accepted exactly if the grammar has them as a program. The tree is the one that the grammar has for
them, and it has no annotations. -/
theorem parse_eq_ok_iff_program {tokens : List Token}
    (unsigned : ∀ value, Token.Kind.integer value ∈ kinds tokens → 0 ≤ value.toInt) (b : Block) :
    (Block.parse tokens = .ok b ↔ Grammar.Program (kinds (Token.readable tokens)) b) ∧
      (Block.parse tokens = .ok b → b.erase = b) := by
  have accepted : Block.parse tokens = .ok b ↔ Grammar.Program (kinds (Token.readable tokens)) b := by
    rw [← parser_eq_ok_iff (unsigned_readable unsigned)]
    exact Parser.value_eq_ok
  exact ⟨accepted, fun run => erase_program (accepted.1 run)⟩

/-- Brackets after a name are an index here, the comment is passed over, and what comes after the end does not
count. -/
theorem parse_eq_ok_iff_program_index :
    ∃ tokens b, kinds tokens = [.identifier "a", .punct .leftBracket, .punct .minus, .integer 1,
        .punct .rightBracket, .punct .assign, .punct .minus, .identifier "x", .punct .star, .comment "twice",
        .integer 2, .punct .plus, .identifier "y", .punct .semicolon, .endOfFile, .punct .star] ∧
      b = ⟨[.assign (.index (.name "a") (.unary .neg (.literal (.int 1))))
        (.binary .add (.binary .mul (.unary .neg (.name "x")) (.literal (.int 2))) (.name "y"))], none⟩ ∧
      (∀ value, Token.Kind.integer value ∈ kinds tokens → 0 ≤ value.toInt) ∧ Block.parse tokens = .ok b ∧
      Grammar.Program (kinds (Token.readable tokens)) b ∧ b.erase = b := by
  refine ⟨List.map (fun kind => ⟨kind, "", ⟨1, 1⟩⟩) _, _, List.map_map.trans (List.map_id _), rfl, ?unsigned, rfl,
    (parse_eq_ok_iff_program ?unsigned _).1.1 rfl, (parse_eq_ok_iff_program ?unsigned _).2 rfl⟩
  intro value mem
  obtain rfl | rfl : value = 1 ∨ value = 2 := by simpa [kinds] using mem
  all_goals decide

end Block

end MiniC
