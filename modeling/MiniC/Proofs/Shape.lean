import MiniC.Compile
import MiniC.Proofs.Results

/-!
# The shape of trees that were read

Reading promises two things of a tree that the type of trees does not: arrays have at least one element,
and a `for` loop starts with a declaration or an assignment and steps by an assignment. Both matter
later: a block of memory is never empty, and a step declares nothing.
-/

namespace MiniC

/-- No array among the qualifiers is empty. -/
def positiveLengths (qualifiers : List Qualifier) : Prop :=
  ∀ length, .array length ∈ qualifiers → 0 < length

/-- Whether a statement is an assignment. -/
def Stmt.IsAssign : Stmt → Prop
  | .assign .. => True
  | _ => False

/-- Whether a statement is a declaration or an assignment. -/
def Stmt.IsStart : Stmt → Prop
  | .declare .. | .assign .. => True
  | _ => False

mutual

/-- The shape that reading gives to statements. -/
def Stmt.Shaped : Stmt → Prop
  | .block body => body.Shaped
  | .ifThen _ body => body.Shaped
  | .ifElse _ body otherwise => body.Shaped ∧ otherwise.Shaped
  | .whileLoop _ body => body.Shaped
  | .doWhile body _ => body.Shaped
  | .forLoop init _ step body => (init.IsStart ∧ init.Shaped) ∧ step.IsAssign ∧ body.Shaped
  | .function _ _ _ body _ => body.Shaped
  | .declare ty _ => positiveLengths ty.qualifiers
  | .assign .. | .eval _ | .print _ | .input _ | .breakLoop | .continueLoop | .returnValue _ => True

/-- The shape that reading gives to blocks. -/
def Block.Shaped : Block → Prop
  | ⟨statements, _⟩ => Stmt.AllShaped statements

/-- The shape that reading gives to the statements of a block. -/
def Stmt.AllShaped : List Stmt → Prop
  | [] => True
  | statement :: rest => statement.Shaped ∧ Stmt.AllShaped rest

end

/-- An assignment has no parts that need a shape. -/
theorem Stmt.IsAssign.shaped {s : Stmt} (h : s.IsAssign) : s.Shaped := by
  cases s with
  | assign target value => trivial
  | _ => cases h

namespace TypeExpr

/-- A length that is read is positive; anything else is refused. -/
theorem readLength_pos {line : Nat} {tokens rest : List Token} {length : Nat}
    (h : readLength line tokens = .ok length rest) : 0 < length := by
  simp only [readLength, bind_eq_ok] at h
  obtain ⟨negative, _, _, kind, _, _, h⟩ := h
  split at h
  · simp only [bind_eq_ok] at h
    obtain ⟨_, _, _, _, _, _, h⟩ := h
    generalize (if negative then _ else _ : Int) = size at h
    by_cases positive : size ≤ 0
    · simp [positive] at h
    · rw [if_neg positive] at h
      obtain ⟨rfl, -⟩ := EStateM.Result.ok.inj h
      omega
  · unfold Parser.fail at h
    split at h <;> simp at h

/-- No qualifier that is read is an empty array. -/
theorem readQualifiers_positive {bound : Nat} {tokens rest : List Token}
    {qualifiers : List Qualifier} (h : readQualifiers bound tokens = .ok qualifiers rest) :
    positiveLengths qualifiers := by
  induction bound generalizing tokens rest qualifiers with
  | zero =>
    obtain ⟨rfl, -⟩ := EStateM.Result.ok.inj h
    intro length mem
    cases mem
  | succ bound ih =>
    simp only [readQualifiers, bind_eq_ok] at h
    obtain ⟨next, _, _, h⟩ := h
    split at h
    · simp only [bind_eq_ok] at h
      obtain ⟨_, _, _, inner, _, hinner, h⟩ := h
      obtain ⟨rfl, -⟩ := EStateM.Result.ok.inj h
      intro length mem
      rcases List.mem_cons.1 mem with same | mem
      · cases same
      · exact ih hinner length mem
    · simp only [bind_eq_ok] at h
      obtain ⟨_, _, _, first, _, hfirst, inner, _, hinner, h⟩ := h
      obtain ⟨rfl, -⟩ := EStateM.Result.ok.inj h
      intro length mem
      rcases List.mem_cons.1 mem with same | mem
      · cases same
        exact readLength_pos hfirst
      · exact ih hinner length mem
    · obtain ⟨rfl, -⟩ := EStateM.Result.ok.inj h
      intro length mem
      cases mem

/-- No type that is read has an empty array among its qualifiers. -/
theorem parser_positive {tokens rest : List Token} {ty : TypeExpr}
    (h : TypeExpr.parser tokens = .ok ty rest) : positiveLengths ty.qualifiers := by
  obtain ⟨_, _, _, h⟩ := bind_eq_ok.1 h
  obtain ⟨qualifiers, _, hqualifiers, h⟩ := bind_eq_ok.1 h
  obtain ⟨rfl, -⟩ := EStateM.Result.ok.inj h
  exact readQualifiers_positive hqualifiers

end TypeExpr

namespace Stmt

/-- Declarations are shaped by their type, and what is no declaration needs no shape. -/
theorem simpleParser_shaped {tokens rest : List Token} {s : Stmt}
    (h : simpleParser tokens = .ok s rest) : s.Shaped := by
  unfold simpleParser at h
  split at h
  · obtain ⟨ty, _, hty, h⟩ := bind_eq_ok.1 h
    obtain ⟨declarators, _, _, h⟩ := bind_eq_ok.1 h
    obtain ⟨rfl, -⟩ := EStateM.Result.ok.inj h
    exact TypeExpr.parser_positive hty
  · simp only [assignmentParser, bind_eq_ok] at h
    obtain ⟨target, _, _, assigned, _, _, h⟩ := h
    split at h
    · simp only [bind_eq_ok] at h
      obtain ⟨value, _, _, h⟩ := h
      obtain ⟨rfl, -⟩ := EStateM.Result.ok.inj h
      trivial
    · obtain ⟨rfl, -⟩ := EStateM.Result.ok.inj h
      trivial

/-- A loop starts with what the reader lets it start with. -/
theorem forInitParser_shaped {tokens rest : List Token} {s : Stmt}
    (h : forInitParser tokens = .ok s rest) : s.IsStart ∧ s.Shaped := by
  simp only [forInitParser, bind_eq_ok] at h
  obtain ⟨start, _, hstart, h⟩ := h
  have shaped := simpleParser_shaped hstart
  split at h
  · obtain ⟨rfl, -⟩ := EStateM.Result.ok.inj h
    exact ⟨trivial, shaped⟩
  · obtain ⟨rfl, -⟩ := EStateM.Result.ok.inj h
    exact ⟨trivial, shaped⟩
  · unfold Parser.fail at h
    split at h <;> simp at h

/-- A loop steps by an assignment, since the reader refuses everything else. -/
theorem forStepParser_isAssign {tokens rest : List Token} {s : Stmt}
    (h : forStepParser tokens = .ok s rest) : s.IsAssign := by
  simp only [forStepParser, bind_eq_ok] at h
  obtain ⟨start, _, _, h⟩ := h
  split at h
  · obtain ⟨rfl, -⟩ := EStateM.Result.ok.inj h
    trivial
  · unfold Parser.fail at h
    split at h <;> simp at h

/-- A value that is returned needs no shape. -/
theorem returnParser_shaped {tokens rest : List Token} {s : Stmt}
    (h : returnParser tokens = .ok s rest) : s.Shaped := by
  simp only [returnParser, bind_eq_ok] at h
  obtain ⟨next, _, _, h⟩ := h
  split at h
  · simp only [bind_eq_ok] at h
    obtain ⟨_, _, _, h⟩ := h
    obtain ⟨rfl, -⟩ := EStateM.Result.ok.inj h
    trivial
  · simp only [bind_eq_ok] at h
    obtain ⟨value, _, _, _, _, _, h⟩ := h
    obtain ⟨rfl, -⟩ := EStateM.Result.ok.inj h
    trivial

/-- What the four readers of nested statements promise at a given depth. -/
structure ReadsShaped (depth : Nat) : Prop where
  statement : ∀ {tokens rest s}, read depth tokens = .ok s rest → s.Shaped
  conditional : ∀ {tokens rest s}, readIf depth tokens = .ok s rest → s.Shaped
  block : ∀ {tokens rest body}, readBlock depth tokens = .ok body rest → body.Shaped
  untilBrace : ∀ {tokens rest statements},
    readUntilBrace depth tokens = .ok statements rest → AllShaped statements

/-- Without depth nothing is read. -/
theorem readsShaped_zero : ReadsShaped 0 := by
  constructor
  all_goals
    intro tokens rest _ h
    cases tokens <;> cases h

/-- The branches of a conditional are shaped, the alternative as well if it is another conditional. -/
theorem readIf_shaped {depth : Nat} (ih : ReadsShaped depth) {tokens rest : List Token} {s : Stmt}
    (h : readIf (depth + 1) tokens = .ok s rest) : s.Shaped := by
  simp only [readIf, bind_eq_ok] at h
  obtain ⟨_, _, _, condition, _, _, body, _, hbody, more, _, _, h⟩ := h
  split at h
  · simp only [bind_eq_ok] at h
    obtain ⟨next, _, _, h⟩ := h
    split at h
    · simp only [bind_eq_ok] at h
      obtain ⟨otherwise, _, hotherwise, h⟩ := h
      obtain ⟨rfl, -⟩ := EStateM.Result.ok.inj h
      exact ⟨ih.block hbody, ih.conditional hotherwise⟩
    · simp only [bind_eq_ok] at h
      obtain ⟨otherwise, _, hotherwise, h⟩ := h
      obtain ⟨rfl, -⟩ := EStateM.Result.ok.inj h
      exact ⟨ih.block hbody, ih.block hotherwise⟩
  · obtain ⟨rfl, -⟩ := EStateM.Result.ok.inj h
    exact ih.block hbody

/-- The statements of a block are shaped one by one. -/
theorem readUntilBrace_shaped {depth : Nat} (ih : ReadsShaped depth) {tokens rest : List Token}
    {statements : List Stmt} (h : readUntilBrace (depth + 1) tokens = .ok statements rest) :
    AllShaped statements := by
  simp only [readUntilBrace, bind_eq_ok] at h
  obtain ⟨next, _, _, h⟩ := h
  split at h
  · unfold Parser.fail at h
    split at h <;> simp at h
  · simp only [bind_eq_ok] at h
    obtain ⟨_, _, _, h⟩ := h
    obtain ⟨rfl, -⟩ := EStateM.Result.ok.inj h
    trivial
  · simp only [bind_eq_ok] at h
    obtain ⟨first, _, hfirst, others, _, hothers, h⟩ := h
    obtain ⟨rfl, -⟩ := EStateM.Result.ok.inj h
    exact ⟨ih.statement hfirst, ih.untilBrace hothers⟩

/-- A statement is shaped if its parts are. The cases are those of its first token. -/
theorem read_shaped {depth : Nat} (ih : ReadsShaped depth) {tokens rest : List Token} {s : Stmt}
    (h : read (depth + 1) tokens = .ok s rest) : s.Shaped := by
  simp only [read, bind_eq_ok] at h
  obtain ⟨next, _, _, h⟩ := h
  split at h
  · simp only [bind_eq_ok] at h
    obtain ⟨body, _, hbody, h⟩ := h
    obtain ⟨rfl, -⟩ := EStateM.Result.ok.inj h
    exact ih.block hbody
  · exact ih.conditional h
  · simp only [bind_eq_ok] at h
    obtain ⟨_, _, _, condition, _, _, body, _, hbody, h⟩ := h
    obtain ⟨rfl, -⟩ := EStateM.Result.ok.inj h
    exact ih.block hbody
  · simp only [bind_eq_ok] at h
    obtain ⟨_, _, _, body, _, hbody, _, _, _, condition, _, _, _, _, _, h⟩ := h
    obtain ⟨rfl, -⟩ := EStateM.Result.ok.inj h
    exact ih.block hbody
  · simp only [bind_eq_ok] at h
    obtain ⟨_, _, _, _, _, _, init, _, hinit, _, _, _, condition, _, _, _, _, _, step, _, hstep,
      _, _, _, body, _, hbody, h⟩ := h
    obtain ⟨rfl, -⟩ := EStateM.Result.ok.inj h
    exact ⟨forInitParser_shaped hinit, forStepParser_isAssign hstep, ih.block hbody⟩
  · simp only [bind_eq_ok] at h
    obtain ⟨_, _, _, name, _, _, _, _, _, parameters, _, _, arrow, _, _, h⟩ := h
    split at h
    · simp only [bind_eq_ok] at h
      obtain ⟨result, _, _, body, _, hbody, h⟩ := h
      obtain ⟨rfl, -⟩ := EStateM.Result.ok.inj h
      exact ih.block hbody
    · simp only [bind_eq_ok] at h
      obtain ⟨result, _, _, body, _, hbody, h⟩ := h
      obtain ⟨rfl, -⟩ := EStateM.Result.ok.inj h
      exact ih.block hbody
  · simp only [bind_eq_ok] at h
    obtain ⟨_, _, _, value, _, _, _, _, _, h⟩ := h
    obtain ⟨rfl, -⟩ := EStateM.Result.ok.inj h
    trivial
  · simp only [bind_eq_ok] at h
    obtain ⟨_, _, _, target, _, _, _, _, _, h⟩ := h
    obtain ⟨rfl, -⟩ := EStateM.Result.ok.inj h
    trivial
  · simp only [bind_eq_ok] at h
    obtain ⟨_, _, _, _, _, _, h⟩ := h
    obtain ⟨rfl, -⟩ := EStateM.Result.ok.inj h
    trivial
  · simp only [bind_eq_ok] at h
    obtain ⟨_, _, _, _, _, _, h⟩ := h
    obtain ⟨rfl, -⟩ := EStateM.Result.ok.inj h
    trivial
  · simp only [bind_eq_ok] at h
    obtain ⟨_, _, _, h⟩ := h
    exact returnParser_shaped h
  · simp only [simpleStatementParser, bind_eq_ok] at h
    obtain ⟨statement, _, hstatement, _, _, _, h⟩ := h
    obtain ⟨rfl, -⟩ := EStateM.Result.ok.inj h
    exact simpleParser_shaped hstatement

/-- By induction on the depth: every reader calls the others with less of it. -/
theorem readsShaped (depth : Nat) : ReadsShaped depth := by
  induction depth with
  | zero => exact readsShaped_zero
  | succ depth ih =>
    refine ⟨read_shaped ih, readIf_shaped ih, ?_, readUntilBrace_shaped ih⟩
    intro tokens rest body h
    simp only [readBlock, bind_eq_ok] at h
    obtain ⟨_, _, _, statements, _, hstatements, h⟩ := h
    obtain ⟨rfl, -⟩ := EStateM.Result.ok.inj h
    exact ih.untilBrace hstatements

/-- Statements up to the end are shaped, by induction on the depth. -/
theorem readAll_shaped {depth : Nat} {tokens rest : List Token} {statements : List Stmt}
    (h : readAll depth tokens = .ok statements rest) : AllShaped statements := by
  induction depth generalizing tokens rest statements with
  | zero =>
    obtain ⟨rfl, -⟩ := EStateM.Result.ok.inj h
    trivial
  | succ depth ih =>
    simp only [readAll, bind_eq_ok] at h
    obtain ⟨next, _, _, h⟩ := h
    split at h
    · obtain ⟨rfl, -⟩ := EStateM.Result.ok.inj h
      trivial
    · simp only [bind_eq_ok] at h
      obtain ⟨first, _, hfirst, others, _, hothers, h⟩ := h
      obtain ⟨rfl, -⟩ := EStateM.Result.ok.inj h
      exact ⟨(readsShaped depth).statement hfirst, ih hothers⟩

end Stmt

/-- Every tree that is read from tokens is shaped. -/
theorem Block.parse_shaped {tokens : List Token} {tree : Block} (h : Block.parse tokens = .ok tree) :
    tree.Shaped := by
  unfold Block.parse Parser.value at h
  split at h
  · rename_i parsed
    cases h
    obtain ⟨statements, _, hstatements, h⟩ := bind_eq_ok.1 parsed
    obtain ⟨rfl, -⟩ := EStateM.Result.ok.inj h
    have shaped := Stmt.readAll_shaped hstatements
    unfold Block.ofStatements
    split
    · exact shaped.1
    · exact shaped
  · cases h

/-- Every tree that is read from a source is shaped. -/
theorem Source.parse_shaped {source : String} {keepComments : Bool} {tree : Block}
    (h : Source.parse source keepComments = .ok tree) : tree.Shaped := by
  obtain ⟨tokens, _, h⟩ := except_bind_eq_ok.1 h
  exact Block.parse_shaped (mapError_eq_ok.1 h)

end MiniC
