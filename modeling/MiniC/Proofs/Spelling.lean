import MiniC.Program.Snapshot
import MiniC.Proofs.Generated
import MiniC.Proofs.Listing
import MiniC.Proofs.Programs
import MiniC.Proofs.Rv32.Assembled
import MiniC.Proofs.WellFormed

/-!
# How names are spelled

A name in a source is an identifier: letters, digits and underscores, with no digit in front. Every tree
that is read from a source declares such names only (`Source.parse_spelled`), and lowering makes every
label from a name or a word of its own, an underscore and a number. So the labels of a program are
identifiers again, and none of them is a label that every assembly file defines (`Source.lower_named`).

In a listing an identifier cannot be taken for a number, a mark or a comment. With the shapes of the
instructions that lowering makes, the listing of a program therefore reads back (`Source.lower_listing`).
-/

namespace MiniC

/-! ## Tokens -/

/-- What the scanner ensures of a token: a name is an identifier, and a number has no sign. -/
def Token.Kind.WellSpelled : Token.Kind → Prop
  | .identifier name => Rv32.isIdentifier name.toList
  | .integer value => 0 ≤ value.toInt
  | _ => True

namespace Piece

/-- A piece is a blank or a well-spelled token. -/
def WellSpelled (piece : Piece) : Prop :=
  ∀ kind ∈ piece.kind?, kind.WellSpelled

/-- Strings are neither names nor numbers. -/
theorem wellSpelled_string {here : Position} {cs : List Char} {piece : Piece}
    (h : string here cs = .ok piece) : piece.WellSpelled := by
  obtain ⟨⟨text, spelling, rest⟩, -, h⟩ := except_bind_eq_ok.1 h
  cases h
  rintro kind ⟨⟩
  trivial

/-- Characters are neither names nor numbers. -/
theorem wellSpelled_closeChar {here : Position} {value : Char} {spelling cs : List Char} {piece : Piece}
    (h : closeChar here value spelling cs = .ok piece) : piece.WellSpelled := by
  unfold closeChar at h
  split at h
  · cases h
    rintro kind ⟨⟩
    trivial
  · cases h

/-- A character literal is well spelled, be it that it is escaped or not. -/
theorem wellSpelled_char {here : Position} {cs : List Char} {piece : Piece}
    (h : char here cs = .ok piece) : piece.WellSpelled := by
  unfold char at h
  split at h
  · cases h
  · obtain ⟨⟨value, written, rest⟩, -, h⟩ := except_bind_eq_ok.1 h
    exact wellSpelled_closeChar h
  · split at h
    · cases h
    · exact wellSpelled_closeChar h

/-- The first digit of a number stays in front when the underscores go. -/
theorem wellSpelled_numberKind? {c : Char} {cs : List Char} {kind : Token.Kind} (digit : c.isDigit)
    (h : numberKind? (c :: cs) = some kind) : kind.WellSpelled := by
  have kept : (c :: cs).filter (· ≠ '_') = c :: cs.filter (· ≠ '_') :=
    List.filter_cons_of_pos (decide_eq_true (by rintro rfl; cases digit))
  simp only [numberKind?, kept] at h
  split at h
  · obtain ⟨value, -, rfl⟩ := Option.map_eq_some_iff.1 h
    trivial
  · obtain ⟨value, read, rfl⟩ := Option.map_eq_some_iff.1 h
    exact Number.readInt32_nonneg digit read

/-- A number starts with a digit, so it has no sign. -/
theorem wellSpelled_number {here : Position} {c : Char} {cs : List Char} {piece : Piece} (digit : c.isDigit)
    (h : number here c cs = .ok piece) : piece.WellSpelled := by
  simp only [number] at h
  split at h
  · rename_i kind read
    cases h
    rintro kind ⟨⟩
    exact wellSpelled_numberKind? digit read
  · cases h

/-- A word starts with a letter or an underscore and goes on with those and digits, which makes it an identifier. -/
theorem wellSpelled_word {c : Char} {cs : List Char} (start : isWordStart c) : (word c cs).WellSpelled := by
  have identifier : Rv32.isIdentifier (c :: cs.takeWhile isWordChar) := by
    simp only [Rv32.isIdentifier, Bool.and_eq_true]
    exact ⟨start, List.all_takeWhile⟩
  rintro kind ⟨⟩
  show (wordKind _).WellSpelled
  unfold wordKind
  split
  · trivial
  · show Rv32.isIdentifier (String.ofList _).toList
    rw [String.toList_ofList]
    exact identifier

/-- Every piece that is cut from a text is well spelled. -/
theorem read_wellSpelled {here : Position} {c : Char} {cs : List Char} {piece : Piece}
    (h : read here c cs = .ok piece) : piece.WellSpelled := by
  unfold read at h
  split at h
  · cases h
    exact nofun
  split at h
  · cases h
    rintro kind ⟨⟩
    trivial
  split at h
  · cases h
    rintro kind ⟨⟩
    trivial
  split at h
  · exact wellSpelled_string h
  split at h
  · exact wellSpelled_char h
  split at h
  · rename_i digit
    exact wellSpelled_number digit h
  split at h
  · rename_i start
    cases h
    exact wellSpelled_word start
  · cases h

/-- A token has the kind of its piece. -/
theorem wellSpelled_token? {piece : Piece} (h : piece.WellSpelled) {here : Position} {keep : Bool}
    {token : Token} (mem : token ∈ piece.token? here keep) : token.kind.WellSpelled := by
  unfold token? at mem
  split at mem
  · cases mem
  · split at mem
    · cases mem
      trivial
    · cases mem
  · rename_i kind _ found
    cases mem
    exact h kind found

end Piece

/-- Every token that the scanner makes is well spelled. -/
theorem Token.scanFrom_wellSpelled {keep : Bool} {bound : Nat} {here : Position} {cs : List Char}
    {tokens : List Token} (h : scanFrom keep bound here cs = .ok tokens) :
    ∀ token ∈ tokens, token.kind.WellSpelled := by
  induction bound generalizing here cs tokens with
  | zero =>
    cases h
    simp [eof, Kind.WellSpelled]
  | succ bound ih =>
    cases cs with
    | nil =>
      cases h
      simp [eof, Kind.WellSpelled]
    | cons c cs =>
      obtain ⟨piece, read, h⟩ := except_bind_eq_ok.1 h
      obtain ⟨others, rest, h⟩ := except_bind_eq_ok.1 h
      cases h
      intro token mem
      rcases List.mem_append.1 mem with here | later
      · exact Piece.wellSpelled_token? (Piece.read_wellSpelled read) (Option.mem_toList.1 here)
      · exact ih rest token later

/-! ## Declared names -/

open Grammar

/-- Every member of a list is a phrase among the tokens of the list. -/
theorem Grammar.Separated.exists_mem {α : Type} {Item : List Token.Kind → α → Prop} {ks : List Token.Kind}
    {as : List α} (h : Separated Item ks as) {a : α} (mem : a ∈ as) : ∃ ks', Item ks' a ∧ ks' ⊆ ks := by
  induction h with
  | one h =>
    cases List.mem_singleton.1 mem
    exact ⟨_, h, List.Subset.refl _⟩
  | more h _ ih =>
    rcases List.mem_cons.1 mem with rfl | later
    · exact ⟨_, h, List.subset_append_left _ _⟩
    · obtain ⟨ks', item, sub⟩ := ih later
      exact ⟨ks', item, fun k held => List.mem_append_right _ (.tail _ (sub held))⟩

/-- A name that a simple statement declares stands in it. -/
theorem Stmt.mem_of_declaration {ks : List Token.Kind} {s : Stmt} (h : Declaration ks s) {name : String}
    (mem : name ∈ s.declaredNames) : .identifier name ∈ ks := by
  obtain ⟨-, declared⟩ := h
  obtain ⟨d, held, rfl⟩ := List.mem_map.1 mem
  obtain ⟨ks', item, sub⟩ := declared.exists_mem held
  refine List.mem_append_right _ (sub ?_)
  cases item with
  | bare => exact .head _
  | valued _ => exact .head _

/-- A name that the start of a loop declares stands in it. -/
theorem Stmt.mem_of_start {ks : List Token.Kind} {s : Stmt} (h : Grammar.Start ks s) {name : String}
    (mem : name ∈ s.declaredNames) : .identifier name ∈ ks := by
  cases h with
  | declaration h => exact Stmt.mem_of_declaration h mem
  | assignment h =>
    cases h
    cases mem

/-- Only declarations among the simple statements declare names. -/
theorem Stmt.mem_of_simpleStatement {ks : List Token.Kind} {s : Stmt} (h : SimpleStatement ks s)
    {name : String} (mem : name ∈ s.declaredNames) : .identifier name ∈ ks := by
  obtain ⟨h⟩ := h
  cases h with
  | start h => exact List.mem_append_left _ (Stmt.mem_of_start h mem)
  | expression _ => cases mem

mutual

/-- A name that a statement declares stands in it. -/
theorem Stmt.mem_of_statement {ks : List Token.Kind} {s : Stmt} {name : String} :
    Statement ks s → name ∈ s.declaredNames → .identifier name ∈ ks
  | .simple h, mem => Stmt.mem_of_simpleStatement h mem
  | .compound h, mem => Block.mem_of_compound h mem
  | .conditional h, mem => Stmt.mem_of_conditional h mem
  | .whileLoop _ body, mem => by
    have held := Block.mem_of_compound body mem
    simp [held]
  | .doWhile body _, mem => by
    have held := Block.mem_of_compound body mem
    simp [held]
  | .forLoop init _ step body, mem => by
    rcases List.mem_append.1 mem with first | mem
    · have held := Stmt.mem_of_start init first
      simp [held]
    rcases List.mem_append.1 mem with inner | last
    · have held := Block.mem_of_compound body inner
      simp [held]
    · cases step
      cases last
  | .function _ _ body, mem => by
    have held := Block.mem_of_compound body mem
    simp [held]
  | .print _, mem | .input _, mem | .breakLoop, mem | .continueLoop, mem | .returnNothing, mem
  | .returnValue _, mem => nomatch mem

theorem Stmt.mem_of_conditional {ks : List Token.Kind} {s : Stmt} {name : String} :
    Conditional ks s → name ∈ s.declaredNames → .identifier name ∈ ks
  | .ifThen _ body, mem => by
    have held := Block.mem_of_compound body mem
    simp [held]
  | .ifElse _ body otherwise, mem => by
    rcases List.mem_append.1 mem with first | second
    · have held := Block.mem_of_compound body first
      simp [held]
    · have held := Block.mem_of_compound otherwise second
      simp [held]
  | .elseIf _ body otherwise, mem => by
    rcases List.mem_append.1 mem with first | second
    · have held := Block.mem_of_compound body first
      simp [held]
    · have held := Stmt.mem_of_conditional otherwise second
      simp [held]

theorem Block.mem_of_compound {ks : List Token.Kind} {b : Block} {name : String} :
    Compound ks b → name ∈ b.declaredNames → .identifier name ∈ ks
  | .intro h, mem => by
    have held := Stmt.mem_of_sequence h mem
    simp [held]

theorem Stmt.mem_of_sequence {ks : List Token.Kind} {statements : List Stmt} {name : String} :
    Sequence ks statements → name ∈ Stmt.allDeclaredNames statements → .identifier name ∈ ks
  | .nil, mem => nomatch mem
  | .cons first rest, mem => by
    rcases List.mem_append.1 mem with here | later
    · exact List.mem_append_left _ (Stmt.mem_of_statement first here)
    · exact List.mem_append_right _ (Stmt.mem_of_sequence rest later)

end

/-- A name that a program declares stands among its tokens. -/
theorem Block.mem_of_program {ks : List Token.Kind} {b : Block} (h : Grammar.Program ks b) {name : String}
    (mem : name ∈ b.declaredNames) : .identifier name ∈ ks := by
  cases h with
  | compound h => exact Block.mem_of_compound h mem
  | sequence h _ => exact Stmt.mem_of_sequence h mem

/-- The names that a tree declares are identifiers. -/
theorem Source.parse_spelled {source : String} {keep : Bool} {tree : Block}
    (h : Source.parse source keep = .ok tree) :
    ∀ name ∈ tree.declaredNames, Rv32.isIdentifier name.toList := by
  obtain ⟨tokens, scanned, h⟩ := except_bind_eq_ok.1 h
  have spelled := Token.scanFrom_wellSpelled (mapError_eq_ok.1 scanned)
  have spelledKinds : ∀ kind ∈ kinds tokens, kind.WellSpelled := List.forall_mem_map.2 spelled
  have unsigned : Unsigned tokens := fun value mem => spelledKinds (.integer value) mem
  have phrase : Grammar.Program (kinds (Token.readable tokens)) tree :=
    (Block.parser_eq_ok_iff (Block.unsigned_readable unsigned)).1
      (Parser.value_eq_ok.1 (mapError_eq_ok.1 h))
  intro name mem
  obtain ⟨token, readable, kind⟩ := List.mem_map.1 (Block.mem_of_program phrase mem)
  have held : token ∈ tokens := (List.takeWhile_sublist _).subset (List.mem_filter.1 readable).1
  have wellSpelled := spelled token held
  rw [kind] at wellSpelled
  exact wellSpelled

/-! ## Labels -/

namespace Rv32

/-- An identifier may go on with letters, digits and underscores. -/
theorem isIdentifier_append {front back : List Char} (h : isIdentifier front)
    (chars : ∀ c ∈ back, c.isAlphanum ∨ c = '_') : isIdentifier (front ++ back) := by
  cases front with
  | nil => cases h
  | cons c cs =>
    simp only [isIdentifier, Bool.and_eq_true] at h
    simp only [List.cons_append, isIdentifier, List.all_append, Bool.and_eq_true, List.all_eq_true,
      Bool.or_eq_true, decide_eq_true_eq]
    exact ⟨by simpa using h.1, by simpa using h.2, chars⟩

/-- A number after an identifier makes another. -/
theorem isIdentifier_numbered {stem : String} (h : isIdentifier stem.toList) (number : Nat) :
    isIdentifier (numbered stem number).toList := by
  rw [toList_numbered]
  refine isIdentifier_append h fun c mem => ?_
  rcases List.mem_cons.1 mem with rfl | digit
  · exact .inr rfl
  · exact .inl (by simp [Char.isAlphanum, Nat.isDigit_of_mem_toDigits (by decide) (by decide) digit])

/-- The labels that every file defines end in a letter. -/
theorem getLast?_sharedLabels : ∀ label ∈ sharedLabels, label.toList.getLast? = some 'E' := by
  decide

/-- A name with a number ends in a digit, and so is none of the labels that every file defines. -/
theorem numbered_notMem_sharedLabels (stem : String) (number : Nat) : numbered stem number ∉ sharedLabels := by
  intro mem
  have letter := getLast?_sharedLabels _ mem
  have nonempty : Nat.toDigits 10 number ≠ [] := Nat.toDigits_ne_nil
  have digit := Nat.isDigit_of_mem_toDigits (by decide) (by decide) (List.getLast_mem nonempty)
  have same : (Nat.toDigits 10 number).getLast nonempty = 'E' := by
    simpa [toList_numbered, List.getLast?_cons, List.getLast?_eq_some_getLast nonempty] using letter
  rw [same] at digit
  cases digit

end Rv32

namespace CheckedSource.Lowers

variable {checked : CheckedSource} (h : checked.Lowers) {names : List String}
  (named : checked.tree.declared.map checked.table.nameOf? = names.map some)
  (spelled : ∀ name ∈ names, Rv32.isIdentifier name.toList)

include h named spelled

/-- The labels of data are made of identifiers and numbers. -/
theorem numbered_of_mem_dataLabels {label : String} (mem : label ∈ checked.program.dataLabels) :
    ∃ stem number, Rv32.isIdentifier stem.toList ∧ label = numbered stem number := by
  rcases mem_dataLabels.1 mem with literal | stored
  · obtain ⟨entry, held, rfl⟩ := List.mem_map.1 literal
    rcases mem_entries_addLiterals held with old | ⟨l, -, rfl⟩
    · cases old
    · exact ⟨_, l.1, by decide, rfl⟩
  · have key := (h.perm_static named).mem_iff.1 stored
    rw [← List.map_uncurry_zip_eq_zipWith] at key
    obtain ⟨⟨name, number⟩, pair, rfl⟩ := List.mem_map.1 key
    obtain ⟨-, chars⟩ := Rv32.isIdentifier_chars (spelled name (List.of_mem_zip pair).1)
    refine ⟨"v_" ++ name, number, ?_, rfl⟩
    rw [String.toList_append]
    exact Rv32.isIdentifier_append (by decide) chars

/-- So are all names in the program. -/
theorem numbered_of_mem_labelNames {label : String} (mem : label ∈ checked.program.labelNames) :
    ∃ stem number, Rv32.isIdentifier stem.toList ∧ label = numbered stem number := by
  have ofMark : ∀ label ∈ marks checked.program.code,
      ∃ stem number, Rv32.isIdentifier stem.toList ∧ label = numbered stem number := by
    intro label marked
    obtain ⟨stem, control, number, -, -, rfl⟩ := (Block.marked_code _ 0 checked.tree).form label marked
    have words : ∀ stem ∈ controlStems, Rv32.isIdentifier stem.toList := by decide
    exact ⟨stem, number, words stem control, rfl⟩
  rcases List.mem_append.1 mem with inCode | data
  · obtain ⟨i, held, found⟩ := List.mem_filterMap.1 inCode
    have operand : i.operand = .label label := by
      obtain ⟨op, operand⟩ := i
      cases operand <;> cases found
      rfl
    -- A mark names itself; any other name in an operand was resolved to a mark or to data.
    by_cases mark : i.op = .label
    · refine ofMark label ?_
      have plain := h.wellFormed.plain i held mark
      have same : label = Machine.markName i := by
        rw [plain] at operand
        exact (Operand.label.inj operand).symm
      rw [same]
      exact List.mem_map.2 ⟨i, List.mem_filter.2 ⟨held, decide_eq_true mark⟩, rfl⟩
    · rcases h.wellLabelled.resolved i held mark label operand with marked | ⟨-, data⟩
      · exact ofMark label marked
      · exact h.numbered_of_mem_dataLabels named spelled data
  · exact h.numbered_of_mem_dataLabels named spelled data

end CheckedSource.Lowers

/-- The names in the program of a source are identifiers, and none of those that every assembly file
defines. -/
theorem Source.lower_named {source : String} {options : Options} {p : Program}
    (h : Source.lower source options = .ok p) : Rv32.Named p := by
  obtain ⟨checked, table, hcheck, -, lowers, rfl, -⟩ := Source.lower_eq_ok h
  obtain ⟨tree, c, hparse, shaped, accepted, table_eq⟩ := Source.check_eq_ok hcheck
  have named : checked.tree.declared.map checked.table.nameOf? = tree.declaredNames.map some := by
    rw [table_eq]
    exact Checker.checkBlock_named accepted shaped SymbolTable.initial_sound lowers.hasCode (.refl _)
  intro label mem
  obtain ⟨stem, number, identifier, rfl⟩ :=
    lowers.numbered_of_mem_labelNames named (Source.parse_spelled hparse) mem
  exact ⟨Rv32.isIdentifier_numbered identifier number, Rv32.numbered_notMem_sharedLabels stem number⟩

/-! ## Listings -/

/-- An identifier has no blank in it. -/
theorem Text.isWord_of_isIdentifier {w : List Char} (h : Rv32.isIdentifier w) : Text.IsWord w := by
  obtain ⟨nonempty, chars⟩ := Rv32.isIdentifier_chars h
  exact ⟨nonempty, fun c mem => Rv32.not_isBlank_of_isAlphanum (chars c mem)⟩

/-- An identifier starts with neither a digit nor a sign. -/
theorem Number.readInt32_of_isIdentifier {w : List Char} (h : Rv32.isIdentifier w) :
    Number.readInt32 w = none := by
  cases w with
  | nil => cases h
  | cons c cs =>
    have notDigit := Rv32.not_isDigit_of_isIdentifier h
    simp only [Rv32.isIdentifier, Bool.and_eq_true, Bool.or_eq_true, decide_eq_true_eq] at h
    refine Number.readInt32_eq_none ?_ ?_ notDigit
    · rintro rfl
      exact absurd h.1 (by decide)
    · rintro rfl
      exact absurd h.1 (by decide)

/-- An instruction that lowering makes is canonical, if the name in it is an identifier. -/
theorem Instruction.IsGenerated.canonical {i : Instruction} (h : i.IsGenerated)
    (named : ∀ name ∈ i.labelName?, Rv32.isIdentifier name.toList) : i.Canonical := by
  have word : ∀ name ∈ i.labelName?, Text.IsWord name.toList :=
    fun name mem => Text.isWord_of_isIdentifier (named name mem)
  have outside : ∀ name ∈ i.labelName?, '#' ∉ name.toList ∧ ':' ∉ name.toList := by
    intro name mem
    have chars := (Rv32.isIdentifier_chars (named name mem)).2
    exact ⟨fun inside => absurd (chars _ inside) (by decide), fun inside => absurd (chars _ inside) (by decide)⟩
  have comment : ∀ name ∈ i.labelName?, name.toList.head? ≠ some '#' :=
    fun name mem first => (outside name mem).1 (List.mem_of_head? first)
  have colon : ∀ name ∈ i.labelName?, name.toList.getLast? ≠ some ':' :=
    fun name mem last => (outside name mem).2 (List.mem_of_getLast? last)
  cases h with
  | operator op => exact .bare (by cases op <;> decide)
  | @sign op code made => exact .bare (by cases op <;> cases made <;> decide)
  | service op =>
    simp only [List.mem_cons, List.not_mem_nil, or_false] at op
    rcases op with rfl | rfl | rfl | rfl | rfl
    all_goals exact .bare (by decide)
  | pushInt value => exact .pushInt value
  | pushLabel name =>
    exact .pushLabel (word name rfl) (colon name rfl) (Number.readInt32_of_isIdentifier (named name rfl))
  | mark name => exact .mark (word name rfl) (comment name rfl)
  | jump name => exact .goTo (by decide) (word name rfl) (colon name rfl)
  | branchIfZero name => exact .goTo (by decide) (word name rfl) (colon name rfl)
  | branchIfNotZero name => exact .goTo (by decide) (word name rfl) (colon name rfl)

/-- The listing of the program of a source reads back as a program with the same code. -/
theorem Source.lower_listing {source : String} {options : Options} {p : Program}
    (h : Source.lower source options = .ok p) :
    ∃ q, Program.ofListing p.listing = .ok q ∧ q.code = p.code := by
  have named := Source.lower_named h
  obtain ⟨checked, table, -, -, lowers, rfl, -⟩ := Source.lower_eq_ok h
  have back : Instruction.ofListing (Instruction.listing checked.program.code) = .ok checked.program.code :=
    Instruction.ofListing_of_canonical fun i mem =>
      (lowers.generated.each i mem).canonical (named.instruction mem)
  refine ⟨{ code := checked.program.code }, ?_, rfl⟩
  rw [Program.ofListing, Program.listing, back]
  rfl

set_option maxRecDepth 100000 in
/-- A name that ends like a label, an element of an array, logic, and strings that hold a comment and a mark. -/
theorem Source.lower_listing_loop :
    ∃ (source : String) (p q : Program),
      source = "\x7b int[2] x_1; do \x7b x_1[1] = -5; \x7d while (!(\"#\" == \"a:\")); \x7d" ∧
      Source.lower source = .ok p ∧ Instruction.pushLabel "v_x_1_0" ∈ p.code ∧
      Instruction.branchIfZero "ENDWHILE_1" ∈ p.code ∧
      Program.ofListing p.listing = .ok q ∧ q.code = p.code := by
  generalize hsource :
    "\x7b int[2] x_1; do \x7b x_1[1] = -5; \x7d while (!(\"#\" == \"a:\")); \x7d" = source
  have lowers : (Source.lower source).toOption.any (fun p =>
      Instruction.pushLabel "v_x_1_0" ∈ p.code ∧ Instruction.branchIfZero "ENDWHILE_1" ∈ p.code) := by
    subst hsource
    decide +kernel
  cases lowered : Source.lower source with
  | error e => simp [lowered, Except.toOption] at lowers
  | ok p =>
    rw [lowered] at lowers
    obtain ⟨pushed, branched⟩ := of_decide_eq_true lowers
    obtain ⟨q, back, same⟩ := Source.lower_listing lowered
    exact ⟨source, p, q, rfl, lowered, pushed, branched, back, same⟩

end MiniC
