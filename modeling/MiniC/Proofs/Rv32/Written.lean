import MiniC.Proofs.Rv32.Reading

/-!
# Written assembly reads back

A file whose labels are identifiers, different from each other, and whose numbers fit into its
instructions is read from its text as it was, apart from the comments (`File.read_text`). The proof
follows the text: the characters of a line are cut into the tokens that it was written from
(`Instr.lex_text`), and the tokens say what the line says (`Instr.ofTokens?_tokens`).
-/

namespace MiniC.Rv32

/-! ## Cutting a line into tokens -/

/-- A text does not go on with a character of a word. -/
def Separate (cs : List Char) : Prop :=
  cs.head?.any isWordChar = false

/-- A word ends before a character that belongs to no word. -/
theorem separate_cons {c : Char} {cs : List Char} (h : isWordChar c = false) : Separate (c :: cs) := h

/-- The characters of a word. -/
structure IsWord (w : List Char) : Prop where
  nonempty : w ≠ []
  chars : ∀ c ∈ w, isWordChar c

/-- Being a word can be computed, so that words of the language are checked by evaluation. -/
theorem isWord_iff {w : List Char} : IsWord w ↔ w ≠ [] ∧ w.all isWordChar :=
  ⟨fun h => ⟨h.nonempty, List.all_eq_true.2 h.chars⟩, fun h => ⟨h.1, List.all_eq_true.1 h.2⟩⟩

instance (w : List Char) : Decidable (IsWord w) :=
  decidable_of_iff _ isWord_iff.symm

theorem lex_blank (cs : List Char) : lex .plain (' ' :: cs) = lex .plain cs := rfl

theorem lex_comma (cs : List Char) : lex .plain (',' :: cs) = (lex .plain cs).map (.comma :: ·) := rfl

theorem lex_colon (cs : List Char) : lex .plain (':' :: cs) = (lex .plain cs).map (.colon :: ·) := rfl

theorem lex_leftParen (cs : List Char) :
    lex .plain ('(' :: cs) = (lex .plain cs).map (.leftParen :: ·) := rfl

theorem lex_rightParen (cs : List Char) :
    lex .plain (')' :: cs) = (lex .plain cs).map (.rightParen :: ·) := rfl

/-- A character of a word is none of those that have a meaning of their own. -/
theorem lex_wordChar {c : Char} (h : isWordChar c) (cs : List Char) :
    lex .plain (c :: cs) = if cs.head?.any isWordChar then (lex .plain cs).bind (growWord c)
      else (lex .plain cs).map (.word [c] :: ·) := by
  have comment : c ≠ '#' := fun same => by simp [same, isWordChar] at h
  have blank : c ≠ ' ' := fun same => by simp [same, isWordChar] at h
  have quote : c ≠ '"' := fun same => by simp [same, isWordChar] at h
  rw [lex, if_neg comment, if_neg blank, if_neg quote, if_pos h]

/-- A word is cut off where it ends. -/
theorem lex_word {w rest : List Char} (h : IsWord w) (separate : Separate rest) :
    lex .plain (w ++ rest) = (lex .plain rest).map (.word w :: ·) := by
  obtain ⟨nonempty, chars⟩ := h
  induction w with
  | nil => exact absurd rfl nonempty
  | cons c w ih =>
    have first := chars c List.mem_cons_self
    have others := fun d mem => chars d (List.mem_cons_of_mem c mem)
    rw [List.cons_append, lex_wordChar first]
    cases w with
    | nil =>
      rw [List.nil_append, show rest.head?.any isWordChar = false from separate]
      rfl
    | cons d w =>
      have more : (d :: w ++ rest).head?.any isWordChar := others d List.mem_cons_self
      rw [if_pos more, ih (by simp) others]
      cases lex .plain rest <;> rfl

/-- What may stand after the last token of a line. -/
structure Ends (tail : List Char) : Prop where
  separate : Separate tail
  lex_eq : lex .plain tail = some []

theorem ends_nil : Ends [] := ⟨rfl, rfl⟩

theorem ends_comment (comment : List Char) : Ends (' ' :: ' ' :: '#' :: comment) := ⟨rfl, rfl⟩

section Shapes

variable {op x y z tail : List Char}

/-- A line of one word, such as `ecall`. -/
theorem lex_one (hop : IsWord op) (ends : Ends tail) : lex .plain (op ++ tail) = some [.word op] := by
  rw [lex_word hop ends.separate, ends.lex_eq]
  rfl

/-- What stands after a comma stands after a blank too. -/
theorem lex_next {tokens : List Token} (hx : IsWord x) (rest : lex .plain y = some tokens) :
    lex .plain (x ++ ',' :: ' ' :: y) = some (.word x :: .comma :: tokens) := by
  rw [lex_word hx (separate_cons (by decide)), lex_comma, lex_blank, rest]
  rfl

/-- What stands after a label stands after a blank too. -/
theorem lex_labelled {tokens : List Token} (hx : IsWord x) (rest : lex .plain y = some tokens) :
    lex .plain (x ++ ':' :: ' ' :: y) = some (.word x :: .colon :: tokens) := by
  rw [lex_word hx (separate_cons (by decide)), lex_colon, lex_blank, rest]
  rfl

/-- The word that a line starts with, and the blank after it. -/
theorem lex_op (op : List Char) {tokens : List Token} (hop : IsWord op)
    (rest : lex .plain y = some tokens) : lex .plain (op ++ ' ' :: y) = some (.word op :: tokens) := by
  rw [lex_word hop (separate_cons (by decide)), lex_blank, rest]
  rfl

/-- An offset stands right before the parenthesis, with no blank between them. -/
theorem lex_offset {tokens : List Token} (hx : IsWord x) (rest : lex .plain ('(' :: y) = some tokens) :
    lex .plain (x ++ '(' :: y) = some (.word x :: tokens) := by
  rw [lex_word hx (separate_cons (by decide)), rest]
  rfl

/-- A register in parentheses ends every address. -/
theorem lex_paren (hy : IsWord y) (ends : Ends tail) :
    lex .plain ('(' :: (y ++ ')' :: tail)) = some [.leftParen, .word y, .rightParen] := by
  rw [lex_leftParen, lex_word hy (separate_cons (by decide)), lex_rightParen, ends.lex_eq]
  rfl

end Shapes

/-! ## Words -/

/-- The names of the registers are finitely many words. -/
theorem isWord_register (r : Reg) : IsWord r.text.toList := by
  cases r <;> decide

theorem isWord_binaryOp (op : BinaryOp) : IsWord op.mnemonic.toList := by
  cases op <;> decide

theorem isWord_unaryOp (op : UnaryOp) : IsWord op.mnemonic.toList := by
  cases op <;> decide

theorem isWordChar_of_isDigit {c : Char} (h : c.isDigit) : isWordChar c := by
  simp [isWordChar, Char.isAlphanum, h]

/-- A number without its sign is a word, and so no separator falls into it. -/
theorem isWord_toDigits (n : Nat) : IsWord (Nat.toDigits 10 n) :=
  ⟨Nat.toDigits_ne_nil, fun _ mem => isWordChar_of_isDigit (Nat.isDigit_of_mem_toDigits (by decide) (by decide) mem)⟩

/-- The sign of a negative number belongs to its word. -/
theorem isWord_toString (n : Int) : IsWord (toString n).toList := by
  rw [Number.toList_toString]
  refine ⟨by simp [Nat.toDigits_ne_nil], ?_⟩
  intro c mem
  rcases List.mem_append.1 mem with sign | digit
  · by_cases negative : n < 0
    · rw [if_pos negative] at sign
      rw [List.mem_singleton.1 sign]
      decide
    · rw [if_neg negative] at sign
      cases sign
  · exact (isWord_toDigits _).chars c digit

/-- An identifier has a character, and has no others than letters, digits and underscores. -/
theorem isIdentifier_chars {w : List Char} (h : isIdentifier w) :
    w ≠ [] ∧ ∀ c ∈ w, c.isAlphanum ∨ c = '_' := by
  cases w with
  | nil => cases h
  | cons c cs =>
    simp only [isIdentifier, Bool.and_eq_true, Bool.or_eq_true, decide_eq_true_eq, List.all_eq_true] at h
    refine ⟨by simp, ?_⟩
    intro d mem
    rcases List.mem_cons.1 mem with rfl | mem
    · exact h.1.imp_left fun alpha => by simp [Char.isAlphanum, alpha]
    · exact h.2 d mem

/-- An identifier starts with no digit. -/
theorem not_isDigit_of_isIdentifier {c : Char} {cs : List Char} (h : isIdentifier (c :: cs)) : c.isDigit = false := by
  simp only [isIdentifier, Bool.and_eq_true, Bool.or_eq_true, decide_eq_true_eq] at h
  rcases h.1 with letter | rfl
  · unfold Char.isAlpha Char.isUpper Char.isLower at letter
    simp only [Bool.or_eq_true, Bool.and_eq_true, decide_eq_true_eq] at letter
    have range : 65 ≤ c.toNat ∧ c.toNat ≤ 90 ∨ 97 ≤ c.toNat ∧ c.toNat ≤ 122 := letter
    rw [Bool.eq_false_iff]
    intro digit
    simp only [Char.isDigit, Bool.and_eq_true, decide_eq_true_eq] at digit
    have high : c.toNat ≤ 57 := digit.2
    omega
  · decide

/-- Every character of an identifier can stand in a word, so labels are words. -/
theorem isWord_identifier {w : List Char} (h : isIdentifier w) : IsWord w := by
  obtain ⟨nonempty, chars⟩ := isIdentifier_chars h
  refine ⟨nonempty, fun c mem => ?_⟩
  rcases chars c mem with alphanum | rfl
  · simp [isWordChar, alphanum]
  · decide

/-! ## Instructions -/

/-- The tokens of an address. -/
def addressTokens (offset : Int) (base : Reg) : List Token :=
  if offset = 0 then [.leftParen, .word base.text.toList, .rightParen]
  else [.word (toString offset).toList, .leftParen, .word base.text.toList, .rightParen]

/-- The tokens of an instruction. -/
def Instr.tokens : Instr → List Token
  | .lw rd offset base => .word "lw".toList :: .word rd.text.toList :: .comma :: addressTokens offset base
  | .sw rs offset base => .word "sw".toList :: .word rs.text.toList :: .comma :: addressTokens offset base
  | .addi rd rs value => [.word "addi".toList, .word rd.text.toList, .comma, .word rs.text.toList, .comma,
      .word (toString value).toList]
  | .xori rd rs value => [.word "xori".toList, .word rd.text.toList, .comma, .word rs.text.toList, .comma,
      .word (toString value).toList]
  | .li rd value =>
    [.word "li".toList, .word rd.text.toList, .comma, .word (Number.writeInt32 value).toList]
  | .la rd label => [.word "la".toList, .word rd.text.toList, .comma, .word label.toList]
  | .binary op rd rs₁ rs₂ => [.word op.mnemonic.toList, .word rd.text.toList, .comma,
      .word rs₁.text.toList, .comma, .word rs₂.text.toList]
  | .unary op rd rs => [.word op.mnemonic.toList, .word rd.text.toList, .comma, .word rs.text.toList]
  | .j label => [.word "j".toList, .word label.toList]
  | .beqz rs label => [.word "beqz".toList, .word rs.text.toList, .comma, .word label.toList]
  | .bnez rs label => [.word "bnez".toList, .word rs.text.toList, .comma, .word label.toList]
  | .ecall => [.word "ecall".toList]

/-- The labels of an instruction are identifiers and its numbers fit. -/
def Instr.Writable : Instr → Prop
  | .lw _ n _ | .sw _ n _ | .addi _ _ n | .xori _ _ n => isShort n
  | .la _ label | .j label | .beqz _ label | .bnez _ label => isIdentifier label.toList
  | .li _ _ | .binary _ _ _ _ | .unary _ _ _ | .ecall => True

theorem toString_string (s : String) : toString s = s := rfl

/-- The text of an instruction is brought into the shape of one of the lemmas above before it is cut. -/
theorem lex_of_eq {cs cs' : List Char} {tokens : List Token} (same : cs = cs')
    (h : lex .plain cs' = some tokens) : lex .plain cs = some tokens :=
  same ▸ h

/-- An address is cut into its offset, which is left out if it is zero, and its register. -/
theorem lex_addressText (offset : Int) (base : Reg) {tail : List Char} (ends : Ends tail) :
    lex .plain ((addressText offset base).toList ++ tail) = some (addressTokens offset base) := by
  have paren := lex_paren (isWord_register base) ends
  unfold addressText addressTokens
  by_cases zero : offset = 0
  · rw [if_pos zero, if_pos zero]
    exact lex_of_eq (by simp) paren
  · rw [if_neg zero, if_neg zero]
    exact lex_of_eq (by simp) (lex_offset (isWord_toString offset) paren)

/-- The text of an instruction is cut into its tokens. -/
theorem Instr.lex_text {i : Instr} (h : i.Writable) {tail : List Char} (ends : Ends tail) :
    lex .plain (i.text.toList ++ tail) = some i.tokens := by
  cases i with
  | lw rd offset base =>
    refine lex_of_eq ?_ (lex_op "lw".toList (by decide)
      (lex_next (isWord_register rd) (lex_addressText offset base ends)))
    simp [Instr.text, toString_string]
  | sw rs offset base =>
    refine lex_of_eq ?_ (lex_op "sw".toList (by decide)
      (lex_next (isWord_register rs) (lex_addressText offset base ends)))
    simp [Instr.text, toString_string]
  | addi rd rs value =>
    refine lex_of_eq ?_ (lex_op "addi".toList (by decide) (lex_next (isWord_register rd)
      (lex_next (isWord_register rs) (lex_one (isWord_toString value) ends))))
    simp [Instr.text, toString_string]
  | xori rd rs value =>
    refine lex_of_eq ?_ (lex_op "xori".toList (by decide) (lex_next (isWord_register rd)
      (lex_next (isWord_register rs) (lex_one (isWord_toString value) ends))))
    simp [Instr.text, toString_string]
  | li rd value =>
    refine lex_of_eq ?_ (lex_op "li".toList (by decide)
      (lex_next (isWord_register rd) (lex_one (isWord_toString value.toInt) ends)))
    simp [Instr.text, toString_string, Number.writeInt32]
  | la rd label =>
    refine lex_of_eq ?_ (lex_op "la".toList (by decide)
      (lex_next (isWord_register rd) (lex_one (isWord_identifier h) ends)))
    simp [Instr.text, toString_string]
  | binary op rd rs₁ rs₂ =>
    refine lex_of_eq ?_ (lex_op op.mnemonic.toList (isWord_binaryOp op) (lex_next (isWord_register rd)
      (lex_next (isWord_register rs₁) (lex_one (isWord_register rs₂) ends))))
    simp [Instr.text, toString_string]
  | unary op rd rs =>
    refine lex_of_eq ?_ (lex_op op.mnemonic.toList (isWord_unaryOp op)
      (lex_next (isWord_register rd) (lex_one (isWord_register rs) ends)))
    simp [Instr.text, toString_string]
  | j label =>
    refine lex_of_eq ?_ (lex_op "j".toList (by decide) (lex_one (isWord_identifier h) ends))
    simp [Instr.text, toString_string]
  | beqz rs label =>
    refine lex_of_eq ?_ (lex_op "beqz".toList (by decide)
      (lex_next (isWord_register rs) (lex_one (isWord_identifier h) ends)))
    simp [Instr.text, toString_string]
  | bnez rs label =>
    refine lex_of_eq ?_ (lex_op "bnez".toList (by decide)
      (lex_next (isWord_register rs) (lex_one (isWord_identifier h) ends)))
    simp [Instr.text, toString_string]
  | ecall => exact lex_one (by decide) ends

/-- Registers are found by the names that they are written with. -/
theorem register?_text (r : Reg) : register? r.text.toList = some r := by
  cases r <;> decide

theorem binaryOp?_mnemonic (op : BinaryOp) : binaryOp? op.mnemonic.toList = some op := by
  cases op <;> decide

theorem unaryOp?_mnemonic (op : UnaryOp) : unaryOp? op.mnemonic.toList = some op := by
  cases op <;> decide

/-- A label that is an identifier is read as it was written. -/
theorem label?_toList {name : String} (h : isIdentifier name.toList) : label? name.toList = some name := by
  rw [label?, if_pos h, String.ofList_toList]

/-- A number that fits into twelve bits is read back with its sign. -/
theorem short?_repr {n : Int} (h : isShort n) : short? n.repr.toList = some n := by
  have bounds := h
  simp only [isShort, Bool.and_eq_true, decide_eq_true_eq] at bounds
  have same : (Int32.ofInt n).toInt = n := Int32.toInt_ofInt_of_le (by omega) (by omega)
  have read := Number.readInt32_writeInt32 (Int32.ofInt n)
  rw [Number.writeInt32, same, Int.toString_eq_repr] at read
  rw [short?, read, Option.map_some, same]
  simp [h]

/-- The tokens of an instruction are the instruction. -/
theorem Instr.ofTokens?_tokens {i : Instr} (h : i.Writable) :
    Statement.ofTokens? i.tokens = some (.line (.instr i)) := by
  cases i with
  | lw rd offset base =>
    by_cases zero : offset = 0
    · simp [tokens, addressTokens, zero, Statement.ofTokens?, datum?, instr?, register?_text, access?]
    · simp [tokens, addressTokens, zero, Statement.ofTokens?, datum?, instr?, register?_text, access?,
        short?_repr h]
  | sw rd offset base =>
    by_cases zero : offset = 0
    · simp [tokens, addressTokens, zero, Statement.ofTokens?, datum?, instr?, register?_text, access?]
    · simp [tokens, addressTokens, zero, Statement.ofTokens?, datum?, instr?, register?_text, access?,
        short?_repr h]
  | addi rd rs value => simp [tokens, Statement.ofTokens?, datum?, instr?, register?_text, short?_repr h]
  | xori rd rs value => simp [tokens, Statement.ofTokens?, datum?, instr?, register?_text, short?_repr h]
  | li rd value =>
    simp [tokens, Statement.ofTokens?, datum?, instr?, register?_text, Number.readInt32_writeInt32]
  | la rd label => simp [tokens, Statement.ofTokens?, datum?, instr?, register?_text, label?_toList h]
  | binary op rd rs₁ rs₂ =>
    have other : op.mnemonic.toList ≠ ['a', 'd', 'd', 'i'] ∧ op.mnemonic.toList ≠ ['x', 'o', 'r', 'i'] := by
      cases op <;> decide
    simp [tokens, Statement.ofTokens?, datum?, instr?, register?_text, binaryOp?_mnemonic, other.1, other.2]
  | unary op rd rs =>
    have other : op.mnemonic.toList ≠ ['l', 'i'] ∧ op.mnemonic.toList ≠ ['l', 'a'] ∧
        op.mnemonic.toList ≠ ['b', 'e', 'q', 'z'] ∧ op.mnemonic.toList ≠ ['b', 'n', 'e', 'z'] := by
      cases op <;> decide
    simp [tokens, Statement.ofTokens?, datum?, instr?, register?_text, unaryOp?_mnemonic, other.1,
      other.2.1, other.2.2.1, other.2.2.2]
  | j label => simp [tokens, Statement.ofTokens?, datum?, instr?, label?_toList h]
  | beqz rs label => simp [tokens, Statement.ofTokens?, datum?, instr?, register?_text, label?_toList h]
  | bnez rs label => simp [tokens, Statement.ofTokens?, datum?, instr?, register?_text, label?_toList h]
  | ecall => decide

/-! ## Lines and data -/

/-- No character ends a line. -/
def OneLine (cs : List Char) : Prop :=
  '\n' ∉ cs ∧ '\r' ∉ cs

@[simp]
theorem oneLine_nil : OneLine [] := by
  simp [OneLine]

@[simp]
theorem oneLine_cons {c : Char} {cs : List Char} :
    OneLine (c :: cs) ↔ (c ≠ '\n' ∧ c ≠ '\r') ∧ OneLine cs := by
  simp [OneLine, eq_comm]
  grind

@[simp]
theorem oneLine_append {cs cs' : List Char} : OneLine (cs ++ cs') ↔ OneLine cs ∧ OneLine cs' := by
  simp [OneLine]
  grind

/-- No character of a word ends a line. -/
theorem IsWord.oneLine {w : List Char} (h : IsWord w) : OneLine w :=
  ⟨fun mem => absurd (h.chars _ mem) (by decide), fun mem => absurd (h.chars _ mem) (by decide)⟩

/-- A line without its comment. -/
def Line.plain : Line → Line
  | .label name => .label name
  | .instr i _ => .instr i

/-- A line that can be read. -/
def Line.Writable : Line → Prop
  | .label name => isIdentifier name.toList
  | .instr i comment => i.Writable ∧ ∀ text ∈ comment, OneLine text.toList

/-- The characters of a line without its line feed. -/
def Line.chars : Line → List Char
  | .label name => name.toList ++ [':']
  | .instr i none => ' ' :: ' ' :: ' ' :: ' ' :: i.text.toList
  | .instr i (some comment) =>
    ' ' :: ' ' :: ' ' :: ' ' :: (i.text.toList ++ ' ' :: ' ' :: '#' :: ' ' :: comment.toList)

/-- The text of a line is its characters and a line feed. -/
theorem Line.toList_text (l : Line) : l.text.toList = l.chars ++ ['\n'] := by
  cases l with
  | label name => simp [Line.text, chars]
  | instr i comment => cases comment <;> simp [Line.text, chars]

/-- A line reads back. -/
theorem Line.ofLine?_chars {l : Line} (h : l.Writable) :
    Statement.ofLine? l.chars = some (.line l.plain) := by
  cases l with
  | label name =>
    have cut : lex .plain (name.toList ++ [':']) = some [.word name.toList, .colon] := by
      rw [lex_word (isWord_identifier h) (separate_cons (by decide))]
      rfl
    rw [chars, Statement.ofLine?, cut, Option.bind_some, Statement.ofTokens?, label?_toList h]
    rfl
  | instr i comment =>
    have cut : lex .plain (Line.instr i comment).chars = some i.tokens := by
      cases comment with
      | none =>
        have cut := Instr.lex_text h.1 ends_nil
        rw [List.append_nil] at cut
        exact cut
      | some text => exact Instr.lex_text h.1 (ends_comment _)
    rw [Statement.ofLine?, cut, Option.bind_some]
    exact Instr.ofTokens?_tokens h.1

/-- A text is escaped character by character. -/
theorem toList_escaped (s : String) :
    (escaped s).toList = s.toList.flatMap fun c => (escapedChar c).toList := by
  rw [escaped, String.toList_join, List.flatMap_map]

/-- A character inside a text is read from its escape. -/
theorem lex_escapedChar (c : Char) (read rest : List Char) :
    lex (.text read) ((escapedChar c).toList ++ rest) = lex (.text (c :: read)) rest := by
  unfold escapedChar
  split
  case h_6 =>
    rename_i backslash quote
    rw [Char.toString_eq_singleton, String.toList_singleton, List.singleton_append, lex, if_neg quote, if_neg backslash]
  all_goals rfl

/-- A text is read up to the quote that ends it. -/
theorem lex_escaped (cs read rest : List Char) :
    lex (.text read) ((cs.flatMap fun c => (escapedChar c).toList) ++ '"' :: rest) =
      (lex .plain rest).map (.text (read.reverse ++ cs) :: ·) := by
  induction cs generalizing read with
  | nil => simp [lex]
  | cons c cs ih =>
    rw [List.flatMap_cons, List.append_assoc, lex_escapedChar, ih]
    simp

/-- The characters of an item of data without its line feed. -/
def Datum.chars : Datum → List Char
  | .align exponent => ".align".toList ++ ' ' :: Nat.toDigits 10 exponent
  | .string label value => label.toList ++ ':' :: ' ' :: (".string".toList ++ ' ' :: '"' ::
      ((value.toList.flatMap fun c => (escapedChar c).toList) ++ ['"']))
  | .space label size => label.toList ++ ':' :: ' ' :: (".space".toList ++ ' ' :: Nat.toDigits 10 size)

-- The equations are stated apart: those made from the definition would compare literals by evaluating them.
@[simp]
theorem Datum.chars_align (exponent : Nat) :
    (Datum.align exponent).chars = ".align".toList ++ ' ' :: Nat.toDigits 10 exponent := by
  unfold chars
  rfl

@[simp]
theorem Datum.chars_string (label value : String) :
    (Datum.string label value).chars = label.toList ++ ':' :: ' ' :: (".string".toList ++ ' ' :: '"' ::
      ((value.toList.flatMap fun c => (escapedChar c).toList) ++ ['"'])) := by
  unfold chars
  rfl

@[simp]
theorem Datum.chars_space (label : String) (size : Nat) :
    (Datum.space label size).chars =
      label.toList ++ ':' :: ' ' :: (".space".toList ++ ' ' :: Nat.toDigits 10 size) := by
  unfold chars
  rfl

/-- An item of data that can be read. -/
def Datum.Writable (d : Datum) : Prop :=
  ∀ label ∈ d.label?, isIdentifier label.toList

/-- The text of an item of data is its characters and a line feed. -/
theorem Datum.toList_text (d : Datum) : d.text.toList = d.chars ++ ['\n'] := by
  cases d with
  | align exponent => simp [Datum.text, toString_string]
  | string label value => simp [Datum.text, toList_escaped]
  | space label size => simp [Datum.text, toString_string]

/-- An item of data reads back. -/
theorem Datum.ofLine?_chars {d : Datum} (h : d.Writable) :
    Statement.ofLine? d.chars = some (.datum d) := by
  cases d with
  | align exponent =>
    have cut := lex_op ".align".toList (by decide) (lex_one (isWord_toDigits exponent) ends_nil)
    rw [List.append_nil] at cut
    rw [chars_align, Statement.ofLine?, cut, Option.bind_some]
    simp [Statement.ofTokens?, datum?, Number.readNat_toDigits]
  | string label value =>
    have word := isWord_identifier (h label rfl)
    have text := lex_escaped value.toList [] []
    have cut := lex_labelled word (lex_op ".string".toList (by decide)
      (show lex .plain ('"' :: _) = some _ from text))
    rw [chars_string, Statement.ofLine?, cut, Option.bind_some]
    simp [Statement.ofTokens?, datum?, label?_toList (h label rfl)]
  | space label size =>
    have word := isWord_identifier (h label rfl)
    have cut := lex_labelled word (lex_op ".space".toList (by decide)
      (lex_one (isWord_toDigits size) ends_nil))
    rw [List.append_nil] at cut
    rw [chars_space, Statement.ofLine?, cut, Option.bind_some]
    simp [Statement.ofTokens?, datum?, label?_toList (h label rfl), Number.readNat_toDigits]

/-! ## Files -/

/-- An address is made of words and parentheses, so it stays on its line. -/
theorem oneLine_addressText (offset : Int) (base : Reg) : OneLine (addressText offset base).toList := by
  have number := (isWord_toString offset).oneLine
  have register := (isWord_register base).oneLine
  unfold addressText
  split
  · simp [register]
  · simpa [register] using number

/-- The text of an instruction stays on its line: it is made of words, blanks and separators. -/
theorem Instr.oneLine_text {i : Instr} (h : i.Writable) : OneLine i.text.toList := by
  have register := fun r => (isWord_register r).oneLine
  have number := fun n => (isWord_toString n).oneLine
  simp only [Int.toString_eq_repr] at number
  cases i with
  | lw rd offset base => simp [Instr.text, toString_string, register, oneLine_addressText]
  | sw rs offset base => simp [Instr.text, toString_string, register, oneLine_addressText]
  | addi rd rs value => simp [Instr.text, toString_string, register, number]
  | xori rd rs value => simp [Instr.text, toString_string, register, number]
  | li rd value => simp [Instr.text, toString_string, register, Number.writeInt32, number]
  | la rd label => simp [Instr.text, toString_string, register, (isWord_identifier h).oneLine]
  | binary op rd rs₁ rs₂ => simp [Instr.text, toString_string, register, (isWord_binaryOp op).oneLine]
  | unary op rd rs => simp [Instr.text, toString_string, register, (isWord_unaryOp op).oneLine]
  | j label => simp [Instr.text, toString_string, (isWord_identifier h).oneLine]
  | beqz rs label => simp [Instr.text, toString_string, register, (isWord_identifier h).oneLine]
  | bnez rs label => simp [Instr.text, toString_string, register, (isWord_identifier h).oneLine]
  | ecall => simp [Instr.text]

/-- Also the comment of a line that can be read stays on the line. -/
theorem Line.oneLine_chars {l : Line} (h : l.Writable) : OneLine l.chars := by
  cases l with
  | label name => simp [chars, (isWord_identifier h).oneLine]
  | instr i comment =>
    cases comment with
    | none => simp [chars, Instr.oneLine_text h.1]
    | some text =>
      have comment : OneLine text.toList := h.2 text rfl
      simp [chars, Instr.oneLine_text h.1, comment]

/-- Line feeds and carriage returns are escaped, so a text in quotes stays on its line. -/
theorem oneLine_escapedChar (c : Char) : OneLine (escapedChar c).toList := by
  unfold escapedChar
  split
  case h_6 =>
    rename_i newline _ feed _ _
    simpa [Char.toString] using And.intro newline feed
  all_goals simp

/-- An item of data stays on its line, whatever its text is. -/
theorem Datum.oneLine_chars {d : Datum} (h : d.Writable) : OneLine d.chars := by
  cases d with
  | align exponent => simp [(isWord_toDigits exponent).oneLine]
  | string label value =>
    have text : OneLine (value.toList.flatMap fun c => (escapedChar c).toList) := by
      constructor
      · intro mem
        obtain ⟨c, -, mem⟩ := List.mem_flatMap.1 mem
        exact (oneLine_escapedChar c).1 mem
      · intro mem
        obtain ⟨c, -, mem⟩ := List.mem_flatMap.1 mem
        exact (oneLine_escapedChar c).2 mem
    simp [(isWord_identifier (h label rfl)).oneLine, text]
  | space label size =>
    simp [(isWord_identifier (h label rfl)).oneLine, (isWord_toDigits size).oneLine]

/-- A text is cut into lines at its first line feed. -/
theorem lines_append {cs : List Char} (h : OneLine cs) (rest : List Char) :
    Text.lines (cs ++ '\n' :: rest) = cs :: Text.lines rest := by
  induction cs with
  | nil => rfl
  | cons c cs ih =>
    obtain ⟨⟨newline, feed⟩, h⟩ := oneLine_cons.1 h
    rw [List.cons_append, Text.lines]
    · rw [ih h]
    · exact newline
    · intro _ same _
      exact feed same

/-- What was written line by line is cut into the same lines. -/
theorem lines_flatMap {α : Type} {xs : List α} {chars : α → List Char} (h : ∀ x ∈ xs, OneLine (chars x))
    (rest : List Char) : Text.lines ((xs.flatMap fun x => chars x ++ ['\n']) ++ rest) =
      xs.map chars ++ Text.lines rest := by
  induction xs with
  | nil => rfl
  | cons x xs ih =>
    have first := h x List.mem_cons_self
    have others := ih fun y mem => h y (List.mem_cons_of_mem x mem)
    rw [List.flatMap_cons, List.append_assoc, List.append_assoc, List.singleton_append,
      lines_append first, others]
    rfl

/-- The lines of a file. -/
theorem File.lines_text {f : File} (data : ∀ d ∈ f.data, d.Writable) (code : ∀ l ∈ f.code, l.Writable) :
    Text.lines f.text.toList = ".data".toList :: f.data.map Datum.chars ++
      [] :: ".text".toList :: f.code.map Line.chars := by
  have dataLines := lines_flatMap fun d mem => Datum.oneLine_chars (data d mem)
  have codeLines := lines_flatMap (fun l mem => Line.oneLine_chars (code l mem)) []
  have spelled : f.text.toList = ".data".toList ++ '\n' :: ((f.data.flatMap fun d => d.chars ++ ['\n']) ++
      '\n' :: (".text".toList ++ '\n' :: ((f.code.flatMap fun l => l.chars ++ ['\n']) ++ []))) := by
    simp [File.text, List.flatMap_map, Datum.toList_text, Line.toList_text]
  rw [spelled, lines_append (by simp), dataLines, Text.lines, lines_append (by simp), codeLines]
  simp [Text.lines]

/-- Parts that are read back one by one are read back all together. -/
theorem mapM_map_eq_some {α β γ : Type} {xs : List α} {g : α → β} {f : β → Option γ} {h : α → γ}
    (same : ∀ x ∈ xs, f (g x) = some (h x)) : (xs.map g).mapM f = some (xs.map h) := by
  induction xs with
  | nil => rfl
  | cons x xs ih =>
    rw [List.map_cons, List.mapM_cons, same x List.mem_cons_self,
      ih fun y mem => same y (List.mem_cons_of_mem x mem)]
    rfl

/-- A file without its comments. -/
def File.plain (f : File) : File :=
  { f with code := f.code.map Line.plain }

/-- After the start of the code only lines of code follow. -/
theorem ofStatements?_lines (ls : List Line) :
    File.ofStatements? true (ls.map .line) = some ⟨[], ls⟩ := by
  induction ls with
  | nil => rfl
  | cons l ls ih => simp [File.ofStatements?, ih]

/-- Items of data, a blank line, the start of the code and lines of code make a file. -/
theorem ofStatements?_data (ds : List Datum) (ls : List Line) :
    File.ofStatements? false (ds.map .datum ++ .blank :: .code :: ls.map .line) = some ⟨ds, ls⟩ := by
  induction ds with
  | nil => simp [File.ofStatements?, ofStatements?_lines]
  | cons d ds ih => simp [File.ofStatements?, ih]

/-- Comments carry no marks. -/
theorem marked_plain (ls : List Line) : marked (ls.map Line.plain) = marked ls := by
  induction ls with
  | nil => rfl
  | cons l ls ih => cases l <;> simp [marked, Line.plain, ih]

/-- Comments carry no instructions. -/
theorem instrs_plain (ls : List Line) : instrs (ls.map Line.plain) = instrs ls := by
  induction ls with
  | nil => rfl
  | cons l ls ih => cases l <;> simp [instrs, Line.plain, ih]

/-- A place is counted in instructions, so comments do not move it. -/
theorem place?_plain (name : String) (ls : List Line) : place? name (ls.map Line.plain) = place? name ls := by
  induction ls with
  | nil => rfl
  | cons l ls ih => cases l <;> simp [place?, Line.plain, ih]

/-- Comments do not matter to a machine. -/
theorem File.image_plain (f : File) (address : String → Nat) : f.plain.image address = f.image address := by
  simp [File.image, File.plain, instrs_plain, place?_plain]

/-- A file is read from its text, apart from its comments. -/
theorem File.read_text {f : File} (data : ∀ d ∈ f.data, d.Writable) (code : ∀ l ∈ f.code, l.Writable)
    (distinct : f.labels.Nodup) : File.read f.text = some f.plain := by
  have dataRead := mapM_map_eq_some fun d mem => Datum.ofLine?_chars (data d mem)
  have codeRead := mapM_map_eq_some fun l mem => Line.ofLine?_chars (code l mem)
  have statements : (Text.lines f.text.toList).mapM Statement.ofLine? = some (.data ::
      (f.data.map .datum ++ .blank :: .code :: (f.code.map Line.plain).map .line)) := by
    have dataLine : Statement.ofLine? ".data".toList = some .data := by decide
    have blankLine : Statement.ofLine? [] = some .blank := by decide
    have codeLine : Statement.ofLine? ".text".toList = some .code := by decide
    rw [File.lines_text data code, List.mapM_append, List.mapM_cons, dataLine, dataRead, List.mapM_cons,
      blankLine, List.mapM_cons, codeLine, codeRead, List.map_map]
    rfl
  have labels : f.plain.labels = f.labels := by simp [File.labels, File.plain, marked_plain]
  rw [File.read, statements]
  show (File.ofStatements? false _).bind _ = _
  rw [ofStatements?_data]
  show (if f.plain.labels.Nodup then some f.plain else none) = some f.plain
  rw [labels, if_pos distinct]

end MiniC.Rv32
