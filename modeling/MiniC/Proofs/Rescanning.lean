import MiniC.Proofs.Pieces
import MiniC.Proofs.Rv32.Written

/-!
# Spelled tokens scan back

Every token has a spelling: a number its digits, a name, a keyword and a mark their characters, and a string
and a character what stands between their quotes, with escapes for what cannot stand there. Strings are escaped
as they are in an assembly file. `Token.scan_spelled`: a list of tokens, spelled one after the other with a blank
between any two, scans back to the list.

The blank decides where a token ends. A text that is empty or goes on with a blank adds nothing to the digits of a
number, to the letters of a word or to a mark, so that each spelling is cut from the front of what follows it
(`Piece.read_spelled`).
-/

namespace MiniC

/-- The spelling of a character between single quotes. -/
def Token.spelledChar (c : Char) : String :=
  match c with
  | '\n' => "\\n"
  | '\t' => "\\t"
  | '\r' => "\\r"
  | '\\' => "\\\\"
  | '\'' => "\\'"
  | c => c.toString

/-- The spelling of a token. Floats, comments and the end of a text have none here. -/
def Token.Kind.spelled : Token.Kind → String
  | .integer value => Number.writeInt32 value
  | .string value => "\"" ++ Rv32.escaped value ++ "\""
  | .char value => "'" ++ spelledChar value ++ "'"
  | .identifier name => name
  | .keyword word => word.spelling
  | .punct mark => String.ofList mark.spelling
  | .float _ => ""
  | .comment _ => ""
  | .endOfFile => ""

/-- The tokens that have a spelling: the numbers without a sign, the names that are no keywords, every string,
every character but NUL, every keyword and every mark. -/
def Token.Kind.Spellable : Token.Kind → Prop
  | .integer value => 0 ≤ value.toInt
  | .string _ => True
  | .char value => value ≠ '\x00'
  | .identifier name => Rv32.isIdentifier name.toList ∧ ∀ k : Keyword, k.spelling ≠ name
  | .keyword _ => True
  | .punct _ => True
  | .float _ => False
  | .comment _ => False
  | .endOfFile => False

/-! ## The end of a token -/

/-- The text ends or goes on with a blank. -/
def Parted (tail : List Char) : Prop :=
  ∀ d ∈ tail.head?, d = ' '

/-- A run that a blank does not belong to ends before what is parted from it. -/
theorem Parted.span {p : Char → Bool} (stops : p ' ' = false) {cs tail : List Char} (run : ∀ c ∈ cs, p c)
    (parted : Parted tail) : (cs ++ tail).takeWhile p = cs ∧ (cs ++ tail).dropWhile p = tail := by
  have none : tail.takeWhile p = [] ∧ tail.dropWhile p = tail := by
    cases tail with
    | nil => exact ⟨rfl, rfl⟩
    | cons d tail =>
      have blank := parted d rfl
      subst blank
      simp [stops]
  rw [List.takeWhile_append_of_pos run, List.dropWhile_append_of_pos run, none.1, none.2, List.append_nil]
  exact ⟨rfl, rfl⟩

/-- No mark holds a character that starts another token, or a blank. -/
theorem Punct.other_of_mem {p : Punct} {c : Char} (mem : c ∈ p.spelling) :
    Piece.isWordChar c = false ∧ Piece.isBlank c = false ∧ c ≠ '"' ∧ c ≠ '\'' := by
  have table : p.spelling.all fun c => !Piece.isWordChar c && !Piece.isBlank c && c != '"' && c != '\'' := by
    cases p <;> rfl
  simpa [and_assoc] using List.all_eq_true.1 table c mem

namespace Piece

/-- Where no mark starts, the first character decides on the token. -/
theorem read_of_not_mark {here : Position} {c : Char} {cs : List Char} (black : isBlank c = false)
    (other : ∀ p : Punct, c ∉ p.spelling) :
    read here c cs =
      if c = '"' then string here cs
      else if c = '\'' then char here cs
      else if c.isDigit then number here c cs
      else if isWordStart c then .ok (word c cs)
      else .error (.unrecognizedChar c here) := by
  have slash : ¬(c = '/' ∧ cs.head? = some '/') := by
    rintro ⟨rfl, -⟩
    exact other .slash (by decide)
  have unmarked : Punct.startOf? (c :: cs) = none := by
    refine Punct.startOf?_eq_none_iff.2 fun p starts => ?_
    obtain ⟨others, spelled, -⟩ := (List.prefix_cons_iff.1 starts).resolve_left p.spelling_ne_nil
    exact other p (by simp [spelled])
  rw [read, if_neg (by simp [black]), if_neg slash, unmarked]

/-! ## Each token -/

/-- No longer mark than the one spelled starts the text. -/
theorem startOf?_spelling (p : Punct) {tail : List Char} (parted : Parted tail) :
    Punct.startOf? (p.spelling ++ tail) = some p := by
  refine Punct.startOf?_eq_some_iff.2 ⟨List.prefix_append _ _, fun q starts => Nat.le_of_not_lt fun longer => ?_⟩
  obtain ⟨rest, same⟩ := starts
  have next : q.spelling[p.spelling.length]? = tail.head? := by
    rw [← List.getElem?_append_left longer, same, List.getElem?_append_right (Nat.le_refl _), Nat.sub_self,
      List.head?_eq_getElem?]
  rw [List.getElem?_eq_getElem longer] at next
  have blank := parted _ next.symm
  have mem := List.getElem_mem longer
  rw [blank] at mem
  exact absurd (Punct.other_of_mem mem).2.1 (by decide)

/-- A mark is cut as it is spelled: a blank after it makes no longer mark of it, nor a comment of a slash. -/
theorem read_mark (p : Punct) (here : Position) {tail : List Char} (parted : Parted tail) :
    ∃ c cs, p.spelling = c :: cs ∧ read here c (cs ++ tail) = .ok ⟨some (.punct p), c :: cs, tail⟩ := by
  obtain ⟨c, cs, spelled⟩ := List.exists_cons_of_ne_nil p.spelling_ne_nil
  have black := (Punct.other_of_mem (p := p) (c := c) (by simp [spelled])).2.1
  have longest := startOf?_spelling p parted
  -- A slash is followed by a blank, never by the second slash of a comment.
  have slash : ¬(c = '/' ∧ (cs ++ tail).head? = some '/') := by
    rintro ⟨rfl, second⟩
    have alone : cs = [] := by
      cases p <;> cases spelled
      rfl
    subst alone
    exact absurd (parted _ second) (by decide)
  refine ⟨c, cs, spelled, ?_⟩
  rw [spelled, List.cons_append] at longest
  rw [read, if_neg (by simp [black]), if_neg slash, longest]
  simp [spelled]

/-- A character of a word is in no mark. -/
theorem notMem_spelling_of_isWordChar {c : Char} (h : isWordChar c) (p : Punct) : c ∉ p.spelling := by
  intro mem
  rw [(Punct.other_of_mem mem).1] at h
  cases h

/-- No character of a word is a blank. -/
theorem not_isBlank_of_isWordChar {c : Char} (h : isWordChar c) : isBlank c = false := by
  rw [Bool.eq_false_iff]
  intro blank
  simp only [isBlank, Bool.or_eq_true, decide_eq_true_eq] at blank
  rcases blank with ((rfl | rfl) | rfl) | rfl
  all_goals cases h

/-- A word is cut as it is spelled. -/
theorem read_word {name : String} (identifier : Rv32.isIdentifier name.toList) (here : Position)
    {tail : List Char} (parted : Parted tail) :
    ∃ c cs, name.toList = c :: cs ∧ read here c (cs ++ tail) = .ok ⟨some (wordKind name), c :: cs, tail⟩ := by
  obtain ⟨nonempty, chars⟩ := Rv32.isIdentifier_chars identifier
  obtain ⟨c, cs, spelled⟩ := List.exists_cons_of_ne_nil nonempty
  rw [spelled] at identifier chars
  have run : ∀ d ∈ c :: cs, isWordChar d := by
    intro d mem
    simpa [isWordChar] using chars d mem
  have first := run c List.mem_cons_self
  have start : isWordStart c := by
    simp only [Rv32.isIdentifier, Bool.and_eq_true] at identifier
    exact identifier.1
  have notDigit := Rv32.not_isDigit_of_isIdentifier identifier
  obtain ⟨taken, left⟩ := parted.span (p := isWordChar) rfl fun d mem => run d (List.mem_cons_of_mem c mem)
  refine ⟨c, cs, spelled, ?_⟩
  rw [read_of_not_mark (not_isBlank_of_isWordChar first) (notMem_spelling_of_isWordChar first),
    if_neg (by rintro rfl; cases first), if_neg (by rintro rfl; cases first), if_neg (by simp [notDigit]),
    if_pos start, word, taken, left, ← spelled, String.ofList_toList]

/-- A run of digits is an integer. -/
theorem numberKind?_of_digits {digits : List Char} (h : ∀ d ∈ digits, d.isDigit) :
    numberKind? digits = (Number.readInt32 digits).map .integer := by
  have kept : digits.filter (· ≠ '_') = digits := by
    refine List.filter_eq_self.2 fun d mem => decide_eq_true ?_
    rintro rfl
    cases h _ mem
  have point : digits.contains '.' = false := by
    rw [Bool.eq_false_iff]
    intro mem
    cases h _ (List.contains_iff_mem.1 mem)
  simp only [numberKind?, kept, point]
  rfl

/-- A number without a sign is cut as it is written, and read as what it was. -/
theorem read_integer {value : Int32} (nonneg : 0 ≤ value.toInt) (here : Position) {tail : List Char}
    (parted : Parted tail) :
    ∃ c cs, (Number.writeInt32 value).toList = c :: cs ∧
      read here c (cs ++ tail) = .ok ⟨some (.integer value), c :: cs, tail⟩ := by
  have digits : (Number.writeInt32 value).toList = Nat.toDigits 10 value.toInt.natAbs := by
    rw [Number.writeInt32, Number.toList_toString, if_neg (Int.not_lt.2 nonneg), List.nil_append]
  have back := Number.readInt32_writeInt32 value
  obtain ⟨c, cs, spelled⟩ := List.exists_cons_of_ne_nil (Nat.toDigits_ne_nil (b := 10) (n := value.toInt.natAbs))
  rw [digits, spelled] at back
  have run : ∀ d ∈ c :: cs, d.isDigit := by
    intro d mem
    rw [← spelled] at mem
    exact Nat.isDigit_of_mem_toDigits (by decide) (by decide) mem
  have first := run c List.mem_cons_self
  have wordChar : isWordChar c := by simp [isWordChar, Char.isAlphanum, first]
  have goesOn : ∀ d ∈ cs, isNumberChar d := by
    intro d mem
    simp [isNumberChar, run d (List.mem_cons_of_mem c mem)]
  obtain ⟨taken, left⟩ := parted.span (p := isNumberChar) rfl goesOn
  refine ⟨c, cs, digits.trans spelled, ?_⟩
  rw [read_of_not_mark (not_isBlank_of_isWordChar wordChar) (notMem_spelling_of_isWordChar wordChar),
    if_neg (by rintro rfl; cases first), if_neg (by rintro rfl; cases first), if_pos first]
  simp only [number, taken, left, numberKind?_of_digits run, back, Option.map_some]

/-! ### Strings and characters -/

/-- An escape in front of a string's body is undone. -/
theorem stringBody_backslash {start : Position} {cs text spelling rest : List Char}
    (h : ∀ here, stringBody start here cs = .ok (text, spelling, rest)) {c value : Char}
    (known : unescape? c = some value) (here : Position) :
    stringBody start here ('\\' :: c :: cs) = .ok (value :: text, '\\' :: c :: spelling, rest) := by
  simp only [stringBody, known, h]
  rfl

/-- A character that is no quote, no backslash and no end of a line stands for itself in a string. -/
theorem stringBody_plain {start : Position} {cs text spelling rest : List Char}
    (h : ∀ here, stringBody start here cs = .ok (text, spelling, rest)) {c : Char} (backslash : c ≠ '\\')
    (quote : c ≠ '"') (newline : c ≠ '\n') (here : Position) :
    stringBody start here (c :: cs) = .ok (c :: text, c :: spelling, rest) := by
  rw [stringBody, if_neg quote, if_neg newline, h]
  · rfl
  · exact backslash

/-- The escape of a character is undone in a string. -/
theorem stringBody_escapedChar {start : Position} {cs text spelling rest : List Char}
    (h : ∀ here, stringBody start here cs = .ok (text, spelling, rest)) (c : Char) (here : Position) :
    stringBody start here ((Rv32.escapedChar c).toList ++ cs) =
      .ok (c :: text, (Rv32.escapedChar c).toList ++ spelling, rest) := by
  unfold Rv32.escapedChar
  split
  case h_6 =>
    rename_i newline _ _ backslash quote
    rw [Char.toString_eq_singleton, String.toList_singleton]
    exact stringBody_plain h backslash quote newline here
  all_goals exact stringBody_backslash h rfl here

/-- An escaped string is read back up to its closing quote. By induction on its characters. -/
theorem stringBody_escaped (start : Position) (value : String) (here : Position) (rest : List Char) :
    stringBody start here ((Rv32.escaped value).toList ++ '"' :: rest) =
      .ok (value.toList, (Rv32.escaped value).toList ++ ['"'], rest) := by
  rw [Rv32.toList_escaped]
  induction value.toList generalizing here with
  | nil => rfl
  | cons c cs ih =>
    rw [List.flatMap_cons, List.append_assoc, List.append_assoc]
    exact stringBody_escapedChar ih c here

/-- A string between quotes is cut and read back. -/
theorem read_string (value : String) (here : Position) (tail : List Char) :
    ∃ c cs, ("\"" ++ Rv32.escaped value ++ "\"").toList = c :: cs ∧
      read here c (cs ++ tail) = .ok ⟨some (.string value), c :: cs, tail⟩ := by
  refine ⟨'"', (Rv32.escaped value).toList ++ ['"'], by simp, ?_⟩
  have other : ∀ p : Punct, '"' ∉ p.spelling := fun p mem => (Punct.other_of_mem mem).2.2.1 rfl
  rw [read_of_not_mark rfl other, if_pos rfl, List.append_assoc, List.singleton_append, string, stringBody_escaped]
  show Except.ok _ = _
  rw [String.ofList_toList]

/-- A spelled character is read back up to its closing quote. -/
theorem char_spelledChar {value : Char} (written : value ≠ '\x00') (here : Position) (tail : List Char) :
    char here ((Token.spelledChar value).toList ++ '\'' :: tail) =
      .ok ⟨some (.char value), '\'' :: (Token.spelledChar value).toList ++ ['\''], tail⟩ := by
  unfold Token.spelledChar
  split
  case h_6 =>
    rename_i newline _ _ backslash quote
    have allowed : ¬(value = '\x00' ∨ value = '\'' ∨ value = '\n') :=
      not_or.2 ⟨written, not_or.2 ⟨quote, newline⟩⟩
    rw [Char.toString_eq_singleton, String.toList_singleton, List.singleton_append, char, if_neg allowed]
    · rfl
    · exact backslash
  all_goals rfl

/-- A character between quotes is cut and read back. -/
theorem read_char {value : Char} (written : value ≠ '\x00') (here : Position) (tail : List Char) :
    ∃ c cs, ("'" ++ Token.spelledChar value ++ "'").toList = c :: cs ∧
      read here c (cs ++ tail) = .ok ⟨some (.char value), c :: cs, tail⟩ := by
  refine ⟨'\'', (Token.spelledChar value).toList ++ ['\''], by simp, ?_⟩
  have other : ∀ p : Punct, '\'' ∉ p.spelling := fun p mem => (Punct.other_of_mem mem).2.2.2 rfl
  rw [read_of_not_mark rfl other, if_neg (by decide), if_pos rfl, List.append_assoc, List.singleton_append,
    char_spelledChar written]
  rfl

/-! ### Keywords and names -/

/-- Keywords are told by their spelling. -/
theorem wordKind_spelling (k : Keyword) : wordKind k.spelling = .keyword k := by
  cases k <;> rfl

/-- A word that is not spelled as a keyword is a name. -/
theorem wordKind_of_ne {name : String} (other : ∀ k : Keyword, k.spelling ≠ name) :
    wordKind name = .identifier name := by
  have unknown : Keyword.ofWord? name = none := List.find?_eq_none.2 fun k _ => by simp [other k]
  rw [wordKind, unknown]

/-- The spelling of a token is cut from the front of a text, if the text ends or goes on with a blank there. -/
theorem read_spelled {kind : Token.Kind} (spellable : kind.Spellable) (here : Position) {tail : List Char}
    (parted : Parted tail) :
    ∃ c cs, kind.spelled.toList = c :: cs ∧ read here c (cs ++ tail) = .ok ⟨some kind, c :: cs, tail⟩ := by
  cases kind with
  | integer value => exact read_integer spellable here parted
  | string value => exact read_string value here tail
  | char value => exact read_char spellable here tail
  | identifier name =>
    have cut := read_word spellable.1 here parted
    rwa [wordKind_of_ne spellable.2] at cut
  | keyword k =>
    have cut := @read_word k.spelling (by cases k <;> decide) here _ parted
    rwa [wordKind_spelling] at cut
  | punct p =>
    have cut := read_mark p here parted
    rwa [← @String.toList_ofList p.spelling] at cut
  | float value => cases spellable
  | comment text => cases spellable
  | endOfFile => cases spellable

end Piece

/-! ## Lists of tokens -/

namespace Token

/-- Wherever the text stands, it scans to tokens of these kinds. -/
def ScansTo (cs : List Char) (kinds : List Kind) : Prop :=
  ∀ keepComments bound here, cs.length ≤ bound →
    ∃ tokens, scanFrom keepComments bound here cs = .ok tokens ∧ tokens.map kind = kinds

/-- An empty text has only its end. -/
theorem scansTo_nil : ScansTo [] [.endOfFile] := by
  intro keepComments bound here _
  cases bound with
  | zero => exact ⟨_, rfl, rfl⟩
  | succ bound => exact ⟨_, rfl, rfl⟩

/-- A piece may stand in front of a text. -/
theorem ScansTo.piece {tail : List Char} {kinds front : List Kind} (h : ScansTo tail kinds) {c : Char}
    {cs : List Char} {kind? : Option Kind}
    (read : ∀ here, Piece.read here c (cs ++ tail) = .ok ⟨kind?, c :: cs, tail⟩)
    (gives : ∀ here keepComments, (Piece.token? ⟨kind?, c :: cs, tail⟩ here keepComments).toList.map kind = front) :
    ScansTo (c :: cs ++ tail) (front ++ kinds) := by
  intro keepComments bound here enough
  rw [List.cons_append, List.length_cons, List.length_append] at enough
  obtain ⟨bound, rfl⟩ := Nat.exists_eq_add_one_of_ne_zero (Nat.ne_zero_of_lt enough)
  obtain ⟨tokens, scanned, rfl⟩ := h keepComments bound (here.after (c :: cs)) (by omega)
  refine ⟨(Piece.token? ⟨kind?, c :: cs, tail⟩ here keepComments).toList ++ tokens, ?_, ?_⟩
  · rw [List.cons_append, scanFrom, read here]
    show (scanFrom keepComments bound (here.after (c :: cs)) tail >>= _) = _
    rw [scanned]
    rfl
  · rw [List.map_append, gives]

/-- A blank in front adds no token. -/
theorem ScansTo.blank {cs : List Char} {kinds : List Kind} (h : ScansTo cs kinds) : ScansTo (' ' :: cs) kinds :=
  @ScansTo.piece cs kinds [] h ' ' [] none (fun _ => rfl) (fun _ _ => rfl)

/-- A spelled token may stand in front of a text. -/
theorem ScansTo.spelled {kind : Kind} (spellable : kind.Spellable) {tail : List Char} (parted : Parted tail)
    {kinds : List Kind} (h : ScansTo tail kinds) : ScansTo (kind.spelled.toList ++ tail) (kind :: kinds) := by
  obtain ⟨c, cs, spelled, -⟩ := Piece.read_spelled spellable .start parted
  have read : ∀ here, Piece.read here c (cs ++ tail) = .ok ⟨some kind, c :: cs, tail⟩ := by
    intro here
    obtain ⟨c', cs', spelled', read⟩ := Piece.read_spelled spellable here parted
    cases spelled.symm.trans spelled'
    exact read
  rw [spelled]
  refine @ScansTo.piece tail kinds [kind] h c cs (some kind) read fun here keepComments => ?_
  rw [Piece.token?_of_not_comment]
  · rfl
  · rintro text rfl
    cases spellable

/-- Tokens with blanks between them scan back. -/
theorem scansTo_intercalate {kinds : List Kind} (spellable : ∀ kind ∈ kinds, kind.Spellable) :
    ScansTo (" ".intercalate (kinds.map Kind.spelled)).toList (kinds ++ [.endOfFile]) := by
  induction kinds with
  | nil => exact scansTo_nil
  | cons kind kinds ih =>
    have first := spellable kind List.mem_cons_self
    have later := ih fun other mem => spellable other (List.mem_cons_of_mem kind mem)
    cases kinds with
    | nil =>
      have alone : ScansTo (kind.spelled.toList ++ []) _ := .spelled first (by simp [Parted]) scansTo_nil
      simpa using alone
    | cons next kinds =>
      have both : ScansTo (kind.spelled.toList ++ ' ' :: _) _ := .spelled first (by simp [Parted]) later.blank
      simpa using both

/-- Every list of tokens that have a spelling scans back from it: the spellings, with a blank between any two,
give the tokens in their order, and the end of the text. So the escapes that an assembly file writes in a string
are undone by the scanner, whatever the string is. -/
theorem scan_spelled (kinds : List Kind) (spellable : ∀ kind ∈ kinds, kind.Spellable) (keepComments : Bool) :
    (∃ tokens, scan (" ".intercalate (kinds.map Kind.spelled)) keepComments = .ok tokens ∧
      tokens.map kind = kinds ++ [.endOfFile]) ∧
    ∀ value : String, ∃ tokens, scan ("\"" ++ Rv32.escaped value ++ "\"") keepComments = .ok tokens ∧
      tokens.map kind = [.string value, .endOfFile] := by
  refine ⟨scansTo_intercalate spellable keepComments _ .start (Nat.le_refl _), fun value => ?_⟩
  have string : ∀ kind ∈ [Kind.string value], kind.Spellable := by
    intro kind mem
    rw [List.mem_singleton.1 mem]
    trivial
  exact scansTo_intercalate string keepComments _ .start (Nat.le_refl _)

/-- A name that starts like a keyword, the largest number, slashes that are no comment, and quotes and escapes. -/
theorem scan_spelled_mixed :
    (∀ kind ∈ [Kind.identifier "fnx", .keyword .fnK, .integer 2147483647, .punct .slash, .punct .slash, .char '\'',
        .string "\"\\\n"], kind.Spellable) ∧
      ∃ tokens, scan "fnx fn 2147483647 / / '\\'' \"\\\"\\\\\\n\"" = .ok tokens ∧
        tokens.map kind = [.identifier "fnx", .keyword .fnK, .integer 2147483647, .punct .slash, .punct .slash,
          .char '\'', .string "\"\\\n", .endOfFile] := by
  have spellable : ∀ kind ∈ [Kind.identifier "fnx", .keyword .fnK, .integer 2147483647, .punct .slash,
      .punct .slash, .char '\'', .string "\"\\\n"], kind.Spellable := by
    intro kind mem
    simp only [List.mem_cons, List.not_mem_nil, or_false] at mem
    rcases mem with rfl | rfl | rfl | rfl | rfl | rfl | rfl
    · exact ⟨by decide, fun k => by cases k <;> decide⟩
    · trivial
    · show 0 ≤ (2147483647 : Int32).toInt
      decide
    · trivial
    · trivial
    · show '\'' ≠ '\x00'
      decide
    · trivial
  exact ⟨spellable, (scan_spelled _ spellable false).1⟩

end Token

end MiniC
