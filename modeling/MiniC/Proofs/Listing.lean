import Mathlib.Data.List.Basic
import MiniC.Instruction.Listing
import MiniC.Proofs.Names
import MiniC.Proofs.Results
import MiniC.Proofs.Rv32.Written

/-!
# Listings read back

`Canonical` says which instructions a listing can hold. A name that has a blank in it falls apart, and so
does one that ends in a colon, unless it is that of a mark; a line that starts with `#` is passed over;
what is pushed is a number wherever it reads as one; and an opcode takes the operand that belongs to it and
no other.

Main statement: a list of instructions is read back from its listing if and only if all of them are
canonical, and nothing else is ever read from a text (`Instruction.ofListing_listing_iff`). The second half
gives the harder direction of the first: what is read is canonical, whatever the text was made of. It
follows the reader, from words to lines; the other direction follows the printer.
-/

namespace MiniC

namespace Text

/-! ## Words -/

/-- A word: at least one character, and no blank. -/
structure IsWord (w : List Char) : Prop where
  nonempty : w ≠ []
  solid : ∀ c ∈ w, isBlank c = false

theorem isWord_iff {w : List Char} : IsWord w ↔ w ≠ [] ∧ w.all fun c => !isBlank c := by
  constructor
  · intro h
    exact ⟨h.nonempty, List.all_eq_true.2 fun c mem => by rw [h.solid c mem]; rfl⟩
  · intro h
    exact ⟨h.1, fun c mem => by simpa using List.all_eq_true.1 h.2 c mem⟩

instance (w : List Char) : Decidable (IsWord w) :=
  decidable_of_iff _ isWord_iff.symm

/-- What has no blank in it belongs to the word that is being read. -/
theorem wordsFrom_append {w : List Char} (solid : ∀ c ∈ w, isBlank c = false) (run rest : List Char) :
    wordsFrom run (w ++ rest) = wordsFrom (w.reverse ++ run) rest := by
  induction w generalizing run with
  | nil => rfl
  | cons c w ih =>
    have first := solid c List.mem_cons_self
    have others := fun d mem => solid d (List.mem_cons_of_mem c mem)
    rw [List.cons_append, wordsFrom, if_neg (by simp [first]), ih others, List.reverse_cons,
      List.append_assoc, List.singleton_append]

/-- A word is read as one word. -/
theorem words_word {w : List Char} (h : IsWord w) : words w = [w] := by
  have read := wordsFrom_append h.solid [] []
  rw [List.append_nil, List.append_nil] at read
  rw [words, read]
  simp [wordsFrom, h.nonempty]

/-- A blank keeps two words apart. -/
theorem words_pair {w w' : List Char} (h : IsWord w) (h' : IsWord w') :
    words (w ++ ' ' :: w') = [w, w'] := by
  have first := wordsFrom_append h.solid [] (' ' :: w')
  have second : wordsFrom [] w' = [w'] := words_word h'
  rw [List.append_nil] at first
  rw [words, first, wordsFrom, if_pos (by decide), if_neg (by simp [h.nonempty]), second,
    List.reverse_reverse]

/-- Whatever a text is split into are words: what is being read has no blank, and is dropped where it is empty. -/
theorem isWord_of_mem_wordsFrom {run cs w : List Char} (solid : ∀ c ∈ run, isBlank c = false)
    (mem : w ∈ wordsFrom run cs) : IsWord w := by
  -- What has been read of a word is a word as soon as there is something of it.
  have whole : ∀ run : List Char, (∀ c ∈ run, isBlank c = false) → ¬ run.isEmpty → IsWord run.reverse := by
    intro run solid some
    exact ⟨by simpa using some, fun c mem => solid c (List.mem_reverse.1 mem)⟩
  induction cs generalizing run with
  | nil =>
    rw [wordsFrom] at mem
    split at mem
    · cases mem
    · rename_i some
      rw [List.mem_singleton.1 mem]
      exact whole run solid some
  | cons c cs ih =>
    rw [wordsFrom] at mem
    split at mem
    · split at mem
      · exact ih (by simp) mem
      · rename_i some
        rcases List.mem_cons.1 mem with same | later
        · rw [same]
          exact whole run solid some
        · exact ih (by simp) later
    · rename_i character
      refine ih ?_ mem
      intro d mem
      rcases List.mem_cons.1 mem with same | mem
      · rw [same]
        simpa using character
      · exact solid d mem

theorem isWord_of_mem_words {cs w : List Char} (mem : w ∈ words cs) : IsWord w :=
  isWord_of_mem_wordsFrom (by simp) mem

/-- A text that does not end in a blank ends in its last word. -/
theorem exists_getLast?_wordsFrom {run cs : List Char} {c : Char}
    (last : (run.reverse ++ cs).getLast? = some c) (solid : isBlank c = false) :
    ∃ w, (wordsFrom run cs).getLast? = some w ∧ w.getLast? = some c := by
  induction cs generalizing run with
  | nil =>
    rw [List.append_nil] at last
    have some : ¬ run.isEmpty := by
      intro none
      rw [List.isEmpty_iff.1 none] at last
      cases last
    exact ⟨run.reverse, by simp [wordsFrom, some], last⟩
  | cons d cs ih =>
    by_cases blank : isBlank d
    · -- The blank is not the end, so the last word comes after it.
      have later : ([].reverse ++ cs).getLast? = Option.some c := by
        cases cs with
        | nil =>
          simp only [List.getLast?_append, List.getLast?_singleton, Option.some_or, Option.some.injEq] at last
          rw [last, solid] at blank
          cases blank
        | cons e cs => simpa [List.getLast?_append] using last
      obtain ⟨w, found, ends⟩ := ih later
      refine ⟨w, ?_, ends⟩
      rw [wordsFrom, if_pos blank]
      split
      · exact found
      · rw [List.getLast?_cons, found]
        rfl
    · rw [wordsFrom, if_neg blank]
      exact ih (by simpa using last)

/-- A text that does not end in a blank ends in its last word, read from its start. -/
theorem exists_getLast?_words {cs : List Char} {c : Char} (last : cs.getLast? = some c)
    (solid : isBlank c = false) : ∃ w, (words cs).getLast? = some w ∧ w.getLast? = some c :=
  exists_getLast?_wordsFrom last solid

/-! ## Trimmed texts -/

/-- No blank stands at either end. -/
structure Trimmed (cs : List Char) : Prop where
  first : ∀ c, cs.head? = some c → isBlank c = false
  last : ∀ c, cs.getLast? = some c → isBlank c = false

/-- No blank is left at the end. -/
theorem last_trimEnd (cs : List Char) : ∀ c, (trimEnd cs).getLast? = some c → isBlank c = false := by
  induction cs with
  | nil =>
    intro c last
    cases last
  | cons d cs ih =>
    intro c last
    rw [trimEnd] at last
    split at last
    · split at last
      · cases last
      · rename_i solid
        rw [← Option.some.inj last]
        simpa using solid
    · rename_i rest some
      refine ih c ?_
      rwa [List.getLast?_cons_of_ne_nil some] at last

/-- To cut at the end does not change the start, unless nothing is left. -/
theorem head?_of_trimEnd {cs : List Char} {c : Char} (h : (trimEnd cs).head? = some c) :
    cs.head? = some c := by
  cases cs with
  | nil => cases h
  | cons d cs =>
    rw [trimEnd] at h
    split at h
    · split at h
      · cases h
      · exact h
    · exact h

/-- No blank is left at either end. -/
theorem trimmed_trim (cs : List Char) : Trimmed (trim cs) where
  first c head := by
    have start := List.head?_dropWhile_not isBlank cs
    rw [head?_of_trimEnd head] at start
    simpa using start
  last := last_trimEnd _

/-- A text without blanks at its ends is not cut. -/
theorem Trimmed.trim_eq {cs : List Char} (h : Trimmed cs) : trim cs = cs := by
  have front : cs.dropWhile isBlank = cs := by
    cases cs with
    | nil => rfl
    | cons c cs => rw [List.dropWhile_cons_of_neg (by simp [h.first c rfl])]
  rw [trim, front]
  cases last : cs.getLast? with
  | none =>
    rw [List.getLast?_eq_none_iff.1 last]
    rfl
  | some c =>
    obtain ⟨before, rfl⟩ := List.getLast?_eq_some_iff.1 last
    exact trimEnd_append_of_not_blank before (by simp) (by simpa using h.last c last)

/-- A word has no blanks at all. -/
theorem IsWord.trimmed {w : List Char} (h : IsWord w) : Trimmed w where
  first c head := h.solid c (List.mem_of_head? head)
  last c last := h.solid c (List.mem_of_getLast? last)

/-- Two words have a blank between them only. -/
theorem trimmed_pair {w w' : List Char} (h : IsWord w) (h' : IsWord w') : Trimmed (w ++ ' ' :: w') where
  first c head := by
    refine h.trimmed.first c ?_
    rwa [List.head?_append_of_ne_nil _ h.nonempty] at head
  last c last := by
    refine h'.trimmed.last c ?_
    rwa [List.getLast?_append_cons, List.getLast?_cons_of_ne_nil h'.nonempty] at last

end Text

/-! ## What a listing can hold -/

open Text (IsWord Trimmed)

/-- The instructions that a listing can hold. -/
inductive Instruction.Canonical : Instruction → Prop
  /-- A mark is told from a comment. -/
  | mark {name : String} : IsWord name.toList → name.toList.head? ≠ some '#' → Canonical (.mark name)
  | pushInt (value : Int32) : Canonical (.pushInt value)
  /-- A name that is pushed is told from a number and from a mark. -/
  | pushLabel {name : String} : IsWord name.toList → name.toList.getLast? ≠ some ':' →
      Number.readInt32 name.toList = none → Canonical (.pushLabel name)
  /-- A name that is gone to is told from a mark. -/
  | goTo {op : OpCode} {name : String} : op ∈ [.jump, .branchEqualZero, .branchNotZero, .call] →
      IsWord name.toList → name.toList.getLast? ≠ some ':' → Canonical ⟨op, .label name⟩
  | bare {op : OpCode} : op ∉ [.label, .push, .jump, .branchEqualZero, .branchNotZero, .call] →
      Canonical ⟨op, .none⟩

namespace Instruction

/-! ## Reading -/

/-- Words make a canonical instruction, if the last of them does not end in a colon. -/
theorem canonical_of_ofWords? {op : OpCode} {operands : List (List Char)} {i : Instruction}
    (solid : ∀ w ∈ operands, IsWord w) (colon : ∀ w, operands = [w] → w.getLast? ≠ some ':')
    (h : ofWords? op operands = some i) : i.Canonical := by
  unfold ofWords? at h
  split at h
  · cases h
  · rename_i word
    have whole := solid word List.mem_cons_self
    have ends := colon word rfl
    rw [← Option.some.inj h, pushOperand]
    cases number : Number.readInt32 word with
    | some value => exact .pushInt value
    | none => exact .pushLabel (by simpa using whole) (by simpa using ends) (by simpa using number)
  · cases h
  · rename_i marks pushes
    split at h
    · cases h
    · rename_i takes
      rw [← Option.some.inj h]
      refine .bare ?_
      cases op <;> simp_all [OpCode.takesLabel]
  · rename_i word marks pushes
    split at h
    · rename_i takes
      rw [← Option.some.inj h]
      refine .goTo ?_ (by simpa using solid word List.mem_cons_self) (by simpa using colon word rfl)
      cases op <;> simp_all [OpCode.takesLabel]
    · cases h
  · cases h

/-- What is read from a line is canonical, if the line is trimmed and is no comment. -/
theorem canonical_of_ofLine? {cs : List Char} {i : Instruction} (trimmed : Trimmed cs)
    (comment : cs.head? ≠ some '#') (h : ofLine? cs = some i) : i.Canonical := by
  unfold ofLine? at h
  simp only [trimmed.trim_eq] at h
  unfold beforeColon? at h
  by_cases colon : cs.getLast? = some ':'
  · obtain ⟨name, rfl⟩ := List.getLast?_eq_some_iff.1 colon
    rw [if_pos colon, List.dropLast_concat] at h
    simp only at h
    split at h
    · cases h
    · rename_i word
      rw [Bool.or_eq_true, not_or] at word
      have some : name ≠ [] := by simpa using word.1
      rw [← Option.some.inj h]
      refine .mark ⟨by simpa using some, by simpa using word.2⟩ ?_
      rwa [List.head?_append_of_ne_nil _ some, ← String.toList_ofList (l := name)] at comment
  · rw [if_neg colon] at h
    simp only at h
    split at h
    · cases h
    · rename_i word operands cut
      obtain ⟨op, -, h⟩ := Option.bind_eq_some_iff.1 h
      refine canonical_of_ofWords? ?_ ?_ h
      · intro w mem
        have held : w ∈ Text.words cs := by
          rw [cut]
          exact List.mem_cons_of_mem word mem
        exact Text.isWord_of_mem_words held
      · intro w single ends
        -- The line ends where its last word does, and that is not in a colon.
        obtain ⟨c, last⟩ : ∃ c, cs.getLast? = some c := by
          cases cs with
          | nil => cases cut
          | cons d cs => exact ⟨_, List.getLast?_cons⟩
        obtain ⟨w', found, ends'⟩ := Text.exists_getLast?_words last (trimmed.last c last)
        rw [cut, single] at found
        have same : w = w' := Option.some.inj found
        rw [same, ends'] at ends
        exact colon (last.trans ends)

/-- By induction on the lines: one that is not passed over is trimmed and no comment. -/
theorem canonical_of_ofLines {lines : List (List Char)} {number : Nat} {is : List Instruction}
    (h : ofLines number lines = .ok is) : ∀ i ∈ is, i.Canonical := by
  induction lines generalizing number is with
  | nil =>
    cases h
    simp
  | cons line lines ih =>
    simp only [ofLines] at h
    split at h
    · exact ih h
    · rename_i kept
      rw [Bool.or_eq_true, not_or, decide_eq_true_eq] at kept
      obtain ⟨first, read, h⟩ := except_bind_eq_ok.1 h
      obtain ⟨rest, others, h⟩ := except_bind_eq_ok.1 h
      cases h
      have head : ofLine? (Text.trim line) = some first := by
        unfold ofLine at read
        split at read
        · rename_i found
          rw [found, Except.ok.inj read]
        · cases read
      intro i mem
      rcases List.mem_cons.1 mem with same | mem
      · rw [same]
        exact canonical_of_ofLine? (Text.trimmed_trim line) kept.2 head
      · exact ih others i mem

/-- What is read from a listing is canonical. -/
theorem canonical_of_ofListing {text : String} {is : List Instruction} (h : ofListing text = .ok is) :
    ∀ i ∈ is, i.Canonical :=
  canonical_of_ofLines h

/-! ## Writing -/

/-- The word of an opcode is one word. -/
theorem isWord_mnemonic (op : OpCode) : IsWord op.mnemonic.toList := by
  cases op <;> decide

/-- No word of an opcode starts a comment. -/
theorem head?_mnemonic (op : OpCode) : op.mnemonic.toList.head? ≠ some '#' := by
  cases op <;> decide

/-- No word of an opcode ends as a mark does. -/
theorem getLast?_mnemonic (op : OpCode) : op.mnemonic.toList.getLast? ≠ some ':' := by
  cases op <;> decide

/-- The word of an opcode stands for this opcode alone. -/
theorem ofMnemonic?_mnemonic (op : OpCode) :
    OpCode.ofMnemonic? (String.ofList op.mnemonic.toList) = some op := by
  cases op <;> decide

/-- A numeral is a word without a colon. -/
theorem writeInt32_chars (value : Int32) :
    IsWord (Number.writeInt32 value).toList ∧ ':' ∉ (Number.writeInt32 value).toList := by
  rw [Number.writeInt32, Number.toList_toString]
  have each : ∀ c ∈ (if value.toInt < 0 then ['-'] else []) ++ Nat.toDigits 10 value.toInt.natAbs,
      c = '-' ∨ c.isDigit := by
    intro c mem
    rcases List.mem_append.1 mem with sign | digit
    · by_cases negative : value.toInt < 0
      · rw [if_pos negative] at sign
        exact .inl (List.mem_singleton.1 sign)
      · rw [if_neg negative] at sign
        cases sign
    · exact .inr (Nat.isDigit_of_mem_toDigits (by decide) (by decide) digit)
  refine ⟨⟨by simp [Nat.toDigits_ne_nil], ?_⟩, ?_⟩
  · intro c mem
    rcases each c mem with minus | digit
    · rw [minus]
      decide
    · exact not_isBlank_of_isDigit digit
  · intro mem
    rcases each ':' mem with minus | digit
    · cases minus
    · cases digit

/-- A line that is neither cut nor passed over, and ends where the text says. -/
structure Kept (cs : List Char) : Prop where
  trimmed : Trimmed cs
  nonempty : cs ≠ []
  comment : cs.head? ≠ some '#'
  oneLine : Rv32.OneLine cs

/-- The end of a line is a blank, so a word is on one line. -/
theorem oneLine_word {w : List Char} (h : IsWord w) : Rv32.OneLine w := by
  constructor
  · intro mem
    exact absurd (h.solid _ mem) (by decide)
  · intro mem
    exact absurd (h.solid _ mem) (by decide)

/-- A line of one word is kept, if the word starts no comment. -/
theorem kept_word {w : List Char} (h : IsWord w) (start : w.head? ≠ some '#') : Kept w :=
  ⟨h.trimmed, h.nonempty, start, oneLine_word h⟩

/-- A line of two words is kept, if the first of them starts no comment. -/
theorem kept_pair {w w' : List Char} (h : IsWord w) (h' : IsWord w') (start : w.head? ≠ some '#') :
    Kept (w ++ ' ' :: w') := by
  refine ⟨Text.trimmed_pair h h', by simp, ?_, ?_⟩
  · rwa [List.head?_append_of_ne_nil _ h.nonempty]
  · simp [oneLine_word h, oneLine_word h']

/-- A line that starts with the word of an opcode. -/
theorem ofLine?_of_words {cs : List Char} {op : OpCode} {operands : List (List Char)}
    (trimmed : Trimmed cs) (colon : cs.getLast? ≠ some ':')
    (cut : Text.words cs = op.mnemonic.toList :: operands) : ofLine? cs = ofWords? op operands := by
  unfold ofLine? beforeColon?
  simp only [trimmed.trim_eq, if_neg colon, cut, ofMnemonic?_mnemonic, Option.bind_some]

/-- The line of an instruction is kept, and is read as the instruction. -/
structure ReadsBack (i : Instruction) : Prop where
  kept : Kept i.text.toList
  read : ofLine? i.text.toList = some i

/-- An opcode alone is read back if it takes no operand. -/
theorem readsBack_bare {op : OpCode} (h : ofWords? op [] = some ⟨op, .none⟩) : ReadsBack ⟨op, .none⟩ := by
  have word := isWord_mnemonic op
  have chars : (text ⟨op, .none⟩).toList = op.mnemonic.toList := by
    cases op <;> rfl
  refine ⟨?_, ?_⟩
  · rw [chars]
    exact kept_word word (head?_mnemonic op)
  · rw [chars, ofLine?_of_words word.trimmed (getLast?_mnemonic op) (Text.words_word word), h]

/-- An opcode with one word after it. -/
theorem readsBack_applied {i : Instruction} {w : List Char} (word : IsWord w)
    (colon : w.getLast? ≠ some ':') (chars : i.text.toList = i.op.mnemonic.toList ++ ' ' :: w)
    (h : ofWords? i.op [w] = some i) : i.ReadsBack := by
  have op := isWord_mnemonic i.op
  have ends : (i.op.mnemonic.toList ++ ' ' :: w).getLast? ≠ some ':' := by
    rwa [List.getLast?_append_cons, List.getLast?_cons_of_ne_nil word.nonempty]
  refine ⟨?_, ?_⟩
  · rw [chars]
    exact kept_pair op word (head?_mnemonic i.op)
  · rw [chars, ofLine?_of_words (Text.trimmed_pair op word) ends (Text.words_pair op word), h]

/-- The colon after the name of a mark tells it from an opcode, and only the last one counts. -/
theorem readsBack_mark {name : String} (word : IsWord name.toList) (start : name.toList.head? ≠ some '#') :
    (mark name).ReadsBack := by
  have chars : (mark name).text.toList = name.toList ++ [':'] := by
    simp [mark, text]
  have line : IsWord (name.toList ++ [':']) := by
    refine ⟨by simp, ?_⟩
    intro c mem
    rcases List.mem_append.1 mem with mem | mem
    · exact word.solid c mem
    · rw [List.mem_singleton.1 mem]
      decide
  refine ⟨?_, ?_⟩
  · rw [chars]
    refine kept_word line ?_
    rwa [List.head?_append_of_ne_nil _ word.nonempty]
  · have solid : name.toList.any Text.isBlank = false := by
      simpa using word.solid
    rw [chars]
    unfold ofLine? beforeColon?
    simp [line.trimmed.trim_eq, word.nonempty, solid]

/-- A canonical instruction is read back from its line, case by case as the line is written. -/
theorem Canonical.readsBack {i : Instruction} (h : i.Canonical) : i.ReadsBack := by
  cases h with
  | mark word start => exact readsBack_mark word start
  | pushInt value =>
    obtain ⟨word, colon⟩ := writeInt32_chars value
    refine readsBack_applied word (fun ends => colon (List.mem_of_getLast? ends)) ?_ ?_
    · simp [Instruction.pushInt, text]
    · simp only [Instruction.pushInt, ofWords?, pushOperand, Number.readInt32_writeInt32]
  | pushLabel word colon number =>
    refine readsBack_applied word colon ?_ ?_
    · simp [Instruction.pushLabel, text]
    · simp only [Instruction.pushLabel, ofWords?, pushOperand, number, String.ofList_toList]
  | goTo op word colon =>
    simp only [List.mem_cons, List.not_mem_nil, or_false] at op
    rcases op with rfl | rfl | rfl | rfl
    all_goals
      refine readsBack_applied word colon ?_ ?_
      · simp [text]
      · simp [ofWords?, OpCode.takesLabel]
  | bare op =>
    refine readsBack_bare ?_
    rename_i other
    cases other <;> first
      | rfl
      | simp at op

/-- By induction on the instructions: every line is kept, and is read as its instruction. -/
theorem ofLines_of_canonical {is : List Instruction} (h : ∀ i ∈ is, i.Canonical) (number : Nat) :
    ofLines number (is.map fun i => i.text.toList) = .ok is := by
  induction is generalizing number with
  | nil => rfl
  | cons i is ih =>
    have back := (h i List.mem_cons_self).readsBack
    have others := ih (fun j mem => h j (List.mem_cons_of_mem i mem)) (number + 1)
    have passed : ¬ (i.text.toList.isEmpty || decide (i.text.toList.head? = some '#')) = true := by
      simp [back.kept.nonempty, back.kept.comment]
    rw [List.map_cons, ofLines]
    simp only [back.kept.trimmed.trim_eq, if_neg passed, ofLine, back.read, others]
    rfl

/-- A listing of canonical instructions is read back. -/
theorem ofListing_of_canonical {is : List Instruction} (h : ∀ i ∈ is, i.Canonical) :
    ofListing (listing is) = .ok is := by
  have cut := Rv32.lines_flatMap (fun i mem => (h i mem).readsBack.kept.oneLine) []
  have chars : (listing is).toList = is.flatMap (fun i => i.text.toList ++ ['\n']) ++ [] := by
    simp [listing, String.toList_join, List.flatMap_map]
  rw [ofListing, chars, cut]
  simpa [Text.lines] using ofLines_of_canonical h 1

/-! ## The main result -/

/-- A list of instructions is read back from its listing exactly if all of them are canonical, and every text
that is accepted is read as canonical instructions, which their own listing gives again. -/
theorem ofListing_listing_iff :
    (∀ is, ofListing (listing is) = .ok is ↔ ∀ i ∈ is, i.Canonical) ∧
      ∀ text is, ofListing text = .ok is →
        (∀ i ∈ is, i.Canonical) ∧ ofListing (listing is) = .ok is :=
  ⟨fun _ => ⟨canonical_of_ofListing, ofListing_of_canonical⟩,
    fun _ _ h => ⟨canonical_of_ofListing h, ofListing_of_canonical (canonical_of_ofListing h)⟩⟩

/-- A sign, a number that does not fit, a colon inside a name and a name that starts like a comment are all read
as they stand; the name `+5` is not, since it reads as a number. -/
theorem ofListing_listing_signs :
    ∃ text is, text = "# note\n\n\tpush +5\r\n push 2147483648 \na:b:\njump #x\nnot_zero" ∧
      is = [pushInt 5, pushLabel "2147483648", mark "a:b", jump "#x", ⟨.notZero, .none⟩] ∧
      ofListing text = .ok is ∧ (∀ i ∈ is, i.Canonical) ∧ ofListing (listing is) = .ok is ∧
      ofListing (listing [pushLabel "+5"]) = .ok [pushInt 5] ∧ ¬ (pushLabel "+5").Canonical := by
  have read : ofListing "# note\n\n\tpush +5\r\n push 2147483648 \na:b:\njump #x\nnot_zero" =
      .ok [pushInt 5, pushLabel "2147483648", mark "a:b", jump "#x", ⟨.notZero, .none⟩] := by
    rfl
  have number : ofListing (listing [pushLabel "+5"]) = .ok [pushInt 5] := by
    rfl
  obtain ⟨canonical, again⟩ := ofListing_listing_iff.2 _ _ read
  refine ⟨_, _, rfl, rfl, read, canonical, again, number, ?_⟩
  intro h
  have kept := (ofListing_listing_iff.1 [pushLabel "+5"]).2 (by simpa using h)
  cases number.symm.trans kept

end Instruction

end MiniC
