import MiniC.Proofs.Results
import MiniC.Token.Scan

/-!
# Pieces of a text

A piece is cut from the front of a text: its characters and what is left of the text are the text again. It
is one blank, a comment up to the end of its line, or a token within a line (`Piece.Cut`). `Piece.read_cut`
says so of every piece that the scanner cuts. A mark is the longest one that the text starts with
(`Punct.startOf?_eq_some_iff`).
-/

namespace MiniC

/-- A run within a line moves the column. -/
theorem Position.after_of_line {cs : List Char} (line : '\n' ∉ cs) (p : Position) :
    p.after cs = ⟨p.line, p.column + cs.length⟩ := by
  induction cs generalizing p with
  | nil => rfl
  | cons c cs ih =>
    rw [List.mem_cons, not_or] at line
    have first : p.next c = ⟨p.line, p.column + 1⟩ := if_neg (Ne.symm line.1)
    show (p.next c).after cs = _
    rw [ih line.2, first, List.length_cons]
    congr 1
    simp only
    omega

/-! ## Marks -/

namespace Punct

/-- No mark is left out of the list. -/
theorem mem_all (p : Punct) : p ∈ all := by
  cases p <;> decide

/-- No two marks are spelled alike. -/
theorem spelling_inj {p q : Punct} (h : p.spelling = q.spelling) : p = q := by
  have distinct : ∀ p ∈ all, ∀ q ∈ all, p.spelling = q.spelling → p = q := by decide +kernel
  exact distinct p (mem_all p) q (mem_all q) h

theorem spelling_ne_nil (p : Punct) : p.spelling ≠ [] := by
  cases p <;> decide

/-- No mark is longer than two characters. -/
theorem length_spelling_le (p : Punct) : p.spelling.length ≤ 2 := by
  cases p <;> decide

/-- The marks are listed with the longer ones first. -/
theorem all_pairwise : all.Pairwise fun p q => q.spelling.length ≤ p.spelling.length := by
  decide

/-- No mark is found where the text starts with none. -/
theorem startOf?_eq_none_iff {text : List Char} : startOf? text = none ↔ ∀ q : Punct, ¬q.spelling <+: text := by
  simp [startOf?, List.find?_eq_none, mem_all]

/-- The mark that a text starts with is the longest one of those that it starts with. -/
theorem startOf?_eq_some_iff {text : List Char} {p : Punct} :
    startOf? text = some p ↔
      p.spelling <+: text ∧ ∀ q : Punct, q.spelling <+: text → q.spelling.length ≤ p.spelling.length := by
  have longest : ∀ p, startOf? text = some p →
      p.spelling <+: text ∧ ∀ q : Punct, q.spelling <+: text → q.spelling.length ≤ p.spelling.length := by
    intro p found
    obtain ⟨starts, before, after, split, earlier⟩ := List.find?_eq_some_iff_append.1 found
    refine ⟨List.isPrefixOf_iff_prefix.1 starts, fun q other => ?_⟩
    have ordered := all_pairwise
    have mem := mem_all q
    rw [split] at ordered mem
    rcases List.mem_append.1 mem with mem | mem
    · have no := earlier q mem
      rw [List.isPrefixOf_iff_prefix.2 other] at no
      cases no
    · rcases List.mem_cons.1 mem with rfl | mem
      · exact Nat.le_refl _
      · exact (List.pairwise_cons.1 (List.pairwise_append.1 ordered).2.1).1 q mem
  -- Two longest marks are starts of one text and of one length.
  refine ⟨longest p, fun ⟨starts, most⟩ => ?_⟩
  cases found : startOf? text with
  | none => exact absurd starts (startOf?_eq_none_iff.1 found p)
  | some q =>
    obtain ⟨starts', most'⟩ := longest q found
    have same : q.spelling.length = p.spelling.length := Nat.le_antisymm (most q starts') (most' p starts)
    rw [spelling_inj ((List.prefix_of_prefix_length_le starts' starts (Nat.le_of_eq same)).eq_of_length same)]
end Punct

/-! ## What can be cut -/

namespace Piece

/-- What can be cut from the front of a text. -/
inductive Cut : List Char → Piece → Prop
  | blank {c : Char} {rest : List Char} : isBlank c → Cut (c :: rest) ⟨none, [c], rest⟩
  | comment {body rest : List Char} : '\n' ∉ body → (∀ d ∈ rest.head?, d = '\n') →
    Cut ('/' :: '/' :: body ++ rest) ⟨some (.comment (String.ofList body)), '/' :: '/' :: body, rest⟩
  | token {kind : Token.Kind} {lexeme rest : List Char} : (∀ text, kind ≠ .comment text) →
    kind ≠ .endOfFile → lexeme ≠ [] → '\n' ∉ lexeme → Cut (lexeme ++ rest) ⟨some kind, lexeme, rest⟩

/-- Nothing is lost or added by cutting. -/
theorem Cut.append_eq {text : List Char} {piece : Piece} (h : Cut text piece) :
    piece.lexeme ++ piece.rest = text := by
  cases h with
  | blank => rfl
  | comment => rfl
  | token => rfl

/-- A piece takes at least one character, so cutting comes to an end. -/
theorem Cut.lexeme_ne_nil {text : List Char} {piece : Piece} (h : Cut text piece) : piece.lexeme ≠ [] := by
  cases h with
  | blank => exact List.cons_ne_nil _ _
  | comment => exact List.cons_ne_nil _ _
  | token _ _ nonempty => exact nonempty

/-- One step less is enough for what is left after a piece. -/
theorem Cut.length_le {text : List Char} {piece : Piece} (h : Cut text piece) {bound : Nat}
    (enough : text.length ≤ bound + 1) : piece.rest.length ≤ bound := by
  have nonempty := List.length_pos_iff.2 h.lexeme_ne_nil
  rw [← h.append_eq, List.length_append] at enough
  omega

/-- Whether comments are kept matters to comments only. -/
theorem token?_of_not_comment {kind : Token.Kind} (other : ∀ text, kind ≠ .comment text)
    (lexeme rest : List Char) (here : Position) (keepComments : Bool) :
    token? ⟨some kind, lexeme, rest⟩ here keepComments = some ⟨kind, String.ofList lexeme, here⟩ := by
  cases kind with
  | comment text => exact absurd rfl (other text)
  | _ => rfl

/-! ## Strings -/

/-- What a string takes up to its closing quote lies within a line. -/
theorem stringBody_cut {start here : Position} {cs text spelling rest : List Char}
    (h : stringBody start here cs = .ok (text, spelling, rest)) : spelling ++ rest = cs ∧ '\n' ∉ spelling := by
  fun_induction stringBody start here cs generalizing text spelling rest with
  | case1 here => cases h
  | case2 here => cases h
  | case3 here c cs unknown => cases h
  | case4 here c cs value known ih =>
    obtain ⟨⟨text', spelling', rest'⟩, read, h⟩ := except_bind_eq_ok.1 h
    cases h
    obtain ⟨rfl, line⟩ := ih read
    refine ⟨rfl, ?_⟩
    have other : '\n' ≠ c := by
      rintro rfl
      cases known
    simp [line, other]
  | case5 here cs =>
    cases h
    exact ⟨rfl, by decide⟩
  | case6 here cs => cases h
  | case7 here c cs other quote newline ih =>
    obtain ⟨⟨text', spelling', rest'⟩, read, h⟩ := except_bind_eq_ok.1 h
    cases h
    obtain ⟨rfl, line⟩ := ih read
    exact ⟨rfl, by simp [line, Ne.symm newline]⟩

/-- A string with its quotes is a token. -/
theorem string_cut {here : Position} {cs : List Char} {piece : Piece} (h : string here cs = .ok piece) :
    Cut ('"' :: cs) piece := by
  obtain ⟨⟨text, spelling, rest⟩, read, h⟩ := except_bind_eq_ok.1 h
  cases h
  obtain ⟨rfl, line⟩ := stringBody_cut read
  exact @Cut.token _ ('"' :: spelling) rest (by simp) (by simp) (by simp) (by simp [line])

/-! ## Characters -/

/-- A character with its quotes is a token. -/
theorem closeChar_cut {here : Position} {value : Char} {spelling cs : List Char} {piece : Piece}
    (h : closeChar here value spelling cs = .ok piece) (line : '\n' ∉ spelling) :
    Cut (spelling ++ cs) piece := by
  unfold closeChar at h
  split at h
  · rename_i rest
    cases h
    have same : spelling ++ '\'' :: rest = (spelling ++ ['\'']) ++ rest := by simp
    rw [same]
    exact .token (by simp) (by simp) (by simp) (by simp [line])
  · cases h

/-- A character literal starts at its quote and lies within a line: the end of a line is refused between its quotes.
-/
theorem char_cut {here : Position} {cs : List Char} {piece : Piece} (h : char here cs = .ok piece) :
    Cut ('\'' :: cs) piece := by
  unfold char at h
  split at h
  · cases h
  · rename_i cs
    obtain ⟨⟨value, written, rest⟩, escaped, closed⟩ := except_bind_eq_ok.1 h
    cases cs with
    | nil => cases escaped
    | cons c cs =>
      simp only [escape] at escaped
      split at escaped
      · rename_i value' known
        cases escaped
        have other : '\n' ≠ written := by
          rintro rfl
          cases known
        exact @closeChar_cut _ _ ['\'', '\\', written] _ _ closed (by simp [other])
      · cases escaped
  · rename_i c cs _
    split at h
    · cases h
    · rename_i allowed
      rw [not_or, not_or] at allowed
      exact @closeChar_cut _ _ ['\'', c] _ _ h (by simp [Ne.symm allowed.2.2])

/-! ## Runs -/

/-- A run that the end of a line does not belong to ends there. -/
theorem newline_notMem_takeWhile {p : Char → Bool} (stops : p '\n' = false) (cs : List Char) :
    '\n' ∉ cs.takeWhile p := by
  intro mem
  have goes := List.all_eq_true.1 List.all_takeWhile _ mem
  rw [stops] at goes
  cases goes

/-- Numbers are neither comments nor the end. -/
theorem numberKind?_not_comment {run : List Char} {kind : Token.Kind} (h : numberKind? run = some kind) :
    (∀ text, kind ≠ .comment text) ∧ kind ≠ .endOfFile := by
  simp only [numberKind?] at h
  split at h
  · obtain ⟨value, -, rfl⟩ := Option.map_eq_some_iff.1 h
    simp
  · obtain ⟨value, -, rfl⟩ := Option.map_eq_some_iff.1 h
    simp

/-- A number is the run of its characters. -/
theorem number_cut {here : Position} {c : Char} {cs : List Char} {piece : Piece} (digit : c.isDigit)
    (h : number here c cs = .ok piece) : Cut (c :: cs) piece := by
  simp only [number] at h
  split at h
  · rename_i kind read
    cases h
    obtain ⟨notComment, notEnd⟩ := numberKind?_not_comment read
    have line : '\n' ≠ c := by
      rintro rfl
      cases digit
    have whole : c :: cs = (c :: cs.takeWhile isNumberChar) ++ cs.dropWhile isNumberChar := by simp
    rw [whole]
    exact .token notComment notEnd (by simp)
      (by simp [line, newline_notMem_takeWhile (p := isNumberChar) rfl cs])
  · cases h

/-- Words are neither comments nor the end. -/
theorem wordKind_not_comment (word : String) :
    (∀ text, wordKind word ≠ .comment text) ∧ wordKind word ≠ .endOfFile := by
  unfold wordKind
  split
  · simp
  · simp

/-- A word is the run of its characters. -/
theorem word_cut {c : Char} {cs : List Char} (start : isWordStart c) : Cut (c :: cs) (word c cs) := by
  obtain ⟨notComment, notEnd⟩ := wordKind_not_comment (String.ofList (c :: cs.takeWhile isWordChar))
  have line : '\n' ≠ c := by
    rintro rfl
    cases start
  have whole : c :: cs = (c :: cs.takeWhile isWordChar) ++ cs.dropWhile isWordChar := by simp
  rw [whole]
  exact .token notComment notEnd (by simp)
    (by simp [line, newline_notMem_takeWhile (p := isWordChar) rfl cs])

/-- A comment goes up to the end of its line, which is left. -/
theorem comment_cut (cs : List Char) : Cut ('/' :: '/' :: cs) (comment cs) := by
  have ends : ∀ d ∈ (cs.dropWhile (· ≠ '\n')).head?, d = '\n' := by
    intro d mem
    have stopped := List.head?_dropWhile_not (· ≠ '\n') cs
    rw [Option.mem_def.1 mem] at stopped
    simpa using stopped
  have cut := Cut.comment (newline_notMem_takeWhile (p := (· ≠ '\n')) (by decide) cs) ends
  rwa [List.cons_append, List.cons_append, List.takeWhile_append_dropWhile] at cut

/-! ## The first piece -/

/-- A mark that a text starts with is cut from it. -/
theorem startOf?_cut {text : List Char} {p : Punct} (h : Punct.startOf? text = some p) :
    Cut text ⟨some (.punct p), p.spelling, text.drop p.spelling.length⟩ := by
  obtain ⟨rest, rfl⟩ := (Punct.startOf?_eq_some_iff.1 h).1
  rw [List.drop_left]
  exact .token (by simp) (by simp) p.spelling_ne_nil (by cases p <;> decide)

/-- Every piece is cut from the front of the text. -/
theorem read_cut {here : Position} {c : Char} {cs : List Char} {piece : Piece}
    (h : read here c cs = .ok piece) : Cut (c :: cs) piece := by
  unfold read at h
  split at h
  · rename_i blank
    cases h
    exact .blank blank
  split at h
  · rename_i slashes
    cases h
    obtain ⟨rfl, second⟩ := slashes
    obtain ⟨rest, rfl⟩ := List.head?_eq_some_iff.1 second
    exact comment_cut rest
  split at h
  · rename_i p found
    cases h
    exact startOf?_cut found
  split at h
  · rename_i quote
    subst quote
    exact string_cut h
  split at h
  · rename_i quote
    subst quote
    exact char_cut h
  split at h
  · rename_i digit
    exact number_cut digit h
  split at h
  · rename_i start
    cases h
    exact word_cut start
  · cases h

/-- Only a blank holds the end of a line. -/
theorem newline_notMem_of_read {here : Position} {c : Char} {cs : List Char} {piece : Piece}
    (h : read here c cs = .ok piece) (text : ¬isBlank c) : '\n' ∉ piece.lexeme := by
  generalize whole : c :: cs = front, read_cut h = cut at *
  cases cut with
  | blank blank =>
    cases whole
    exact absurd blank text
  | comment line => simp [line]
  | token _ _ _ line => exact line

end Piece

end MiniC
