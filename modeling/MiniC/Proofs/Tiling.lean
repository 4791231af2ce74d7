import MiniC.Proofs.Cursor

/-!
# Tokens tile their text

Every token of a text has an offset: the text there is that of the token, and the line and the column of the
token are those of the offset (`Token.Stands`). The offsets go up, no two tokens overlap, and between them there
is nothing but blanks and, where comments are dropped, comments up to the end of their line (`Token.Tiling`). The
end of the text is a token of its own, the last one.

`Token.scan_tiles` says so of the tokens of every text. The proof goes from the end of the text to its front: the
end tiles what is behind it (`Tiling.finish`), and a tiling of the rest of a text is one of the text with a token
in front (`Tiling.cons`), or with a blank or a dropped comment (`Tiling.skip`).
-/

namespace MiniC

/-- The place of an offset in a text: the line breaks and the characters since the last one count, both from
one. -/
def Position.ofOffset (text : List Char) (offset : Nat) : Position :=
  ⟨1 + (text.take offset).count '\n', 1 + ((text.take offset).reverse.takeWhile (· ≠ '\n')).length⟩

/-- The place after some text, told from its back: the line by the ends of lines in it, the column by what comes after
the last of them. By induction on the text from the back. -/
theorem Position.start_after_reverse (back : List Char) :
    start.after back.reverse = ⟨1 + back.count '\n', 1 + (back.takeWhile (· ≠ '\n')).length⟩ := by
  induction back with
  | nil => rfl
  | cons c back ih =>
    have last : start.after (c :: back).reverse = (start.after back.reverse).next c := by
      simp only [after, List.reverse_cons, List.foldl_append, List.foldl_cons, List.foldl_nil]
    rw [last, ih, next]
    by_cases newline : c = '\n'
    · simp [newline, Nat.add_assoc]
    · simp [newline, Nat.add_assoc]

/-- The place that the characters in front lead to. -/
theorem Position.ofOffset_append (front rest : List Char) :
    ofOffset (front ++ rest) front.length = start.after front := by
  have back := start_after_reverse front.reverse
  rw [List.reverse_reverse, List.count_reverse] at back
  rw [ofOffset, List.take_left, back]

namespace Token

/-- The token is the text at the offset, and it is placed there. -/
structure Stands (text : List Char) (offset : Nat) (token : Token) : Prop where
  inside : offset + token.lexeme.toList.length ≤ text.length
  lexeme_eq : token.lexeme.toList = (text.drop offset).take token.lexeme.toList.length
  position_eq : token.position = .ofOffset text offset

/-- The offset is one of a character of a token. -/
def Covered (placed : List (Nat × Token)) (i : Nat) : Prop :=
  ∃ p ∈ placed, p.1 ≤ i ∧ i < p.1 + p.2.lexeme.toList.length

/-- Two slashes and everything up to the end of their line stand between the offsets. -/
structure IsLineComment (text : List Char) (first stop : Nat) : Prop where
  opens : ['/', '/'] <+: text.drop first
  after_slashes : first + 2 ≤ stop
  inside : stop ≤ text.length
  line : ∀ i, first ≤ i → i < stop → text[i]? ≠ some '\n'
  ends : stop = text.length ∨ text[stop]? = some '\n'

/-- Tokens with their offsets tile a text from `start` on. -/
structure Tiling (keepComments : Bool) (text : List Char) (start : Nat) (placed : List (Nat × Token)) : Prop where
  from_start : ∀ p ∈ placed, start ≤ p.1
  ordered : placed.Pairwise fun p q => p.1 < q.1 ∧ p.1 + p.2.lexeme.toList.length ≤ q.1
  stands : ∀ p ∈ placed, Stands text p.1 p.2
  gaps : ∀ i c, start ≤ i → text[i]? = some c → ¬Covered placed i →
    (c = ' ' ∨ c = '\t' ∨ c = '\r' ∨ c = '\n') ∨
      keepComments = false ∧ ∃ first stop, start ≤ first ∧ first ≤ i ∧ i < stop ∧ IsLineComment text first stop ∧
        ∀ j, first ≤ j → j < stop → ¬Covered placed j
  ends : ∃ front, placed = front ++ [(text.length, eof (.ofOffset text text.length))] ∧
    ∀ p ∈ front, p.2.kind ≠ .endOfFile

section Tilings

variable {keepComments : Bool} {text : List Char} {start stop : Nat} {placed : List (Nat × Token)}

/-- What is covered lies behind the start. -/
theorem Covered.le (tiling : Tiling keepComments text start placed) {i : Nat} (h : Covered placed i) : start ≤ i := by
  obtain ⟨p, mem, first, -⟩ := h
  exact Nat.le_trans (tiling.from_start p mem) first

/-- At the end of the text there is only the end. -/
theorem Tiling.finish (keepComments : Bool) (text : List Char) :
    Tiling keepComments text text.length [(text.length, eof (.ofOffset text text.length))] where
  from_start := by simp
  ordered := List.pairwise_singleton _ _
  stands := by
    intro p mem
    rw [List.mem_singleton] at mem
    subst mem
    exact ⟨Nat.le_refl _, by simp [eof], rfl⟩
  gaps := by
    intro i c first found _
    rw [List.getElem?_eq_none first] at found
    cases found
  ends := ⟨[], rfl, by simp⟩

/-- Blanks or a dropped comment may stand in front of a tiling. -/
theorem Tiling.skip (tiling : Tiling keepComments text stop placed) (le : start ≤ stop)
    (skipped : (∀ i c, start ≤ i → i < stop → text[i]? = some c → c = ' ' ∨ c = '\t' ∨ c = '\r' ∨ c = '\n') ∨
      keepComments = false ∧ IsLineComment text start stop) :
    Tiling keepComments text start placed where
  from_start p mem := Nat.le_trans le (tiling.from_start p mem)
  ordered := tiling.ordered
  stands := tiling.stands
  gaps := by
    intro i c first found uncovered
    by_cases later : stop ≤ i
    · rcases tiling.gaps i c later found uncovered with blank | ⟨dropped, first', stop', le', rest⟩
      · exact .inl blank
      · exact .inr ⟨dropped, first', stop', Nat.le_trans le le', rest⟩
    · rcases skipped with blanks | ⟨dropped, comment⟩
      · exact .inl (blanks i c first (Nat.lt_of_not_le later) found)
      · refine .inr ⟨dropped, start, stop, Nat.le_refl _, first, Nat.lt_of_not_le later, comment, ?_⟩
        intro j _ before covered
        exact Nat.not_le_of_lt before (covered.le tiling)
  ends := tiling.ends

/-- A token may stand in front of a tiling. -/
theorem Tiling.cons {token : Token}
    (tiling : Tiling keepComments text (start + token.lexeme.toList.length) placed) (stands : Stands text start token)
    (nonempty : token.lexeme.toList ≠ []) (kind : token.kind ≠ .endOfFile) :
    Tiling keepComments text start ((start, token) :: placed) where
  from_start := by
    intro p mem
    rcases List.mem_cons.1 mem with rfl | mem
    · exact Nat.le_refl _
    · exact Nat.le_trans (Nat.le_add_right _ _) (tiling.from_start p mem)
  ordered := by
    refine List.pairwise_cons.2 ⟨fun p mem => ?_, tiling.ordered⟩
    have later := tiling.from_start p mem
    have positive := List.length_pos_iff.2 nonempty
    simp only
    omega
  stands := by
    intro p mem
    rcases List.mem_cons.1 mem with rfl | mem
    · exact stands
    · exact tiling.stands p mem
  gaps := by
    intro i c first found uncovered
    have later : start + token.lexeme.toList.length ≤ i :=
      Nat.le_of_not_lt fun inside => uncovered ⟨_, List.mem_cons_self, first, inside⟩
    have others : ¬Covered placed i := by
      rintro ⟨p, mem, within⟩
      exact uncovered ⟨p, List.mem_cons_of_mem _ mem, within⟩
    rcases tiling.gaps i c later found others with blank | ⟨dropped, first', stop', le', le, lt, comment, free⟩
    · exact .inl blank
    · refine .inr ⟨dropped, first', stop', Nat.le_trans (Nat.le_add_right _ _) le', le, lt, comment, ?_⟩
      -- The comment starts after the token, so the token covers none of it.
      rintro j from_first to_stop ⟨p, mem, within⟩
      rcases List.mem_cons.1 mem with rfl | mem
      · exact Nat.not_le_of_lt within.2 (Nat.le_trans le' from_first)
      · exact free j from_first to_stop ⟨p, mem, within⟩
  ends := by
    obtain ⟨front, rfl, kinds⟩ := tiling.ends
    refine ⟨(start, token) :: front, rfl, fun p mem => ?_⟩
    rcases List.mem_cons.1 mem with rfl | mem
    · exact kind
    · exact kinds p mem

end Tilings

/-! ## The pieces of a text -/

/-- What comes after some text stands at its length, and at the place that it leads to. -/
theorem stands_append (front lexeme rest : List Char) (kind : Kind) :
    Stands (front ++ (lexeme ++ rest)) front.length ⟨kind, String.ofList lexeme, .after .start front⟩ where
  inside := by
    simp only [String.toList_ofList, List.length_append]
    omega
  lexeme_eq := by simp
  position_eq := (Position.ofOffset_append front _).symm

/-- Two slashes and what follows them up to the end of the line are a comment where they stand. -/
theorem isLineComment_append (front : List Char) {body rest : List Char} (line : '\n' ∉ body)
    (ends : ∀ d ∈ rest.head?, d = '\n') :
    IsLineComment (front ++ (('/' :: '/' :: body) ++ rest)) front.length
      (front.length + ('/' :: '/' :: body).length) where
  opens := by simp
  after_slashes := by
    simp only [List.length_cons]
    omega
  inside := by
    simp only [List.length_append]
    omega
  line := by
    intro i first before found
    rw [List.getElem?_append_right first, List.getElem?_append_left (by omega)] at found
    have mem := List.mem_of_getElem? found
    simp [line] at mem
  ends := by
    cases rest with
    | nil => exact .inl (by simp)
    | cons d rest =>
      have newline := ends d rfl
      subst newline
      exact .inr (by simp)

/-- A piece may stand in front of a tiling. Its token is one of the tiling then, if it has one. -/
theorem Tiling.of_cut {keepComments : Bool} {front rest : List Char} {piece : Piece} (cut : Piece.Cut rest piece)
    {placed : List (Nat × Token)}
    (tiling : Tiling keepComments (front ++ rest) (front.length + piece.lexeme.length) placed) :
    ∃ placed', placed'.map Prod.snd =
        (piece.token? (Position.start.after front) keepComments).toList ++ placed.map Prod.snd ∧
      Tiling keepComments (front ++ rest) front.length placed' := by
  have le : front.length ≤ front.length + piece.lexeme.length := Nat.le_add_right _ _
  cases cut with
  | blank blank =>
    rename_i c rest
    refine ⟨placed, rfl, tiling.skip le (.inl ?_)⟩
    intro i d first before found
    -- A blank is one character, so there is one place to look at.
    have here : i = front.length := Nat.le_antisymm (Nat.le_of_lt_succ before) first
    rw [here, List.getElem?_append_right (Nat.le_refl _), Nat.sub_self, List.getElem?_cons_zero,
      Option.some.injEq] at found
    subst found
    have cases : ((c = ' ' ∨ c = '\r') ∨ c = '\t') ∨ c = '\n' := by simpa [Piece.isBlank] using blank
    rcases cases with ((space | carriage) | tab) | newline
    · exact .inl space
    · exact .inr (.inr (.inl carriage))
    · exact .inr (.inl tab)
    · exact .inr (.inr (.inr newline))
  | comment line ends =>
    rename_i body rest
    cases keepComments with
    | false => exact ⟨placed, rfl, tiling.skip le (.inr ⟨rfl, isLineComment_append front line ends⟩)⟩
    | true =>
      refine ⟨(front.length, ⟨.comment (String.ofList body), String.ofList ('/' :: '/' :: body),
        .after .start front⟩) :: placed, rfl, ?_⟩
      exact Tiling.cons (by simpa using tiling) (stands_append front _ rest _) (by simp) (by simp)
  | token notComment notEnd nonempty line =>
    rename_i kind lexeme rest
    refine ⟨(front.length, ⟨kind, String.ofList lexeme, .after .start front⟩) :: placed, ?_, ?_⟩
    · rw [Piece.token?_of_not_comment notComment]
      rfl
    · exact Tiling.cons (by simpa using tiling) (stands_append front lexeme rest kind) (by simpa using nonempty) notEnd

/-- Piece by piece, the tokens tile the text that is left. -/
theorem tiling_of_scanFrom {keepComments : Bool} {bound : Nat} {front rest : List Char} {tokens : List Token}
    (enough : rest.length ≤ bound)
    (h : scanFrom keepComments bound (Position.start.after front) rest = .ok tokens) :
    ∃ placed, placed.map Prod.snd = tokens ∧ Tiling keepComments (front ++ rest) front.length placed := by
  have finish : ∀ front : List Char, ∃ placed, placed.map Prod.snd = [eof (Position.start.after front)] ∧
      Tiling keepComments (front ++ []) front.length placed := by
    intro front
    rw [← Position.ofOffset_append front [], List.append_nil]
    exact ⟨_, rfl, Tiling.finish keepComments front⟩
  induction bound generalizing front rest tokens with
  | zero =>
    rw [Nat.le_zero, List.length_eq_zero_iff] at enough
    subst enough
    cases h
    exact finish front
  | succ bound ih =>
    cases rest with
    | nil =>
      cases h
      exact finish front
    | cons c cs =>
      obtain ⟨piece, read, h⟩ := except_bind_eq_ok.1 h
      obtain ⟨later, scanned, h⟩ := except_bind_eq_ok.1 h
      cases h
      have cut := Piece.read_cut read
      have reached : (Position.start.after front).after piece.lexeme = Position.start.after (front ++ piece.lexeme) :=
        List.foldl_append.symm
      rw [reached] at scanned
      obtain ⟨placed, rfl, tiling⟩ := ih (cut.length_le enough) scanned
      rw [List.append_assoc, cut.append_eq, List.length_append] at tiling
      exact tiling.of_cut cut

/-- The tokens of every text tile it: each is the text at its offset, with the line and the column that the
characters in front give, in the order of the text and with nothing but blanks and dropped comments between
them, and the last one, and no other, is the end of the text. A scanner that goes through the text with a
cursor and cuts its tokens out by offsets gives the same result on every text, accepted or refused, and never
cuts outside of it. -/
theorem scan_tiles (source : String) (keepComments : Bool) :
    (∀ tokens, scan source keepComments = .ok tokens →
      ∃ placed, placed.map Prod.snd = tokens ∧ Tiling keepComments source.toList 0 placed) ∧
    Cursor.scan source keepComments = (scan source keepComments).mapError .refused ∧
    ∀ start stop, Cursor.scan source keepComments ≠ .error (.outside start stop) := by
  refine ⟨fun tokens h => ?_, Cursor.scan_eq source keepComments, fun start stop outside => ?_⟩
  · exact @tiling_of_scanFrom keepComments _ [] source.toList tokens (Nat.le_refl _) h
  · rw [Cursor.scan_eq] at outside
    cases accepted : scan source keepComments with
    | ok tokens =>
      rw [accepted] at outside
      cases outside
    | error cause =>
      rw [accepted] at outside
      cases outside

/-- A comment, a tab, an escape, and a mark of two characters without blanks around it. -/
theorem scan_tiles_two_lines :
    ∃ tokens placed, scan "fn //f\n\t\"a\\n\" 'b'<<1" = .ok tokens ∧
      tokens.map (fun token => (token.lexeme, token.position)) =
        [("fn", ⟨1, 1⟩), ("\"a\\n\"", ⟨2, 2⟩), ("'b'", ⟨2, 8⟩), ("<<", ⟨2, 11⟩), ("1", ⟨2, 13⟩), ("", ⟨2, 14⟩)] ∧
      placed.map Prod.snd = tokens ∧ Tiling false "fn //f\n\t\"a\\n\" 'b'<<1".toList 0 placed := by
  obtain ⟨placed, same, tiling⟩ := (scan_tiles "fn //f\n\t\"a\\n\" 'b'<<1" false).1 _ rfl
  exact ⟨_, placed, rfl, rfl, same, tiling⟩

end Token

end MiniC
