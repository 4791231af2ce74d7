import MiniC.Compile

/-!
# Comments

Whether comments are kept or dropped with the blanks makes no difference to a source. The two ways of
scanning cut a text into the same pieces at the same places: only what a piece contributes depends on the
choice. So they fail alike, and the tokens differ by the comments, which are not read. Nothing after the
scanner looks at the choice again.
-/

namespace MiniC

/-- Tokens without their comments. -/
def Token.withoutComments (tokens : List Token) : List Token :=
  tokens.filter fun t => !t.isComment

namespace Token

/-- Comments are dropped part by part. -/
theorem withoutComments_append (ts us : List Token) :
    withoutComments (ts ++ us) = withoutComments ts ++ withoutComments us :=
  List.filter_append ..

/-- A piece contributes the same token, or a comment where comments are kept and nothing where they are
dropped. -/
theorem withoutComments_token? (piece : Piece) (here : Position) :
    withoutComments (piece.token? here true).toList = (piece.token? here false).toList := by
  obtain ⟨kind?, lexeme, rest⟩ := piece
  cases kind? with
  | none => rfl
  | some kind => cases kind <;> rfl

/-- The two ways of scanning go through a text in step. -/
theorem scanFrom_withoutComments (bound : Nat) (here : Position) (cs : List Char) :
    (scanFrom true bound here cs).map withoutComments = scanFrom false bound here cs := by
  -- The bound falls with every piece; the next piece starts at the same place either way.
  induction bound generalizing here cs with
  | zero => rfl
  | succ bound ih =>
    cases cs with
    | nil => rfl
    | cons c cs =>
      cases hread : Piece.read here c cs with
      | error e => simp only [scanFrom, hread, bind, Except.bind, Except.map]
      | ok piece =>
        have rest := ih (here.after piece.lexeme) piece.rest
        simp only [scanFrom, hread, bind, Except.bind, ← rest]
        cases scanFrom true bound (here.after piece.lexeme) piece.rest with
        | error e => rfl
        | ok tokens =>
          simp only [Except.map, pure, Except.pure, withoutComments_append, withoutComments_token?]

/-- To keep comments and drop them afterwards is not to keep them. -/
theorem scan_withoutComments (source : String) :
    (scan source true).map withoutComments = scan source false :=
  scanFrom_withoutComments ..

/-- The end of a source is not a comment, so it ends what is read with comments and without them. -/
theorem readable_withoutComments (tokens : List Token) :
    readable (withoutComments tokens) = readable tokens := by
  induction tokens with
  | nil => rfl
  | cons t ts ih =>
    by_cases comment : t.isComment = true
    · have inside : t.kind ≠ .endOfFile := by
        intro ends
        simp [isComment, ends] at comment
      have dropped : withoutComments (t :: ts) = withoutComments ts := by
        simp [withoutComments, comment]
      rw [dropped, ih]
      simp [readable, inside, comment]
    · have kept : withoutComments (t :: ts) = t :: withoutComments ts := by
        simp [withoutComments, comment]
      rw [kept]
      by_cases ends : t.kind = .endOfFile
      · simp [readable, ends]
      · simpa [readable, ends, comment] using ih

end Token

namespace Source

/-- The tree of a source does not depend on what becomes of its comments. -/
theorem parse_keepComments (source : String) (keep : Bool) : parse source keep = parse source false := by
  cases keep with
  | false => rfl
  | true =>
    unfold parse
    rw [← Token.scan_withoutComments]
    cases Token.scan source true with
    | error e => rfl
    | ok tokens =>
      show (Block.parse tokens).mapError Error.parse =
        (Block.parse (Token.withoutComments tokens)).mapError Error.parse
      rw [Block.parse, Block.parse, Token.readable_withoutComments]

/-- Checking looks at the options only for the tree. -/
theorem check_stripComments (source : String) (options : Options) (strip : Bool) :
    check source { options with stripComments := strip } = check source options := by
  simp only [check, parse_keepComments source (!strip), parse_keepComments source (!options.stripComments)]

/-- Whether comments are kept shows neither in the program nor in the warnings. -/
theorem lowerWithWarnings_stripComments (source : String) (options : Options) (strip : Bool) :
    lowerWithWarnings source { options with stripComments := strip } = lowerWithWarnings source options := by
  simp only [lowerWithWarnings, check_stripComments]

/-- For every source, keeping comments and dropping them gives the same error, or the same tokens at the
same places but for the comments. With the same backend, the same machine and the same console, the two
ways then give the same checked source, the same program, and the same compiled source and console. -/
theorem compile_stripComments (source : String) :
    (Token.scan source true).map (List.filter fun t => !t.isComment) = Token.scan source false ∧
      ∀ options : Options,
        check source { options with stripComments := true } =
            check source { options with stripComments := false } ∧
          lower source { options with stripComments := true } =
            lower source { options with stripComments := false } ∧
          ∀ (fuel : Nat) (console : Console),
            compile source { options with stripComments := true } fuel console =
              compile source { options with stripComments := false } fuel console := by
  refine ⟨Token.scan_withoutComments source, fun options => ⟨?_, ?_, fun fuel console => ?_⟩⟩
  · simp only [check_stripComments]
  · simp only [lower, lowerWithWarnings_stripComments]
  · simp only [compile, lowerWithWarnings_stripComments]

end Source

end MiniC
