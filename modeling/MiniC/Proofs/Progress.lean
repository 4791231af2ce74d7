import MiniC.Proofs.Reading

/-!
# Progress of parsers

A parser takes tokens off the front of those that are left and never puts one back, also when it fails. How many it
takes at least if it succeeds is what ends a loop or a recursion (`Parser.Takes`).

`Parser.Agree` compares two parsers on lists of bounded length, and says what the second of them takes: what comes after
it has a shorter list to agree on. So the laws here, one for every way in which parsers are made of others, give both at
once: that parsers take tokens, and that they do the same if the parsers that they are made of do so on shorter lists.

`Parser.Advances` says the same of places in all the tokens of a source, with its comments and after its first end.
-/

namespace MiniC

namespace Parser

variable {α β : Type} {lo n m k l least : Nat}

/-- What is left after an answer is a rest of the tokens, and after a success at least `least` tokens are gone. -/
def Takes (least : Nat) (tokens : List Token) : EStateM.Result ParseError (List Token) α → Prop
  | .ok _ rest => rest <:+ tokens ∧ rest.length + least ≤ tokens.length
  | .error _ rest => rest <:+ tokens

/-- On lists of at least `lo` and at most `n` tokens two parsers do the same, and if they succeed they take at least
`least` tokens. -/
structure Agree (lo n least : Nat) (p q : Parser α) : Prop where
  same : ∀ {tokens}, lo ≤ tokens.length → tokens.length ≤ n → p tokens = q tokens
  takes : ∀ {tokens}, lo ≤ tokens.length → tokens.length ≤ n → Takes least tokens (q tokens)

/-! ## Laws of what is taken -/

/-- To take more is to take as much. -/
theorem Takes.mono {tokens : List Token} {answer : EStateM.Result ParseError (List Token) α}
    (h : Takes k tokens answer) (le : least ≤ k) : Takes least tokens answer := by
  cases answer with
  | ok a rest => exact ⟨h.1, Nat.le_trans (Nat.add_le_add_left le _) h.2⟩
  | error e rest => exact h

/-- What two parsers take one after the other adds up. -/
theorem Takes.trans {tokens rest : List Token} {answer : EStateM.Result ParseError (List Token) α}
    (suffix : rest <:+ tokens) (taken : rest.length + k ≤ tokens.length) (h : Takes l rest answer) :
    Takes (k + l) tokens answer := by
  cases answer with
  | ok a rest' => exact ⟨h.1.trans suffix, by have := h.2; omega⟩
  | error e rest' => exact List.IsSuffix.trans h suffix

theorem takes_nothing (a : α) (tokens : List Token) : Takes 0 tokens (.ok a tokens) :=
  ⟨List.suffix_refl _, Nat.le_refl _⟩

/-! ## Laws of agreement -/

namespace Agree

variable {p q : Parser α} {f g : α → Parser β}

/-- Parsers that agree and take more agree and take as much. -/
theorem mono (h : Agree lo n k p q) (le : least ≤ k) : Agree lo n least p q where
  same := h.same
  takes above below := (h.takes above below).mono le

/-- A parser that takes tokens agrees with itself. -/
theorem refl (h : ∀ tokens, Takes least tokens (p tokens)) : Agree lo n least p p where
  same _ _ := rfl
  takes _ _ := h _

/-- Parsers that agree on lists of any length do so on long ones. -/
theorem any (h : Agree 0 n least p q) : Agree lo n least p q where
  same _ := h.same (Nat.zero_le _)
  takes _ := h.takes (Nat.zero_le _)

/-- Parsers that do on every list what some parsers do that agree. -/
theorem each (h : ∀ tokens : List Token, lo ≤ tokens.length → tokens.length ≤ n →
    ∃ p' q', Agree lo n least p' q' ∧ p tokens = p' tokens ∧ q tokens = q' tokens) : Agree lo n least p q where
  same {tokens} above below := by
    obtain ⟨p', q', agree, here, there⟩ := h tokens above below
    rw [here, there]
    exact agree.same above below
  takes {tokens} above below := by
    obtain ⟨p', q', agree, _, there⟩ := h tokens above below
    rw [there]
    exact agree.takes above below

/-- One parser after another. The second ones have fewer tokens to agree on. -/
theorem bind (first : Agree lo n k p q) (second : ∀ a m, m + k ≤ n → Agree 0 m l (f a) (g a))
    (le : least ≤ k + l) : Agree lo n least (p >>= f) (q >>= g) where
  same {tokens} above below := by
    have start := first.same above below
    have taken := first.takes above below
    cases answer : q tokens with
    | error e rest => rw [bind_of_error (start.trans answer), bind_of_error answer]
    | ok a rest =>
      rw [answer] at taken
      rw [bind_of_ok (start.trans answer), bind_of_ok answer]
      exact (second a rest.length (Nat.le_trans taken.2 below)).same (Nat.zero_le _) (Nat.le_refl _)
  takes {tokens} above below := by
    have taken := first.takes above below
    cases answer : q tokens with
    | error e rest =>
      rw [answer] at taken
      rw [bind_of_error answer]
      exact taken
    | ok a rest =>
      rw [answer] at taken
      rw [bind_of_ok answer]
      have others := (second a rest.length (Nat.le_trans taken.2 below)).takes (Nat.zero_le _) (Nat.le_refl _)
      exact (Takes.trans taken.1 taken.2 others).mono le

/-- One parser after another, where the second ones may take no token. -/
theorem seq (first : Agree lo n k p q) (le : least ≤ k) (second : ∀ a m, m + k ≤ n → Agree 0 m 0 (f a) (g a)) :
    Agree lo n least (p >>= f) (q >>= g) :=
  first.bind second le

/-- To make something else of a result takes nothing. -/
theorem map (h : Agree lo n least p q) (f : α → β) :
    Agree lo n least (p >>= fun a => pure (f a)) (q >>= fun a => pure (f a)) :=
  h.bind (fun a _ _ => refl (takes_nothing (f a))) (Nat.le_refl _)

/-- The last of several parsers, which may take no token. -/
theorem last (h : Agree lo n k p q) (f : α → β) :
    Agree lo n 0 (p >>= fun a => pure (f a)) (q >>= fun a => pure (f a)) :=
  (h.map f).mono (Nat.zero_le _)

end Agree

theorem agree_pure (a : α) : Agree lo n 0 (pure a) (pure a) :=
  .refl (takes_nothing a)

/-- To fail is to take whatever one likes: the bound is on success only. -/
theorem agree_throw (e : ParseError) : Agree lo n least (throw e : Parser α) (throw e) :=
  .refl fun _ => List.suffix_refl _

/-- To fail leaves the tokens where they are, and how many a success would take is left open. -/
theorem agree_fail (expected : Expectation) : Agree lo n least (fail expected : Parser α) (fail expected) := by
  refine .refl fun tokens => ?_
  cases tokens with
  | nil => exact List.suffix_refl _
  | cons token tokens => exact List.suffix_refl _

/-! ## Single tokens -/

theorem takes_tail (a : α) (token : Token) (tokens : List Token) : Takes 1 (token :: tokens) (.ok a tokens) :=
  ⟨List.suffix_cons _ _, Nat.le_refl _⟩

/-- The next token is taken if there is one. -/
theorem agree_next (expected : Expectation) : Agree lo n 1 (next expected) (next expected) := by
  refine .refl fun tokens => ?_
  cases tokens with
  | nil => exact List.suffix_refl _
  | cons token tokens => exact takes_tail token token tokens

/-- Dropping a token takes it if there is one. -/
theorem agree_skip : Agree 1 n 1 skip skip where
  same _ _ := rfl
  takes {tokens} above _ := by
    cases tokens with
    | nil => cases above
    | cons token tokens => exact takes_tail () token tokens

/-- Where a token of a kind is taken if there is one, there are fewer tokens to agree on afterwards, or as many as
before. -/
theorem agree_accept (kind : Token.Kind) {p p' q q' : Parser α}
    (taken : ∀ m, m + 1 ≤ n → Agree 0 m l p p') (other : Agree lo n least q q') (le : least ≤ 1 + l) :
    Agree lo n least (do if ← accept kind then p else q) (do if ← accept kind then p' else q') := by
  have found {r r' : Parser α} {token : Token} {tokens : List Token} (here : token.kind = kind) :
      (do if ← accept kind then r else r' : Parser α) (token :: tokens) = r tokens := by
    rw [bind_of_ok (accept_cons here), if_pos rfl]
  have missing {r r' : Parser α} {tokens : List Token} (elsewhere : nextKind tokens ≠ some kind) :
      (do if ← accept kind then r else r' : Parser α) tokens = r' tokens := by
    rw [bind_of_ok (accept_of_ne elsewhere)]
    rfl
  constructor
  · intro tokens above below
    by_cases here : nextKind tokens = some kind
    · obtain ⟨token, rest, rfl, kind_eq⟩ := nextKind_eq_some here
      rw [found kind_eq, found kind_eq]
      exact (taken rest.length below).same (Nat.zero_le _) (Nat.le_refl _)
    · rw [missing here, missing here]
      exact other.same above below
  · intro tokens above below
    by_cases here : nextKind tokens = some kind
    · obtain ⟨token, rest, rfl, kind_eq⟩ := nextKind_eq_some here
      rw [found kind_eq]
      have rest_takes := (taken rest.length below).takes (Nat.zero_le _) (Nat.le_refl _)
      exact (Takes.trans (List.suffix_cons token rest) (Nat.le_refl _) rest_takes).mono le
    · rw [missing here]
      exact other.takes above below

/-- A token of a kind is taken, or reading fails. -/
theorem agree_punct (mark : Punct) : Agree lo n 1 (punct mark) (punct mark) :=
  agree_accept (.punct mark) (fun _ _ => agree_pure ()) (agree_fail _) (Nat.le_refl _)

/-- A keyword is taken, or reading fails. -/
theorem agree_keyword (word : Keyword) : Agree lo n 1 (keyword word) (keyword word) :=
  agree_accept (.keyword word) (fun _ _ => agree_pure ()) (agree_fail _) (Nat.le_refl _)

/-- Where the next token decides, it is there, or there is none. -/
theorem agree_head {f g : Option Token → Parser α} (none : Agree 0 0 least (f none) (g none))
    (some : ∀ token, Agree 1 n least (f (some token)) (g (some token))) :
    Agree 0 n least (head? >>= f) (head? >>= g) where
  same {tokens} _ below := by
    cases tokens with
    | nil => exact none.same (Nat.le_refl _) (Nat.le_refl _)
    | cons token rest => exact (some token).same (Nat.succ_le_succ (Nat.zero_le _)) below
  takes {tokens} _ below := by
    cases tokens with
    | nil => exact none.takes (Nat.le_refl _) (Nat.le_refl _)
    | cons token rest => exact (some token).takes (Nat.succ_le_succ (Nat.zero_le _)) below

/-- Where only the kind of the next token decides, the token is there, or there is none. -/
theorem agree_peek {f g : Option Token.Kind → Parser α} (none : Agree 0 0 least (f none) (g none))
    (some : ∀ kind, Agree 1 n least (f (some kind)) (g (some kind))) :
    Agree 0 n least (peek? >>= f) (peek? >>= g) := by
  show Agree 0 n least (head? >>= fun token => f (token.map Token.kind))
    (head? >>= fun token => g (token.map Token.kind))
  exact agree_head none fun token => some token.kind

/-- A name is one token. -/
theorem agree_identifier : Agree 0 n 1 identifier identifier := by
  refine agree_peek (agree_fail _) fun kind => ?_
  cases kind with
  | identifier name => exact agree_skip.map fun _ => name
  | _ => exact agree_fail _

/-! ## Lists and looking ahead -/

/-- One turn of a list with commas: an item, and whether a comma comes after it. -/
def turn (item : Parser α) : Parser (α × Bool) := do
  let a ← item
  let again ← accept (.punct .comma)
  pure (a, again)

/-- A list with commas, of which the first turn is taken here: `more` reads the rest of it, and `close` what comes after
the last item. -/
def listTurn (item : Parser α) (more : Parser (List α)) (close : Parser Unit) : Parser (List α) := do
  let (a, again) ← turn item
  if again then do
    let others ← more
    pure (a :: others)
  else do
    close
    pure [a]

/-- A list with commas as the parsers write it, without the pair of a turn. -/
theorem listTurn_eq (item : Parser α) (more : Parser (List α)) (close : Parser Unit) :
    listTurn item more close = (do
      let a ← item
      if ← accept (.punct .comma) then do
        let others ← more
        pure (a :: others)
      else do
        close
        pure [a]) := by
  unfold listTurn turn
  simp only [bind_assoc, pure_bind]

/-- What a parser finds further on. No token is taken. -/
def ahead (p : Parser α) (further : List Token) : Parser α :=
  fun tokens =>
    match p further with
    | .ok a _ => .ok a tokens
    | .error e _ => .error e tokens

/-- A token may be taken or not, so none is taken for sure. -/
theorem takes_accept (kind : Token.Kind) (tokens : List Token) : Takes 0 tokens (accept kind tokens) := by
  by_cases here : nextKind tokens = some kind
  · obtain ⟨token, rest, rfl, kind_eq⟩ := nextKind_eq_some here
    rw [accept_cons kind_eq]
    exact (takes_tail true token rest).mono (Nat.zero_le 1)
  · rw [accept_of_ne here]
    exact takes_nothing false tokens

/-- A turn takes what its item takes, since there may be no comma. -/
theorem agree_turn {p q : Parser α} (item : Agree lo n least p q) : Agree lo n least (turn p) (turn q) := by
  refine item.bind (l := 0) (fun a m _ => ?_) (Nat.le_refl _)
  exact (Agree.refl (takes_accept _)).map fun again => (a, again)

/-- A list is read turn by turn, with fewer tokens after every turn. -/
theorem agree_listTurn {p q : Parser α} {more more' : Parser (List α)} {close close' : Parser Unit}
    (item : Agree lo n 1 p q) (others : ∀ m, m + 1 ≤ n → Agree 0 m k more more')
    (closing : ∀ m, m + 1 ≤ n → Agree 0 m l close close') :
    Agree lo n 1 (listTurn p more close) (listTurn q more' close') := by
  refine (agree_turn item).bind (l := 0) (fun a m fewer => ?_) (Nat.le_refl _)
  obtain ⟨a, again⟩ := a
  cases again with
  | true => exact (others m fewer).last (a :: ·)
  | false => exact (closing m fewer).last fun _ => [a]

/-- To look ahead is to read further on and to take nothing, so parsers that agree there look ahead alike. -/
theorem agree_ahead {p q : Parser α} {further : List Token} (h : Agree 0 m k p q) (le : further.length ≤ m) :
    Agree lo n 0 (ahead p further) (ahead q further) where
  same _ _ := by
    unfold ahead
    rw [h.same (Nat.zero_le _) le]
  takes {tokens} _ _ := by
    unfold ahead
    cases q further with
    | ok a rest => exact takes_nothing a tokens
    | error e rest => exact List.suffix_refl _

/-! ## Places -/

/-- What is left after an answer, be it a success or not. -/
def rest (p : Parser α) (tokens : List Token) : List Token :=
  match p tokens with
  | .ok _ rest => rest
  | .error _ rest => rest

/-- What is left after a number of calls, each of which starts where the one before has stopped. -/
def restAfter (p : Parser α) : (count : Nat) → List Token → List Token
  | 0, tokens => tokens
  | count + 1, tokens => p.restAfter count (p.rest tokens)

end Parser

/-- The place of the first end of the source among the tokens without the comments. -/
def Token.endPlace (tokens : List Token) : Nat :=
  (tokens.filter fun t => !t.isComment).findIdx fun t => t.kind = .endOfFile

/-- The end of the source is no comment, so it stays where comments are dropped. -/
theorem Token.isComment_of_end {t : Token} (h : t.kind = .endOfFile) : t.isComment = false := by
  unfold Token.isComment
  rw [h]

/-- What is read ends where the source does. -/
theorem Token.length_readable (tokens : List Token) : (Token.readable tokens).length = Token.endPlace tokens := by
  induction tokens with
  | nil => rfl
  | cons t tokens ih =>
    unfold Token.readable Token.endPlace at *
    by_cases ends : t.kind = .endOfFile
    · simp [ends, Token.isComment_of_end ends, List.findIdx_cons]
    · cases comment : t.isComment with
      | true => simpa [ends, comment] using ih
      | false => simpa [ends, comment, List.findIdx_cons] using ih

namespace Parser

variable {α : Type} {least : Nat}

/-- Reading stands at a place, and the given tokens are left: those from there on to the first end of the source. -/
def StandsAt (tokens : List Token) (place : Nat) (left : List Token) : Prop :=
  place ≤ Token.endPlace tokens ∧ left = (Token.readable tokens).drop place

/-- From whatever place in whatever tokens a parser starts, it stops at a place from there on and not beyond the end,
and if it succeeds, at least `least` places further on. -/
structure Advances (least : Nat) (p : Parser α) : Prop where
  ok : ∀ {tokens left rest place a}, StandsAt tokens place left → p left = .ok a rest →
    ∃ next, place + least ≤ next ∧ StandsAt tokens next rest
  error : ∀ {tokens left rest place e}, StandsAt tokens place left → p left = .error e rest →
    ∃ next, place ≤ next ∧ StandsAt tokens next rest

/-- No more is left than there are places up to the end. -/
theorem StandsAt.length_le {tokens left : List Token} {place : Nat} (h : StandsAt tokens place left) :
    left.length ≤ Token.endPlace tokens := by
  rw [h.2, List.length_drop, Token.length_readable]
  exact Nat.sub_le _ _

/-- A rest of what is left is what is left at a place further on, as far on as tokens have been taken. -/
theorem StandsAt.suffix {tokens left rest : List Token} {place : Nat} (h : StandsAt tokens place left)
    (suffix : rest <:+ left) :
    ∃ next, StandsAt tokens next rest ∧ next + rest.length = place + left.length := by
  obtain ⟨inside, rfl⟩ := h
  have lengths := suffix.length_le
  rw [List.length_drop, Token.length_readable] at lengths
  refine ⟨Token.endPlace tokens - rest.length, ⟨Nat.sub_le _ _, ?_⟩, ?_⟩
  · rw [List.suffix_iff_eq_drop.1 suffix, List.drop_drop]
    simp only [List.length_drop, Token.length_readable]
    congr 1
    omega
  · rw [List.length_drop, Token.length_readable]
    omega

/-- To take tokens is to advance by as many places, whatever the source is. -/
theorem advances_of_takes {p : Parser α} (h : ∀ tokens, Takes least tokens (p tokens)) : p.Advances least where
  ok {tokens left rest place a} stands run := by
    have taken := h left
    rw [run] at taken
    obtain ⟨next, stands', lengths⟩ := stands.suffix taken.1
    exact ⟨next, by have := taken.2; omega, stands'⟩
  error {tokens left rest place e} stands run := by
    have taken := h left
    rw [run] at taken
    obtain ⟨next, stands', lengths⟩ := stands.suffix taken
    have := List.IsSuffix.length_le taken
    exact ⟨next, by omega, stands'⟩

/-- Parsers that agree with themselves on lists of all lengths advance. -/
theorem advances_of_agree {p : Parser α} (h : ∀ n, Agree 0 n least p p) : p.Advances least :=
  advances_of_takes fun tokens => (h tokens.length).takes (Nat.zero_le _) (Nat.le_refl _)

/-- Call after call, reading stays between where it started and the end. -/
theorem standsAt_restAfter {p : Parser α} (h : p.Advances 0) {tokens left : List Token} {place : Nat}
    (stands : StandsAt tokens place left) (count : Nat) :
    ∃ next, place ≤ next ∧ StandsAt tokens next (p.restAfter count left) := by
  induction count generalizing left place with
  | zero => exact ⟨place, Nat.le_refl _, stands⟩
  | succ count ih =>
    have once : ∃ next, place ≤ next ∧ StandsAt tokens next (p.rest left) := by
      unfold Parser.rest
      cases answer : p left with
      | ok a rest => exact h.ok stands answer
      | error e rest => exact h.error stands answer
    obtain ⟨next, le, stands'⟩ := once
    obtain ⟨last, le', stands''⟩ := ih stands'
    exact ⟨last, Nat.le_trans le le', stands''⟩

end Parser

end MiniC
