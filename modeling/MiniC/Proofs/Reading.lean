import MiniC.Parser
import MiniC.Proofs.Grammar
import MiniC.Proofs.Results

/-!
# Parsers and phrases

A parser reads a kind of phrases if it succeeds on exactly those, takes exactly their tokens, and gives the
tree of the phrase (`Parser.Reads`). What comes after a phrase matters as well, since a parser goes on as long
as it can: it must not look like more of the phrase, which is a condition on the next token.

Parsers that call each other are given a depth, which limits how many tokens they can be sure to read; so
reading is certain up to a number of tokens only.

The laws here say which phrases a parser reads that is made from others.
-/

namespace MiniC

open Grammar

/-- The kinds of tokens. -/
def kinds (tokens : List Token) : List Token.Kind :=
  tokens.map Token.kind

/-- The kind of the next token. -/
def nextKind (tokens : List Token) : Option Token.Kind :=
  (kinds tokens).head?

@[simp]
theorem kinds_nil : kinds [] = [] := rfl

@[simp]
theorem kinds_cons (token : Token) (tokens : List Token) : kinds (token :: tokens) = token.kind :: kinds tokens :=
  rfl

@[simp]
theorem nextKind_nil : nextKind [] = none := rfl

@[simp]
theorem nextKind_cons (token : Token) (tokens : List Token) : nextKind (token :: tokens) = some token.kind :=
  rfl

/-- What comes next is the first token of a phrase, or what is behind it if the phrase is empty. -/
theorem nextKind_append (tokens rest : List Token) :
    nextKind (tokens ++ rest) = (kinds tokens).head?.or (nextKind rest) := by
  rw [nextKind, kinds, List.map_append, List.head?_append]
  rfl

/-- If something comes next, there is a token of that kind. -/
theorem nextKind_eq_some {tokens : List Token} {k : Token.Kind} (h : nextKind tokens = some k) :
    ∃ token tokens', tokens = token :: tokens' ∧ token.kind = k := by
  cases tokens with
  | nil => cases h
  | cons token tokens => exact ⟨token, tokens, rfl, Option.some.inj h⟩

theorem kinds_eq_nil {tokens : List Token} (h : kinds tokens = []) : tokens = [] :=
  List.map_eq_nil_iff.1 h

/-- A phrase that starts with a kind starts with a token of that kind. -/
theorem kinds_eq_cons {tokens : List Token} {k : Token.Kind} {ks : List Token.Kind} (h : kinds tokens = k :: ks) :
    ∃ token tokens', tokens = token :: tokens' ∧ token.kind = k ∧ kinds tokens' = ks :=
  List.map_eq_cons_iff.1 h

/-- The tokens of two phrases can be told apart where the kinds are. -/
theorem kinds_eq_append {tokens : List Token} {ks ks' : List Token.Kind} (h : kinds tokens = ks ++ ks') :
    ∃ tokens₁ tokens₂, tokens = tokens₁ ++ tokens₂ ∧ kinds tokens₁ = ks ∧ kinds tokens₂ = ks' :=
  List.map_eq_append_iff.1 h

theorem kinds_eq_singleton {tokens : List Token} {k : Token.Kind} (h : kinds tokens = [k]) :
    ∃ token, tokens = [token] ∧ token.kind = k := by
  obtain ⟨token, tokens', rfl, kind, none⟩ := kinds_eq_cons h
  exact ⟨token, by rw [kinds_eq_nil none], kind⟩

/-- A phrase between two marks is made of their tokens and those between them. -/
theorem kinds_eq_enclosed {tokens : List Token} {k k' : Token.Kind} {ks : List Token.Kind}
    (h : kinds tokens = k :: (ks ++ [k'])) :
    ∃ opening inner closing, tokens = opening :: (inner ++ [closing]) ∧ opening.kind = k ∧ kinds inner = ks ∧
      closing.kind = k' := by
  obtain ⟨opening, tokens', rfl, opened, h⟩ := kinds_eq_cons h
  obtain ⟨inner, tokens', rfl, same, h⟩ := kinds_eq_append h
  obtain ⟨closing, rfl, closed⟩ := kinds_eq_singleton h
  exact ⟨opening, inner, closing, rfl, opened, same, closed⟩

/-- Tokens without negative integers: a sign is a token of its own. -/
def Unsigned (tokens : List Token) : Prop :=
  ∀ value, .integer value ∈ kinds tokens → 0 ≤ value.toInt

/-- What is left of tokens without negative integers has none either. -/
theorem Unsigned.rest {tokens rest : List Token} {ks : List Token.Kind} (h : Unsigned tokens)
    (split : kinds tokens = ks ++ kinds rest) : Unsigned rest :=
  fun value mem => h value (split ▸ List.mem_append_right ks mem)

theorem Unsigned.tail {token : Token} {tokens : List Token} (h : Unsigned (token :: tokens)) : Unsigned tokens :=
  fun value mem => h value (.tail _ mem)

namespace Parser

variable {α β : Type}

/-- A parser reads the phrases of `G` before what `F` allows to come next. On at most `bound` tokens it does so
for certain. -/
structure Reads (p : Parser α) (bound : Nat) (G : List Token.Kind → α → Prop)
    (F : Option Token.Kind → Prop) : Prop where
  sound : ∀ {tokens rest : List Token} {a : α}, Unsigned tokens → p tokens = .ok a rest →
    ∃ ks, kinds tokens = ks ++ kinds rest ∧ G ks a
  complete : ∀ {tokens rest : List Token} {a : α}, (tokens ++ rest).length ≤ bound →
    G (kinds tokens) a → F (nextKind rest) → p (tokens ++ rest) = .ok a rest

/-- Anything may come next. -/
abbrev anything : Option Token.Kind → Prop :=
  fun _ => True

variable {n m : Nat} {G G' : List Token.Kind → α → Prop} {F F' : Option Token.Kind → Prop}

namespace Reads

/-- Phrases may be described in other words. -/
theorem congr {p : Parser α} (h : p.Reads n G F) (same : ∀ ks a, G ks a ↔ G' ks a) : p.Reads n G' F where
  sound unsigned run := by
    obtain ⟨ks, split, phrase⟩ := h.sound unsigned run
    exact ⟨ks, split, (same ks _).1 phrase⟩
  complete room phrase next := h.complete room ((same _ _).2 phrase) next

/-- A parser that is certain on more tokens is so on fewer, and may be told less of what comes next. -/
theorem mono {p : Parser α} (h : p.Reads n G F) (le : m ≤ n) (allowed : ∀ next, F' next → F next) :
    p.Reads m G F' where
  sound := h.sound
  complete room phrase next := h.complete (Nat.le_trans room le) phrase (allowed _ next)

/-- A parser that does not look at what comes next may be used anywhere. -/
theorem always {p : Parser α} (h : p.Reads n G anything) : p.Reads n G F :=
  h.mono (Nat.le_refl n) fun _ _ => trivial

/-- One phrase after another. The first must be able to end where the second begins, and it may use up some of
the tokens that the second can count on. -/
theorem bind {p : Parser α} {q : α → Parser β} {H : α → List Token.Kind → β → Prop} (first : p.Reads n G F')
    (second : ∀ a, (q a).Reads m (H a) F)
    (ends : ∀ {a ks b next}, H a ks b → F next → F' (ks.head?.or next))
    (room : ∀ {ks a}, G ks a → n ≤ ks.length + m) :
    (p >>= q).Reads n (fun ks b => ∃ ks₁ a ks₂, ks = ks₁ ++ ks₂ ∧ G ks₁ a ∧ H a ks₂ b) F where
  sound unsigned run := by
    obtain ⟨a, between, hp, hq⟩ := bind_eq_ok.1 run
    obtain ⟨ks₁, split₁, phrase₁⟩ := first.sound unsigned hp
    obtain ⟨ks₂, split₂, phrase₂⟩ := (second a).sound (unsigned.rest split₁) hq
    exact ⟨ks₁ ++ ks₂, by rw [split₁, split₂, List.append_assoc], ks₁, a, ks₂, rfl, phrase₁, phrase₂⟩
  complete := by
    rintro tokens rest b fits ⟨ks₁, a, ks₂, split, phrase₁, phrase₂⟩ next
    obtain ⟨tokens₁, tokens₂, rfl, rfl, rfl⟩ := kinds_eq_append split
    have enough := room phrase₁
    rw [List.append_assoc] at fits ⊢
    have next₁ : F' (nextKind (tokens₂ ++ rest)) := by
      rw [nextKind_append]
      exact ends phrase₂ next
    rw [bind_of_ok (first.complete fits phrase₁ next₁)]
    refine (second a).complete ?_ phrase₂ next
    simp only [List.length_append, kinds, List.length_map] at fits enough ⊢
    omega

/-- One phrase after another. -/
theorem andThen {p : Parser α} {q : α → Parser β} {H : α → List Token.Kind → β → Prop} (first : p.Reads n G F')
    (second : ∀ a, (q a).Reads n (H a) F)
    (ends : ∀ {a ks b next}, H a ks b → F next → F' (ks.head?.or next)) :
    (p >>= q).Reads n (fun ks b => ∃ ks₁ a ks₂, ks = ks₁ ++ ks₂ ∧ G ks₁ a ∧ H a ks₂ b) F :=
  first.bind second ends fun _ => Nat.le_add_left _ _

/-- A phrase whose tree goes into another. -/
theorem map {p : Parser α} (h : p.Reads n G F) (f : α → β) :
    (p >>= fun a => pure (f a)).Reads n (fun ks b => ∃ a, G ks a ∧ f a = b) F where
  sound unsigned run := by
    obtain ⟨a, between, hp, hq⟩ := bind_eq_ok.1 run
    obtain ⟨rfl, rfl⟩ := EStateM.Result.ok.inj hq
    obtain ⟨ks, split, phrase⟩ := h.sound unsigned hp
    exact ⟨ks, split, a, phrase, rfl⟩
  complete := by
    rintro tokens rest _ fits ⟨a, phrase, rfl⟩ next
    rw [bind_of_ok (h.complete fits phrase next)]
    rfl

/-- A parser that keeps some of the trees and rejects the others. -/
theorem keep {p : Parser α} {q : α → Parser α} (h : p.Reads n G F)
    (only : ∀ {ks a tokens b rest}, G ks a → q a tokens = .ok b rest → b = a ∧ rest = tokens ∧ G' ks a)
    (kept : ∀ {ks a}, G' ks a → G ks a ∧ ∀ tokens, q a tokens = .ok a tokens) : (p >>= q).Reads n G' F where
  sound unsigned run := by
    obtain ⟨a, between, hp, hq⟩ := bind_eq_ok.1 run
    obtain ⟨ks, split, phrase⟩ := h.sound unsigned hp
    obtain ⟨rfl, rfl, phrase'⟩ := only phrase hq
    exact ⟨ks, split, phrase'⟩
  complete fits phrase next := by
    obtain ⟨phrase', same⟩ := kept phrase
    rw [bind_of_ok (h.complete fits phrase' next), same]

end Reads

/-- Failing gives no tree. -/
theorem fail_ne_ok {expected : Expectation} {tokens rest : List Token} {a : α} :
    (fail expected : Parser α) tokens ≠ .ok a rest := by
  cases tokens <;> exact nofun

/-- To want only the tree of what is read is not to look at what is left. -/
theorem value_eq_ok {p : Parser α} {tokens : List Token} {a : α} :
    p.value tokens = .ok a ↔ ∃ rest, p tokens = .ok a rest := by
  unfold value
  cases p tokens with
  | ok b rest => simp
  | error e rest => simp

/-- To give a tree without reading is to read the empty phrase. -/
theorem reads_pure (a : α) : (pure a : Parser α).Reads n (fun ks b => ks = [] ∧ a = b) F where
  sound _ run := by
    obtain ⟨rfl, rfl⟩ := EStateM.Result.ok.inj run
    exact ⟨[], rfl, rfl, rfl⟩
  complete := by
    rintro tokens rest _ - ⟨none, rfl⟩ -
    rw [kinds_eq_nil none]
    rfl

/-- Without any tokens there is nothing to read. -/
theorem reads_fail {expected : Expectation} (nonempty : ∀ a, ¬ G [] a) : (fail expected : Parser α).Reads 0 G F where
  sound _ run := absurd run fail_ne_ok
  complete := by
    intro tokens rest a fits phrase _
    obtain ⟨rfl, -⟩ := List.append_eq_nil_iff.1 (List.length_eq_zero_iff.1 (Nat.le_zero.1 fits))
    exact absurd phrase (nonempty a)

/-! ## Tokens -/

theorem accept_cons {k : Token.Kind} {token : Token} {tokens : List Token} (kind : token.kind = k) :
    accept k (token :: tokens) = .ok true tokens :=
  if_pos kind

/-- A token of another kind is left where it is. -/
theorem accept_of_ne {k : Token.Kind} {tokens : List Token} (other : nextKind tokens ≠ some k) :
    accept k tokens = .ok false tokens := by
  cases tokens with
  | nil => rfl
  | cons token tokens => exact if_neg fun same => other (congrArg some same)

theorem skip_cons_eq_ok {token : Token} {tokens rest : List Token} {u : Unit}
    (h : skip (token :: tokens) = .ok u rest) : rest = tokens :=
  (EStateM.Result.ok.inj h).2.symm

/-- Accepting never fails: either a token of the kind was there and has been taken, or none was and nothing has. -/
theorem accept_eq_ok {k : Token.Kind} {tokens rest : List Token} {found : Bool}
    (h : accept k tokens = .ok found rest) :
    (found = true ∧ ∃ token, tokens = token :: rest ∧ token.kind = k) ∨
      (found = false ∧ tokens = rest ∧ nextKind tokens ≠ some k) := by
  by_cases here : nextKind tokens = some k
  · obtain ⟨token, tokens, rfl, kind⟩ := nextKind_eq_some here
    rw [accept_cons kind] at h
    obtain ⟨rfl, rfl⟩ := EStateM.Result.ok.inj h
    exact .inl ⟨rfl, token, rfl, kind⟩
  · rw [accept_of_ne here] at h
    obtain ⟨rfl, rfl⟩ := EStateM.Result.ok.inj h
    exact .inr ⟨rfl, rfl, here⟩

/-- Taking a token of a kind, or failing. -/
theorem accept_or_fail_eq_ok {k : Token.Kind} {expected : Expectation} {tokens rest : List Token} {u : Unit} :
    (accept k >>= fun found => if found then pure () else fail expected : Parser Unit) tokens = .ok u rest ↔
      ∃ token, tokens = token :: rest ∧ token.kind = k := by
  constructor
  · intro run
    obtain ⟨found, between, haccept, goesOn⟩ := bind_eq_ok.1 run
    rcases accept_eq_ok haccept with ⟨rfl, taken⟩ | ⟨rfl, -, -⟩
    · obtain ⟨-, rfl⟩ := EStateM.Result.ok.inj goesOn
      exact taken
    · exact absurd goesOn fail_ne_ok
  · rintro ⟨token, rfl, kind⟩
    rw [bind_of_ok (accept_cons kind)]
    rfl

/-- A mark is read exactly if it comes next. -/
theorem punct_eq_ok {mark : Punct} {tokens rest : List Token} {u : Unit} :
    punct mark tokens = .ok u rest ↔ ∃ token, tokens = token :: rest ∧ token.kind = .punct mark :=
  accept_or_fail_eq_ok

/-- The mark that comes next is taken. -/
theorem punct_cons {mark : Punct} {token : Token} {tokens : List Token} (kind : token.kind = .punct mark) :
    punct mark (token :: tokens) = .ok () tokens :=
  punct_eq_ok.2 ⟨token, rfl, kind⟩

/-- A keyword is read exactly if it comes next. -/
theorem keyword_eq_ok {word : Keyword} {tokens rest : List Token} {u : Unit} :
    keyword word tokens = .ok u rest ↔ ∃ token, tokens = token :: rest ∧ token.kind = .keyword word :=
  accept_or_fail_eq_ok

/-- A name is read exactly if an identifier comes next, and it is that of the identifier. -/
theorem identifier_eq_ok {name : String} {tokens rest : List Token} :
    identifier tokens = .ok name rest ↔ ∃ token, tokens = token :: rest ∧ token.kind = .identifier name := by
  cases tokens with
  | nil => exact ⟨nofun, nofun⟩
  | cons token tokens =>
    obtain ⟨kind, lexeme, position⟩ := token
    cases kind with
    | identifier spelling =>
      constructor
      · intro run
        obtain ⟨rfl, rfl⟩ := EStateM.Result.ok.inj run
        exact ⟨_, rfl, rfl⟩
      · rintro ⟨_, same, kind⟩
        cases same
        cases kind
        rfl
    | _ =>
      refine ⟨nofun, ?_⟩
      rintro ⟨_, same, kind⟩
      cases same
      cases kind

/-- A parser of a single token reads it whatever comes next. -/
theorem reads_single {p : Parser α} {k : α → Token.Kind}
    (single : ∀ {tokens a rest}, p tokens = .ok a rest ↔ ∃ token, tokens = token :: rest ∧ token.kind = k a) :
    p.Reads n (fun ks a => ks = [k a]) F where
  sound _ run := by
    obtain ⟨token, rfl, kind⟩ := single.1 run
    exact ⟨[k _], by rw [kinds_cons, kind, List.singleton_append], rfl⟩
  complete := by
    intro tokens rest a _ phrase _
    obtain ⟨token, rfl, kind⟩ := kinds_eq_singleton phrase
    exact single.2 ⟨token, rfl, kind⟩

/-- A single token and a phrase after it. -/
theorem reads_single_bind {p : Parser α} {k : α → Token.Kind} {q : α → Parser β}
    {H : α → List Token.Kind → β → Prop}
    (single : ∀ {tokens a rest}, p tokens = .ok a rest ↔ ∃ token, tokens = token :: rest ∧ token.kind = k a)
    (second : ∀ a, (q a).Reads m (H a) F) (room : n ≤ m + 1) :
    (p >>= q).Reads n (fun ks b => ∃ a ks', ks = k a :: ks' ∧ H a ks' b) F := by
  have first : p.Reads n (fun ks a => ks = [k a]) anything := reads_single single
  refine (first.bind second (fun _ _ => trivial) ?_).congr fun ks b => ?_
  · rintro _ a rfl
    simpa [Nat.add_comm] using room
  · constructor
    · rintro ⟨_, a, ks', rfl, rfl, phrase⟩
      exact ⟨a, ks', rfl, phrase⟩
    · rintro ⟨a, ks', rfl, phrase⟩
      exact ⟨[k a], a, ks', rfl, rfl, phrase⟩

/-- A mark and a phrase after it. The mark counts as one of the tokens, so the phrase may be certain on one less. -/
theorem reads_punct_bind {mark : Punct} {q : Parser α} (second : q.Reads m G F) (room : n ≤ m + 1) :
    (punct mark >>= fun _ => q).Reads n (fun ks a => ∃ ks', ks = .punct mark :: ks' ∧ G ks' a) F := by
  refine (reads_single_bind punct_eq_ok (fun _ => second) room).congr fun ks a => ?_
  exact ⟨fun ⟨_, phrase⟩ => phrase, fun phrase => ⟨(), phrase⟩⟩

/-- A keyword and a phrase after it. -/
theorem reads_keyword_bind {word : Keyword} {q : Parser α} (second : q.Reads m G F) (room : n ≤ m + 1) :
    (keyword word >>= fun _ => q).Reads n (fun ks a => ∃ ks', ks = .keyword word :: ks' ∧ G ks' a) F := by
  refine (reads_single_bind keyword_eq_ok (fun _ => second) room).congr fun ks a => ?_
  exact ⟨fun ⟨_, phrase⟩ => phrase, fun phrase => ⟨(), phrase⟩⟩

/-- A name and a phrase after it, which may depend on the name. -/
theorem reads_identifier_bind {q : String → Parser α} {H : String → List Token.Kind → α → Prop}
    (second : ∀ name, (q name).Reads m (H name) F) (room : n ≤ m + 1) :
    (identifier >>= q).Reads n (fun ks a => ∃ name ks', ks = .identifier name :: ks' ∧ H name ks' a) F :=
  reads_single_bind identifier_eq_ok second room

/-- A phrase and the mark after it. -/
theorem Reads.closed {p : Parser α} {q : α → Parser β} {mark : Punct} {H : α → List Token.Kind → β → Prop}
    (first : p.Reads n G F') (ends : F' (some (.punct mark))) (second : ∀ a, (q a).Reads n (H a) F) :
    (p >>= fun a => punct mark >>= fun _ => q a).Reads n
      (fun ks b => ∃ ks₁ a ks₂, ks = ks₁ ++ .punct mark :: ks₂ ∧ G ks₁ a ∧ H a ks₂ b) F := by
  refine (first.andThen (fun a => reads_punct_bind (second a) (Nat.le_succ n)) ?_).congr fun ks b => ?_
  · rintro a _ b next ⟨ks', rfl, -⟩ -
    exact ends
  · constructor
    · rintro ⟨ks₁, a, _, rfl, phrase, ks₂, rfl, phrase'⟩
      exact ⟨ks₁, a, ks₂, rfl, phrase, phrase'⟩
    · rintro ⟨ks₁, a, ks₂, rfl, phrase, phrase'⟩
      exact ⟨ks₁, a, _, rfl, phrase, ks₂, rfl, phrase'⟩

/-! ## Choices -/

/-- A token decides between two kinds of phrases. -/
theorem reads_accept {k : Token.Kind} {p q : Parser α} (taken : p.Reads m G F) (other : q.Reads n G' F)
    (apart : ∀ {ks a next}, G' ks a → F next → ks.head?.or next ≠ some k) (room : n ≤ m + 1) :
    (accept k >>= fun found => if found then p else q).Reads n
      (fun ks a => (∃ ks', ks = k :: ks' ∧ G ks' a) ∨ G' ks a) F where
  sound := by
    intro tokens rest a unsigned run
    obtain ⟨found, between, haccept, goesOn⟩ := bind_eq_ok.1 run
    rcases accept_eq_ok haccept with ⟨rfl, token, rfl, kind⟩ | ⟨rfl, rfl, -⟩
    · obtain ⟨ks, split, phrase⟩ := taken.sound unsigned.tail goesOn
      exact ⟨k :: ks, by rw [kinds_cons, split, kind, List.cons_append], .inl ⟨ks, rfl, phrase⟩⟩
    · obtain ⟨ks, split, phrase⟩ := other.sound unsigned goesOn
      exact ⟨ks, split, .inr phrase⟩
  complete := by
    rintro tokens rest a fits (⟨ks, split, phrase⟩ | phrase) next
    · obtain ⟨token, tokens', rfl, kind, rfl⟩ := kinds_eq_cons split
      rw [List.cons_append, bind_of_ok (accept_cons kind)]
      refine taken.complete ?_ phrase next
      simp only [List.cons_append, List.length_cons] at fits
      omega
    · have missing : nextKind (tokens ++ rest) ≠ some k := by
        rw [nextKind_append]
        exact apart phrase next
      rw [bind_of_ok (accept_of_ne missing)]
      exact other.complete fits phrase next

/-- A token decides between two kinds of phrases, and is read with the phrase. -/
theorem reads_peek (k : Token.Kind) {p q r : Parser α} (first : p.Reads n G F) (second : q.Reads n G' F)
    (here : ∀ {tokens}, nextKind tokens = some k → r tokens = p tokens)
    (there : ∀ {tokens}, nextKind tokens ≠ some k → r tokens = q tokens)
    (starts : ∀ {ks a}, G ks a → ks.head? = some k)
    (apart : ∀ {ks a next}, G' ks a → F next → ks.head?.or next ≠ some k) :
    r.Reads n (fun ks a => G ks a ∨ G' ks a) F where
  sound := by
    intro tokens rest a unsigned run
    by_cases found : nextKind tokens = some k
    · rw [here found] at run
      obtain ⟨ks, split, phrase⟩ := first.sound unsigned run
      exact ⟨ks, split, .inl phrase⟩
    · rw [there found] at run
      obtain ⟨ks, split, phrase⟩ := second.sound unsigned run
      exact ⟨ks, split, .inr phrase⟩
  complete := by
    rintro tokens rest a fits (phrase | phrase) next
    · rw [here (by rw [nextKind_append, starts phrase]; rfl)]
      exact first.complete fits phrase next
    · rw [there (by rw [nextKind_append]; exact apart phrase next)]
      exact second.complete fits phrase next

/-- A parser reads the phrases that start with a token. -/
structure ReadsFrom (p : Parser α) (token : Token) (bound : Nat) (G : List Token.Kind → α → Prop)
    (F : Option Token.Kind → Prop) : Prop where
  sound : ∀ {tokens rest : List Token} {a : α}, Unsigned (token :: tokens) → p (token :: tokens) = .ok a rest →
    ∃ ks, kinds (token :: tokens) = ks ++ kinds rest ∧ G ks a
  complete : ∀ {tokens rest : List Token} {a : α}, (token :: tokens ++ rest).length ≤ bound →
    G (kinds (token :: tokens)) a → F (nextKind rest) → p (token :: tokens ++ rest) = .ok a rest

/-- From a token on a parser may do what another does. -/
theorem Reads.starting {p q : Parser α} {token : Token} (h : q.Reads n G' F)
    (same : ∀ tokens, p (token :: tokens) = q (token :: tokens))
    (phrases : ∀ ks a, G (token.kind :: ks) a ↔ G' (token.kind :: ks) a) (nonempty : ∀ a, ¬ G' [] a) :
    p.ReadsFrom token n G F where
  sound := by
    intro tokens rest a unsigned run
    rw [same] at run
    obtain ⟨ks, split, phrase⟩ := h.sound unsigned run
    refine ⟨ks, split, ?_⟩
    cases ks with
    | nil => exact absurd phrase (nonempty a)
    | cons k ks =>
      obtain rfl : token.kind = k := (List.cons.inj split).1
      exact (phrases ks a).2 phrase
  complete fits phrase next := (same _).trans (h.complete fits ((phrases _ _).1 phrase) next)

/-- After a token a parser may do what another does. -/
theorem Reads.after {p q : Parser α} {token : Token}
    (h : q.Reads m (fun ks a => G (token.kind :: ks) a) F) (same : ∀ tokens, p (token :: tokens) = q tokens)
    (room : n ≤ m + 1) : p.ReadsFrom token n G F where
  sound := by
    intro tokens rest a unsigned run
    rw [same] at run
    obtain ⟨ks, split, phrase⟩ := h.sound unsigned.tail run
    exact ⟨token.kind :: ks, by rw [kinds_cons, split, List.cons_append], phrase⟩
  complete := by
    intro tokens rest a fits phrase next
    rw [List.cons_append, same]
    refine h.complete ?_ phrase next
    rw [List.cons_append, List.length_cons] at fits
    omega

/-- The first token decides what is read. -/
theorem reads_of_readsFrom {p : Parser α} (each : ∀ token, p.ReadsFrom token n G F)
    (empty : ∀ {a rest}, p [] ≠ .ok a rest) (nonempty : ∀ a, ¬ G [] a) : p.Reads n G F where
  sound := by
    intro tokens rest a unsigned run
    cases tokens with
    | nil => exact absurd run empty
    | cons token tokens => exact (each token).sound unsigned run
  complete := by
    intro tokens rest a fits phrase next
    cases tokens with
    | nil => exact absurd phrase (nonempty a)
    | cons token tokens => exact (each token).complete fits phrase next

/-! ## Lists -/

/-- A reader of lists that is told how many tokens there are. -/
theorem reads_bounded {r : Nat → Parser α} (h : ∀ n, (r n).Reads n G F) :
    Reads (fun tokens => r tokens.length tokens) n G F where
  sound unsigned run := (h _).sound unsigned run
  complete _ phrase next := (h _).complete (Nat.le_refl _) phrase next

/-- A list has at least one phrase, and so at least one token. -/
theorem separated_ne_nil {ks : List Token.Kind} {as : List α} (nonempty : ∀ a, ¬ G [] a)
    (h : Separated G ks as) : ks ≠ [] := by
  cases h with
  | one item =>
    rintro rfl
    exact nonempty _ item
  | more => simp

/-- Phrases with commas between them. -/
theorem reads_separated {p : Parser α} {r : Nat → Parser (List α)}
    (last : r 0 = p >>= fun a => pure [a])
    (step : ∀ n, r (n + 1) = p >>= fun a => accept (.punct .comma) >>= fun found =>
      if found then r n >>= fun as => pure (a :: as) else pure [a])
    (item : ∀ n, p.Reads n G fun next => F next ∨ next = some (.punct .comma))
    (nonempty : ∀ a, ¬ G [] a) (ends : ¬ F (some (.punct .comma))) (n : Nat) :
    (r n).Reads n (Separated G) F := by
  induction n with
  | zero =>
    rw [last]
    refine ⟨fun unsigned run => ?_, fun fits phrase _ => ?_⟩
    · obtain ⟨ks, split, a, phrase, rfl⟩ := ((item 0).map fun a => [a]).sound unsigned run
      exact ⟨ks, split, .one phrase⟩
    · obtain ⟨rfl, -⟩ := List.append_eq_nil_iff.1 (List.length_eq_zero_iff.1 (Nat.le_zero.1 fits))
      exact absurd rfl (separated_ne_nil nonempty phrase)
  | succ n ih =>
    rw [step]
    refine ((item (n + 1)).andThen (fun a => reads_accept (ih.map (a :: ·)) (reads_pure [a]) ?_ (Nat.le_refl _))
      ?_).congr fun ks as => ?_
    · rintro _ _ next ⟨rfl, -⟩ allowed rfl
      exact ends allowed
    · rintro a ks as next (⟨ks', rfl, -⟩ | ⟨rfl, -⟩) allowed
      · exact .inr rfl
      · exact .inl allowed
    · constructor
      · rintro ⟨ks₁, a, _, rfl, first, ⟨ks', rfl, as', others, rfl⟩ | ⟨rfl, rfl⟩⟩
        · exact .more first others
        · rw [List.append_nil]
          exact .one first
      · intro phrase
        cases phrase with
        | one first => exact ⟨ks, _, [], (List.append_nil ks).symm, first, .inr ⟨rfl, rfl⟩⟩
        | more first others => exact ⟨_, _, _, rfl, first, .inl ⟨_, rfl, _, others, rfl⟩⟩

end Parser

end MiniC
