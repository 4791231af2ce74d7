import MiniC.Text.Blank

/-!
# Numbered names

A name that ends in an underscore and a number can be taken apart in one way only: the number has no
underscore in it. Names made from different numbers, or from different stems, are therefore different,
whatever underscores and digits the stems hold themselves.
-/

namespace MiniC

/-- A stem with a number after it. -/
def numbered (stem : String) (number : Nat) : String :=
  stem ++ "_" ++ toString number

theorem toDigits_injective {m n : Nat} (h : Nat.toDigits 10 m = Nat.toDigits 10 n) : m = n := by
  have value := congrArg (Nat.ofDigitChars 10 · 0) h
  simpa using value

/-- The last underscore parts a list of characters in one way. -/
theorem append_underscore_inj {front front' back back' : List Char} (h : '_' ∉ back)
    (h' : '_' ∉ back') (same : front ++ '_' :: back = front' ++ '_' :: back') :
    front = front' ∧ back = back' := by
  rcases List.append_eq_append_iff.1 same with ⟨mid, rfl, tail⟩ | ⟨mid, rfl, tail⟩
  · cases mid with
    | nil => simpa using tail
    | cons c mid =>
      obtain ⟨-, rfl⟩ := List.cons.inj tail
      simp at h
  · cases mid with
    | nil => simpa using tail.symm
    | cons c mid =>
      obtain ⟨-, rfl⟩ := List.cons.inj tail
      simp at h'

theorem toList_numbered (stem : String) (number : Nat) :
    (numbered stem number).toList = stem.toList ++ '_' :: Nat.toDigits 10 number := by
  simp [numbered, String.toList_append]

/-- Numbered names are equal only if their stems and their numbers are. -/
theorem numbered_inj {stem stem' : String} {m n : Nat} :
    numbered stem m = numbered stem' n ↔ stem = stem' ∧ m = n := by
  constructor
  · intro h
    have same := congrArg String.toList h
    rw [toList_numbered, toList_numbered] at same
    obtain ⟨front, back⟩ := append_underscore_inj Nat.underscore_not_in_toDigits
      Nat.underscore_not_in_toDigits same
    exact ⟨String.toList_inj.1 front, toDigits_injective back⟩
  · rintro ⟨rfl, rfl⟩
    rfl

/-! ## Blanks around names -/

theorem not_isBlank_of_isDigit {c : Char} (h : c.isDigit) : Text.isBlank c = false := by
  simp only [Char.isDigit, Bool.and_eq_true, decide_eq_true_eq] at h
  have low : 48 ≤ c.toNat := h.1
  have high : c.toNat ≤ 57 := h.2
  simp only [Text.isBlank, Bool.or_eq_false_iff, Bool.and_eq_false_iff, decide_eq_false_iff_not,
    beq_eq_false_iff_ne]
  omega

/-- Nothing is cut off a text that ends in something else than a blank. -/
theorem trimEnd_append_of_not_blank (front : List Char) {back : List Char} (nonempty : back ≠ [])
    (h : ∀ c ∈ back, Text.isBlank c = false) : Text.trimEnd (front ++ back) = front ++ back := by
  have keeps : ∀ back : List Char, back ≠ [] → (∀ c ∈ back, Text.isBlank c = false) →
      Text.trimEnd back = back := by
    intro back
    induction back with
    | nil => intro h; exact absurd rfl h
    | cons c cs ih =>
      intro _ solid
      cases cs with
      | nil => simp [Text.trimEnd, solid c (by simp)]
      | cons d ds =>
        rw [Text.trimEnd, ih (by simp) (fun c mem => solid c (List.mem_cons_of_mem _ mem))]
  induction front with
  | nil => exact keeps back nonempty h
  | cons c cs ih =>
    rw [List.cons_append, Text.trimEnd, ih]
    cases happ : cs ++ back with
    | nil => exact absurd (List.append_eq_nil_iff.1 happ).2 nonempty
    | cons d ds => rfl

/-- A numbered name whose stem starts with something else than a blank has no blanks around it. -/
theorem trim_numbered {stem : String} {c : Char} {cs : List Char} (start : stem.toList = c :: cs)
    (solid : Text.isBlank c = false) (number : Nat) :
    String.ofList (Text.trim (numbered stem number).toList) = numbered stem number := by
  have digits : ∀ d ∈ Nat.toDigits 10 number, Text.isBlank d = false := fun d mem =>
    not_isBlank_of_isDigit (Nat.isDigit_of_mem_toDigits (by omega) (by omega) mem)
  have kept := trimEnd_append_of_not_blank (c :: (cs ++ ['_'])) Nat.toDigits_ne_nil digits
  have list : (numbered stem number).toList = c :: (cs ++ ['_']) ++ Nat.toDigits 10 number := by
    rw [toList_numbered, start]
    simp
  have front : (c :: (cs ++ ['_']) ++ Nat.toDigits 10 number).dropWhile Text.isBlank =
      c :: (cs ++ ['_']) ++ Nat.toDigits 10 number := by
    simp [solid]
  rw [Text.trim, list, front, kept, ← list, String.ofList_toList]

end MiniC
