import MiniC.Number.Integer

/-!
# Numerals

What is written for a number reads back as that number, and holds nothing but digits and at most a sign.
-/

namespace MiniC.Number

theorem readNat_toDigits (n : Nat) : readNat (Nat.toDigits 10 n) = some n := by
  have digits : (Nat.toDigits 10 n).all Char.isDigit :=
    List.all_eq_true.2 fun c mem => Nat.isDigit_of_mem_toDigits (by decide) (by decide) mem
  have value : (Nat.toDigits 10 n).foldl
      (fun value digit => value * 10 + (digit.toNat - '0'.toNat)) 0 = n := by
    have back := Nat.ofDigitChars_ten_toDigits (n := n)
    rw [Nat.ofDigitChars_eq_foldl] at back
    simpa only [Nat.mul_comm 10] using back
  unfold readNat readDigits
  rw [if_neg (by simp [Nat.toDigits_ne_nil]), if_pos digits, value]

/-- The characters of a numeral: a sign if the number is negative, and its digits. -/
theorem toList_toString (n : Int) :
    (toString n).toList = (if n < 0 then ['-'] else []) ++ Nat.toDigits 10 n.natAbs := by
  rw [Int.toString_eq_repr, Int.repr_eq_if]
  by_cases negative : n < 0
  · rw [if_neg (by omega), if_pos negative, String.toList_append, Nat.repr_eq_ofList_toDigits,
      show (-n).toNat = n.natAbs by omega]
    simp
  · rw [if_pos (by omega), if_neg negative, Nat.repr_eq_ofList_toDigits,
      show n.toNat = n.natAbs by omega]
    simp

theorem toInt32?_toInt (n : Int32) : toInt32? n.toInt = some n := by
  unfold toInt32?
  rw [if_pos ⟨n.minValue_le_toInt, n.toInt_le⟩, Int32.ofInt_toInt]

/-- A text of digits is read without a sign. -/
theorem readInt32_of_digits {cs : List Char} (h : ∀ c ∈ cs, c.isDigit) :
    readInt32 cs = (readNat cs).bind fun n => toInt32? n := by
  unfold readInt32
  split
  · exact absurd (h '+' List.mem_cons_self) (by decide)
  · exact absurd (h '-' List.mem_cons_self) (by decide)
  · rfl

/-- An integer reads back. -/
theorem readInt32_writeInt32 (n : Int32) : readInt32 (writeInt32 n).toList = some n := by
  unfold writeInt32
  rw [toList_toString]
  by_cases negative : n.toInt < 0
  · rw [if_pos negative]
    show (readNat (Nat.toDigits 10 n.toInt.natAbs)).bind (fun k => toInt32? (-k)) = some n
    rw [readNat_toDigits, Option.bind_some, show -(n.toInt.natAbs : Int) = n.toInt by omega,
      toInt32?_toInt]
  · rw [if_neg negative, List.nil_append,
      readInt32_of_digits fun c => Nat.isDigit_of_mem_toDigits (by decide) (by decide), readNat_toDigits, Option.bind_some, show (n.toInt.natAbs : Int) = n.toInt by omega, toInt32?_toInt]

/-! ## Numbers without a sign -/

/-- What starts with no sign is read as a natural number. -/
theorem readInt32_cons {c : Char} {cs : List Char} (plus : c ≠ '+') (minus : c ≠ '-') :
    readInt32 (c :: cs) = (readNat (c :: cs)).bind fun n => toInt32? n := by
  unfold readInt32
  split
  · rename_i same
    exact absurd (List.cons.inj same).1 plus
  · rename_i same
    exact absurd (List.cons.inj same).1 minus
  · rfl

theorem toInt_of_toInt32? {n : Int} {value : Int32} (h : toInt32? n = some value) : value.toInt = n := by
  unfold toInt32? at h
  split at h
  · rename_i range
    cases h
    have low : Int32.minValue.toInt = -2 ^ 31 := by decide
    have high : Int32.maxValue.toInt = 2 ^ 31 - 1 := by decide
    exact Int32.toInt_ofInt_of_le (by omega) (by omega)
  · cases h

/-- A number that starts with a digit is not negative. -/
theorem readInt32_nonneg {c : Char} {cs : List Char} {value : Int32} (digit : c.isDigit)
    (h : readInt32 (c :: cs) = some value) : 0 ≤ value.toInt := by
  rw [readInt32_cons (by rintro rfl; cases digit) (by rintro rfl; cases digit)] at h
  obtain ⟨n, -, range⟩ := Option.bind_eq_some_iff.1 h
  rw [toInt_of_toInt32? range]
  exact Int.natCast_nonneg n

/-- What starts with neither a digit nor a sign is no number. -/
theorem readInt32_eq_none {c : Char} {cs : List Char} (plus : c ≠ '+') (minus : c ≠ '-')
    (other : c.isDigit = false) : readInt32 (c :: cs) = none := by
  simp [readInt32_cons plus minus, readNat, readDigits, other]

end MiniC.Number
