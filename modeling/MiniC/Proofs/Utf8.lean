import MiniC.Text.Utf8

/-!
# Reading UTF-8 back

The bytes of characters are read back as these characters, without a replacement (`decodeLossy_flatMap`). One
law for each length of a character (`decodeLossy_one` to `decodeLossy_four`) says which bytes are taken for a
character; the bytes that a character is written as are within these bounds. A zero byte stands for U+0000
and for nothing else, so a string that is read up to its first zero byte is the string up to its first U+0000
(`decodeLossy_takeWhile_utf8`).
-/

namespace MiniC.Text

/-! ## Leading bytes -/

/-- The table of leading bytes, in numbers. -/
theorem continuation?_eq (a : UInt8) :
    continuation? a =
      if 0xC2 ≤ a.toNat ∧ a.toNat ≤ 0xDF then some (1, 0x80, 0xBF)
      else if a.toNat = 0xE0 then some (2, 0xA0, 0xBF)
      else if a.toNat = 0xED then some (2, 0x80, 0x9F)
      else if 0xE1 ≤ a.toNat ∧ a.toNat ≤ 0xEF then some (2, 0x80, 0xBF)
      else if a.toNat = 0xF0 then some (3, 0x90, 0xBF)
      else if 0xF1 ≤ a.toNat ∧ a.toNat ≤ 0xF3 then some (3, 0x80, 0xBF)
      else if a.toNat = 0xF4 then some (3, 0x80, 0x8F)
      else none := by
  simp only [continuation?, UInt8.le_iff_toNat_le, beq_iff_eq, ← UInt8.toNat_inj, Bool.and_eq_true,
    decide_eq_true_eq, UInt8.reduceToNat]

/-- The leading bytes of two. The first two of them would write ASCII in a longer way and are left out. -/
theorem continuation?_two {a : UInt8} (lead : 0xC2 ≤ a.toNat ∧ a.toNat ≤ 0xDF) :
    continuation? a = some (1, 0x80, 0xBF) := by
  rw [continuation?_eq, if_pos lead]

/-- The leading bytes of three. The bounds on the second byte leave out what is written in fewer bytes and surrogates.
-/
theorem continuation?_three {a : UInt8} (lead : 0xE0 ≤ a.toNat ∧ a.toNat ≤ 0xEF) :
    continuation? a =
      some (2, if a.toNat = 0xE0 then 0xA0 else 0x80, if a.toNat = 0xED then 0x9F else 0xBF) := by
  rw [continuation?_eq, if_neg (by omega)]
  by_cases first : a.toNat = 0xE0
  · simp [first]
  · by_cases last : a.toNat = 0xED
    · simp [last]
    · rw [if_neg first, if_neg last, if_pos (by omega), if_neg first, if_neg last]

/-- The leading bytes of four. The bounds on the second byte leave out what is written in fewer bytes and what is
above U+10FFFF. -/
theorem continuation?_four {a : UInt8} (lead : 0xF0 ≤ a.toNat ∧ a.toNat ≤ 0xF4) :
    continuation? a =
      some (3, if a.toNat = 0xF0 then 0x90 else 0x80, if a.toNat = 0xF4 then 0x8F else 0xBF) := by
  rw [continuation?_eq, if_neg (by omega), if_neg (by omega), if_neg (by omega), if_neg (by omega)]
  by_cases first : a.toNat = 0xF0
  · simp [first]
  · by_cases last : a.toNat = 0xF4
    · simp [last]
    · rw [if_neg first, if_pos (by omega), if_neg first, if_neg last]

/-! ## Characters of one to four bytes -/

theorem not_ascii {a : UInt8} (h : 0x80 ≤ a.toNat) : ¬a < 0x80 :=
  fun low => Nat.not_lt.2 h (UInt8.lt_iff_toNat_lt.1 low)

/-- A byte below 0x80 is a character. -/
theorem decodeLossy_one {a : UInt8} (lead : a.toNat < 0x80) (rest : List UInt8) :
    decodeLossy (a :: rest) = Char.ofNat a.toNat :: decodeLossy rest := by
  have ascii : a < 0x80 := UInt8.lt_iff_toNat_lt.2 lead
  conv => lhs; unfold decodeLossy
  rw [if_pos ascii]

/-- A leading byte and one more, six bits of which count. -/
theorem decodeLossy_two {a b : UInt8} (lead : 0xC2 ≤ a.toNat ∧ a.toNat ≤ 0xDF) (second : isTail b)
    (rest : List UInt8) :
    decodeLossy (a :: b :: rest) = Char.ofNat (a.toNat % 32 * 64 + tailBits b) :: decodeLossy rest := by
  conv => lhs; unfold decodeLossy
  rw [if_neg (not_ascii (by omega)), continuation?_two lead]
  exact if_pos second

/-- A leading byte and two more; the second one has bounds of its own. -/
theorem decodeLossy_three {a b c : UInt8} (lead : 0xE0 ≤ a.toNat ∧ a.toNat ≤ 0xEF)
    (second : (if a.toNat = 0xE0 then 0xA0 else 0x80) ≤ b.toNat ∧
      b.toNat ≤ if a.toNat = 0xED then 0x9F else 0xBF)
    (third : isTail c) (rest : List UInt8) :
    decodeLossy (a :: b :: c :: rest) =
      Char.ofNat ((a.toNat % 16 * 64 + tailBits b) * 64 + tailBits c) :: decodeLossy rest := by
  conv => lhs; unfold decodeLossy
  rw [if_neg (not_ascii (by omega)), continuation?_three lead]
  refine (if_pos ?_).trans (if_pos third)
  simpa only [UInt8.le_iff_toNat_le, apply_ite UInt8.toNat, UInt8.reduceToNat, Bool.and_eq_true,
    decide_eq_true_eq] using second

/-- A leading byte and three more; the second one has bounds of its own. -/
theorem decodeLossy_four {a b c d : UInt8} (lead : 0xF0 ≤ a.toNat ∧ a.toNat ≤ 0xF4)
    (second : (if a.toNat = 0xF0 then 0x90 else 0x80) ≤ b.toNat ∧
      b.toNat ≤ if a.toNat = 0xF4 then 0x8F else 0xBF)
    (third : isTail c) (fourth : isTail d) (rest : List UInt8) :
    decodeLossy (a :: b :: c :: d :: rest) =
      Char.ofNat (((a.toNat % 8 * 64 + tailBits b) * 64 + tailBits c) * 64 + tailBits d) ::
        decodeLossy rest := by
  conv => lhs; unfold decodeLossy
  rw [if_neg (not_ascii (by omega)), continuation?_four lead]
  refine (if_pos ?_).trans ((if_pos third).trans (if_pos fourth))
  simpa only [UInt8.le_iff_toNat_le, apply_ite UInt8.toNat, UInt8.reduceToNat, Bool.and_eq_true,
    decide_eq_true_eq] using second

/-! ## Written characters -/

/-- Six bits with the mark of a later byte are a later byte. -/
theorem isTail_ofNat (n : Nat) : isTail (UInt8.ofNat (n % 64 + 128)) := by
  have value := UInt8.toNat_ofNat_of_lt' (show n % 64 + 128 < 256 by omega)
  simp only [isTail, UInt8.le_iff_toNat_le, value, UInt8.reduceToNat, Bool.and_eq_true, decide_eq_true_eq]
  omega

/-- A later byte without its mark is the six bits that it was made of. -/
theorem tailBits_ofNat (n : Nat) : tailBits (UInt8.ofNat (n % 64 + 128)) = n % 64 := by
  rw [tailBits, UInt8.toNat_ofNat_of_lt' (show _ < 256 by omega)]
  omega

/-- A character is read back from its bytes. -/
theorem decodeLossy_utf8EncodeChar (c : Char) (rest : List UInt8) :
    decodeLossy (String.utf8EncodeChar c ++ rest) = c :: decodeLossy rest := by
  have valid : c.val.toNat < 0xD800 ∨ 0xDFFF < c.val.toNat ∧ c.val.toNat < 0x110000 := c.valid
  have same : Char.ofNat c.val.toNat = c := Char.ofNat_toNat c
  rw [String.utf8EncodeChar]
  generalize c.val.toNat = v at valid same ⊢
  by_cases one : v ≤ 0x7F
  · have lead := UInt8.toNat_ofNat_of_lt' (show v < 256 by omega)
    rw [if_pos one, List.singleton_append, decodeLossy_one (by omega), lead, same]
  by_cases two : v ≤ 0x7FF
  · have lead := UInt8.toNat_ofNat_of_lt' (show v / 64 % 32 + 192 < 256 by omega)
    rw [if_neg one, if_pos two, List.cons_append, List.singleton_append,
      decodeLossy_two (by omega) (isTail_ofNat v), lead, tailBits_ofNat,
      show (v / 64 % 32 + 192) % 32 * 64 + v % 64 = v by omega, same]
  by_cases three : v ≤ 0xFFFF
  · have lead := UInt8.toNat_ofNat_of_lt' (show v / 4096 % 16 + 224 < 256 by omega)
    have second := UInt8.toNat_ofNat_of_lt' (show v / 64 % 64 + 128 < 256 by omega)
    rw [if_neg one, if_neg two, if_pos three, List.cons_append, List.cons_append, List.singleton_append,
      decodeLossy_three (by omega) ?_ (isTail_ofNat v), lead, tailBits_ofNat, tailBits_ofNat,
      show ((v / 4096 % 16 + 224) % 16 * 64 + v / 64 % 64) * 64 + v % 64 = v by omega, same]
    -- Shorter forms are left out below, and surrogates above.
    rw [lead, second]
    constructor
    · split <;> omega
    · split <;> omega
  · have lead := UInt8.toNat_ofNat_of_lt' (show v / 262144 % 8 + 240 < 256 by omega)
    have second := UInt8.toNat_ofNat_of_lt' (show v / 4096 % 64 + 128 < 256 by omega)
    rw [if_neg one, if_neg two, if_neg three, List.cons_append, List.cons_append, List.cons_append,
      List.singleton_append, decodeLossy_four (by omega) ?_ (isTail_ofNat _) (isTail_ofNat v), lead,
      tailBits_ofNat, tailBits_ofNat, tailBits_ofNat,
      show (((v / 262144 % 8 + 240) % 8 * 64 + v / 4096 % 64) * 64 + v / 64 % 64) * 64 + v % 64 = v by omega,
      same]
    -- Shorter forms are left out below, and what lies past the last code point above.
    rw [lead, second]
    constructor
    · split <;> omega
    · split <;> omega

/-- Characters are read back from their bytes, one after another. -/
theorem decodeLossy_flatMap (cs : List Char) : decodeLossy (cs.flatMap String.utf8EncodeChar) = cs := by
  induction cs with
  | nil => rfl
  | cons c cs ih => rw [List.flatMap_cons, decodeLossy_utf8EncodeChar, ih]

/-! ## Zero bytes -/

/-- A string up to its first U+0000. -/
def beforeNul (s : String) : String :=
  String.ofList (s.toList.takeWhile (· ≠ '\x00'))

/-- A byte of a character is the character itself, or no ASCII. -/
theorem toNat_of_mem_utf8EncodeChar {c : Char} {b : UInt8} (mem : b ∈ String.utf8EncodeChar c) :
    b.toNat = c.val.toNat ∨ 0x80 ≤ b.toNat := by
  have high : ∀ n, 0x80 ≤ n → n < 256 → 0x80 ≤ (UInt8.ofNat n).toNat := by
    intro n low small
    rwa [UInt8.toNat_ofNat_of_lt' small]
  rw [String.utf8EncodeChar] at mem
  generalize c.val.toNat = v at mem ⊢
  by_cases one : v ≤ 0x7F
  · rw [if_pos one, List.mem_singleton] at mem
    exact .inl (mem ▸ UInt8.toNat_ofNat_of_lt' (show _ < 256 by omega))
  · rw [if_neg one] at mem
    refine .inr ?_
    split at mem
    · simp only [List.mem_cons, List.not_mem_nil, or_false] at mem
      rcases mem with rfl | rfl
      all_goals exact high _ (by omega) (by omega)
    · split at mem
      all_goals simp only [List.mem_cons, List.not_mem_nil, or_false] at mem
      · rcases mem with rfl | rfl | rfl
        all_goals exact high _ (by omega) (by omega)
      · rcases mem with rfl | rfl | rfl | rfl
        all_goals exact high _ (by omega) (by omega)

/-- A zero byte is written for U+0000 only. -/
theorem zero_notMem_utf8EncodeChar {c : Char} (h : c ≠ '\x00') : 0 ∉ String.utf8EncodeChar c := by
  intro mem
  rcases toNat_of_mem_utf8EncodeChar mem with same | high
  · refine h ?_
    rw [← Char.ofNat_toNat c, show c.toNat = 0 from same.symm]
  · exact absurd high (by decide)

/-- The bytes before the first zero byte are those of the characters before the first U+0000. -/
theorem takeWhile_flatMap (cs : List Char) :
    (cs.flatMap String.utf8EncodeChar).takeWhile (· ≠ 0) =
      (cs.takeWhile (· ≠ '\x00')).flatMap String.utf8EncodeChar := by
  induction cs with
  | nil => rfl
  | cons c cs ih =>
    rw [List.flatMap_cons]
    by_cases zero : c = '\x00'
    · subst zero
      rfl
    · have kept : ∀ b ∈ String.utf8EncodeChar c, decide (b ≠ 0) = true := by
        intro b mem
        rw [decide_eq_true_eq]
        rintro rfl
        exact zero_notMem_utf8EncodeChar zero mem
      rw [List.takeWhile_append_of_pos kept, ih, List.takeWhile_cons_of_pos (by simpa using zero),
        List.flatMap_cons]

/-- The bytes of a string before the first zero byte are read as the string up to its first U+0000. -/
theorem decodeLossy_takeWhile_utf8 (s : String) :
    String.ofList (decodeLossy ((utf8 s).takeWhile (· ≠ 0))) = beforeNul s := by
  rw [utf8, takeWhile_flatMap, decodeLossy_flatMap, beforeNul]

end MiniC.Text
