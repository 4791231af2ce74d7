/-!
# UTF-8

Strings are stored as the bytes of UTF-8. Reading bytes back never fails: every byte sequence that
cannot be continued to a character, taken as long as possible, stands for one replacement character.
-/

namespace MiniC.Text

/-- The bytes of a string. -/
def utf8 (s : String) : List UInt8 :=
  s.toList.flatMap String.utf8EncodeChar

/-- The replacement character, shown for bytes that are no character. -/
def replacement : Char := '\ufffd'

/-- What may follow a byte that opens a character of several bytes: the number of further bytes, and
the least and the greatest value of the next one. The bounds leave out overlong forms, surrogates and
everything past the last code point. -/
def continuation? (lead : UInt8) : Option (Nat × UInt8 × UInt8) :=
  if 0xC2 ≤ lead && lead ≤ 0xDF then some (1, 0x80, 0xBF)
  else if lead == 0xE0 then some (2, 0xA0, 0xBF)
  else if lead == 0xED then some (2, 0x80, 0x9F)
  else if 0xE1 ≤ lead && lead ≤ 0xEF then some (2, 0x80, 0xBF)
  else if lead == 0xF0 then some (3, 0x90, 0xBF)
  else if 0xF1 ≤ lead && lead ≤ 0xF3 then some (3, 0x80, 0xBF)
  else if lead == 0xF4 then some (3, 0x80, 0x8F)
  else none

/-- Whether a byte can stand after the second place of a character. -/
def isTail (b : UInt8) : Bool :=
  0x80 ≤ b && b ≤ 0xBF

/-- The six bits that a byte after the first adds to a code point. -/
def tailBits (b : UInt8) : Nat :=
  b.toNat % 64

/-- The characters of a byte sequence, one replacement character for each part that is none. -/
def decodeLossy : List UInt8 → List Char
  | [] => []
  | a :: as =>
    if a < 0x80 then Char.ofNat a.toNat :: decodeLossy as
    else
      match continuation? a, as with
      | none, as => replacement :: decodeLossy as
      | some _, [] => [replacement]
      | some (count, low, high), b :: bs =>
        if low ≤ b && b ≤ high then
          match count, bs with
          | 1, bs => Char.ofNat (a.toNat % 32 * 64 + tailBits b) :: decodeLossy bs
          | _, [] => [replacement]
          | 2, c :: cs =>
            if isTail c then
              Char.ofNat ((a.toNat % 16 * 64 + tailBits b) * 64 + tailBits c) :: decodeLossy cs
            else replacement :: decodeLossy (c :: cs)
          | _, c :: cs =>
            if isTail c then
              match cs with
              | [] => [replacement]
              | d :: ds =>
                if isTail d then
                  Char.ofNat (((a.toNat % 8 * 64 + tailBits b) * 64 + tailBits c) * 64
                    + tailBits d) :: decodeLossy ds
                else replacement :: decodeLossy (d :: ds)
            else replacement :: decodeLossy (c :: cs)
        else replacement :: decodeLossy (b :: bs)

end MiniC.Text
