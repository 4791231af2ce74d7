/-!
# Integers in text

A 32-bit integer is written in decimal with an optional sign. Reading takes one sign of either kind,
then at least one decimal digit and nothing else, and refuses what does not fit in 32 bits.
-/

namespace MiniC.Number

/-- The value of a list of decimal digits, most significant first; `none` if it holds anything else. -/
def readDigits (digits : List Char) : Option Nat :=
  if digits.all Char.isDigit then
    some (digits.foldl (fun value digit => value * 10 + (digit.toNat - '0'.toNat)) 0)
  else none

/-- The value of a nonempty list of decimal digits. -/
def readNat (digits : List Char) : Option Nat :=
  if digits.isEmpty then none else readDigits digits

/-- A number as a 32-bit integer, if it is one. -/
def toInt32? (n : Int) : Option Int32 :=
  if Int32.minValue.toInt ≤ n ∧ n ≤ Int32.maxValue.toInt then some (Int32.ofInt n) else none

/-- The 32-bit integer that a text denotes. -/
def readInt32 : List Char → Option Int32
  | '+' :: digits => (readNat digits).bind fun n => toInt32? n
  | '-' :: digits => (readNat digits).bind fun n => toInt32? (-n)
  | digits => (readNat digits).bind fun n => toInt32? n

/-- The text of a 32-bit integer: a minus sign if it is negative, then its decimal digits. -/
def writeInt32 (n : Int32) : String :=
  toString n.toInt

end MiniC.Number
