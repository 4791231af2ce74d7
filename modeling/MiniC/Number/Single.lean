import MiniC.Number.Integer

/-!
# Single-precision numbers

A float literal is a binary number of 32 bits: a sign, eight bits of exponent and 23 bits of fraction.
The language never computes with such numbers, it only reads and shows them, so a value is its bit
pattern and both directions work in exact arithmetic on natural numbers.

Reading rounds a decimal fraction once, to the nearest value and to the even one of two that are equally
near. Showing takes the fewest decimal digits that read back as the same value, and of several such
decimals the nearest; of two equally near the larger.
-/

namespace MiniC.Number

/-- A binary floating point number of 32 bits, as its bit pattern. -/
structure Single where
  bits : UInt32
  deriving DecidableEq, Repr, Inhabited

namespace Single

/-- The bit pattern of positive infinity: the largest exponent and no fraction. -/
def infinityBits : Nat := 0x7F800000

/-- The number of values of the fraction field, which has 23 bits. -/
def fractionCount : Nat := 0x800000

/-- The nearest integer to a quotient, the even one of two that are equally near. -/
def roundQuotient (num den : Nat) : Nat :=
  let quotient := num / den
  let twice := 2 * (num % den)
  if twice < den then quotient
  else if twice > den then quotient + 1
  else if quotient % 2 = 0 then quotient
  else quotient + 1

/-- The exponent of the greatest power of two that is at most `num / den`, for positive `num` and
`den`. -/
def binaryExponent (num den : Nat) : Int :=
  let estimate : Int := (Nat.log2 num : Int) - Nat.log2 den
  let reached :=
    if 0 ≤ estimate then den <<< estimate.toNat ≤ num else den ≤ num <<< (-estimate).toNat
  if reached then estimate else estimate - 1

/-- The single nearest to the fraction `num / den`.

The significand has 24 bits, except below the least normal exponent, where the unit stays at
`2 ^ (-149)`. Adding the rounded significand to the exponent field lets a carry out of 24 bits move the
value to the next exponent by itself, up to infinity. -/
def ofFraction (num den : Nat) : Single :=
  if num = 0 then ⟨0⟩
  else
    let unit : Int := max (binaryExponent num den - 23) (-149)
    let significand :=
      if 0 ≤ unit then roundQuotient num (den <<< unit.toNat)
      else roundQuotient (num <<< (-unit).toNat) den
    let field := (unit + 149).toNat * fractionCount + significand
    ⟨UInt32.ofNat (min field infinityBits)⟩

/-- The single that a decimal literal denotes: digits with at most one point among them, and at least
one digit. -/
def read (text : List Char) : Option Single :=
  let whole := text.takeWhile (· ≠ '.')
  let fraction := (text.dropWhile (· ≠ '.')).drop 1
  if whole.isEmpty && fraction.isEmpty then none
  else (readDigits (whole ++ fraction)).map fun n => ofFraction n (Nat.pow 10 fraction.length)

/-- Whether the sign bit is set. -/
def isNegative (x : Single) : Bool :=
  0x80000000 ≤ x.bits.toNat

/-- The exponent field. -/
def exponentField (x : Single) : Nat :=
  x.bits.toNat / fractionCount % 256

/-- The fraction field. -/
def fractionField (x : Single) : Nat :=
  x.bits.toNat % fractionCount

/-- The significand of a finite value, with the leading bit that a normal number leaves unwritten. -/
def significand (x : Single) : Nat :=
  if x.exponentField = 0 then x.fractionField else x.fractionField + fractionCount

/-- The power of two that the significand of a finite value counts. -/
def unitExponent (x : Single) : Int :=
  if x.exponentField = 0 then -149 else (x.exponentField : Int) - 150

/-- A positive decimal fraction: `digits * 10 ^ exponent`. -/
structure Scientific where
  digits : Nat
  exponent : Int
  deriving DecidableEq, Repr

/-- The exponent of the greatest power of ten that is at most `num / den`, for a positive quotient not
below `10 ^ (-46)`. -/
def decimalExponent (num den : Nat) : Int :=
  if den ≤ num then ((Nat.toDigits 10 (num / den)).length : Int) - 1
  else
    match (List.range 46).find? fun k => den ≤ num * Nat.pow 10 (k + 1) with
    | some k => -((k : Int) + 1)
    | none => -46

/-- The decimals with `count` digits that lie next to a value, kept if they read back as that value.

`value`, `low` and `high` are the value and the ends of the interval of numbers that round to it, all
three as multiples of `1 / den`; the ends belong to the interval if `closed`. The nearer neighbour wins
if both lie in the interval, and the upper one if neither is nearer. -/
def neighbour? (value low high den : Nat) (closed : Bool) (count : Nat) : Option Scientific :=
  let exponent := decimalExponent value den - count + 1
  let up := Nat.pow 10 exponent.toNat * den
  let down := Nat.pow 10 (-exponent).toNat
  let below := value * down / up
  let inside (n : Nat) : Bool :=
    let point := n * up
    if closed then low * down ≤ point && point ≤ high * down
    else low * down < point && point < high * down
  let above := below + 1
  let belowIsNearer := value * down - below * up < above * up - value * down
  if inside below && (belowIsNearer || !inside above) then some ⟨below, exponent⟩
  else if inside above then some ⟨above, exponent⟩
  else none

/-- A decimal without zeros at the end of its digits. At most `fuel` zeros are taken off. -/
def Scientific.strip : Nat → Scientific → Scientific
  | 0, d => d
  | fuel + 1, d =>
    if d.digits ≠ 0 ∧ d.digits % 10 = 0 then strip fuel ⟨d.digits / 10, d.exponent + 1⟩ else d

/-- The shortest decimal that reads back as a positive finite value. Nine digits always suffice.

The numbers that round to the value reach half a unit to either side; below a power of two the units are
half as large, so the interval reaches down only a quarter. -/
def shortest (x : Single) : Scientific :=
  let m := x.significand
  let exponent := x.unitExponent - 2
  let num := 1 <<< exponent.toNat
  let den := 1 <<< (-exponent).toNat
  let down := if m = fractionCount ∧ 1 < x.exponentField then 1 else 2
  let neighbour := neighbour? (4 * m * num) ((4 * m - down) * num) ((4 * m + 2) * num) den
    (m % 2 = 0)
  match (List.range 9).findSome? fun k => neighbour (k + 1) with
  | some d => d.strip 9
  | none => ⟨0, 0⟩

/-- The digits of a decimal. -/
def Scientific.digitList (d : Scientific) : List Char :=
  Nat.toDigits 10 d.digits

/-- The exponent of a decimal whose point stands after the first digit. -/
def Scientific.leading (d : Scientific) : Int :=
  d.exponent + d.digitList.length - 1

/-- A decimal without exponent. At least `places` digits follow the point, and there is no point if
none does. -/
def Scientific.positional (d : Scientific) (places : Nat) : String :=
  let digits := d.digitList
  let point : Int := d.leading + 1
  let whole :=
    if point ≤ 0 then ['0']
    else digits.take point.toNat ++ List.replicate (point.toNat - digits.length) '0'
  let fraction :=
    if point ≤ 0 then List.replicate (-point).toNat '0' ++ digits else digits.drop point.toNat
  let fraction := fraction ++ List.replicate (places - fraction.length) '0'
  String.ofList (if fraction.isEmpty then whole else whole ++ '.' :: fraction)

/-- A decimal with an exponent, its point after the first digit. -/
def Scientific.withExponent (d : Scientific) : String :=
  let mantissa :=
    match d.digitList with
    | first :: second :: rest => first :: '.' :: second :: rest
    | digits => digits
  String.ofList mantissa ++ "e" ++ toString d.leading

/-- A value with its sign, where `finite` writes a positive finite one and `zero` is the text of zero. -/
def written (x : Single) (zero : String) (finite : Scientific → String) : String :=
  let sign := if x.isNegative then "-" else ""
  if x.exponentField = 255 then
    if x.fractionField = 0 then sign ++ "inf" else "NaN"
  else if x.significand = 0 then sign ++ zero
  else sign ++ finite x.shortest

/-- The plain text of a value: never an exponent, and a point only before a fraction. -/
def plain (x : Single) : String :=
  x.written "0" fun d => d.positional 0

/-- The literal text of a value: always a point or an exponent. An exponent is written for values below
`10 ^ (-4)` and from `10 ^ 16` on. -/
def literal (x : Single) : String :=
  x.written "0.0" fun d =>
    if d.leading < -4 ∨ 16 ≤ d.leading then d.withExponent else d.positional 1

end Single

end MiniC.Number
