import ConsoleLisp.Text

/-!
# Double precision numbers and exact arithmetic on them

* A finite number is a sign and a natural multiple of `2 ^ -1074`, the least positive number;
  `Number.scaled` is that multiple.
* `Number.nearest` rounds a quotient of naturals to the nearest number, ties to the even one. The
  encodings of the positive numbers are in the order of the numbers and without gaps, so the result
  is one sum: the binade times `2 ^ 52` plus the rounded significand, carries included.
* `Number.floor?` and `Number.ceil?` are the bounds that a number sets to a count.
-/

namespace ConsoleLisp

/-- The numbers of the language. -/
abbrev Number := Float

namespace Number

/-- Encoding of positive infinity; the finite magnitudes are the encodings below it. -/
def infinityBits : Nat := 2047 * Nat.pow 2 52

/-- The encoding of the absolute value. -/
def magnitude (n : Number) : Nat := n.toBits.toNat % Nat.pow 2 63

/-- The sign bit, which negative zero has too. -/
def isNegative (n : Number) : Bool := Nat.pow 2 63 ≤ n.toBits.toNat

/-- Neither infinite nor not a number. -/
def isFinite (n : Number) : Bool := magnitude n < infinityBits

def isNaN (n : Number) : Bool := infinityBits < magnitude n

/-- The number with the given sign and encoded absolute value. -/
def ofMagnitude (negative : Bool) (bits : Nat) : Number :=
  Float.ofBits ((if negative then Nat.pow 2 63 else 0) + bits).toUInt64

/-- An encoded magnitude in units of `2 ^ -1074`. -/
def scaledOfBits (bits : Nat) : Nat :=
  if bits < Nat.pow 2 52 then bits
  else (Nat.pow 2 52 + bits % Nat.pow 2 52) * Nat.pow 2 (bits / Nat.pow 2 52 - 1)

/-- The absolute value of a finite number in units of `2 ^ -1074`. -/
def scaled (n : Number) : Nat := scaledOfBits (magnitude n)

/-- A quotient rounded to the nearest natural number, a half to the even neighbour. -/
def roundQuotient (num den : Nat) : Nat :=
  let quotient := num / den
  let twice := 2 * (num % den)
  if twice < den then quotient
  else if den < twice then quotient + 1
  else quotient + quotient % 2

/-- The encoded magnitude nearest to `num / den`, infinity past the largest number. -/
def nearest (num den : Nat) : Nat :=
  let units := num * Nat.pow 2 1074
  let binade := (units / den).log2 - 52
  min (binade * Nat.pow 2 52 + roundQuotient units (den * Nat.pow 2 binade)) infinityBits

/-- The number nearest to `digits * 10 ^ exponent`. Exponents beyond every number's are settled
without computing the power. -/
def ofDecimal (negative : Bool) (digits : Nat) (exponent : Int) : Number :=
  ofMagnitude negative <|
    if digits = 0 then 0
    else if 310 ≤ exponent then infinityBits
    else if exponent ≤ -(digits.log2 + 400 : Int) then 0
    else nearest (digits * Nat.pow 10 exponent.toNat) (Nat.pow 10 (-exponent).toNat)

/-- Positive infinity. -/
def infinity : Number := ofMagnitude false infinityBits

/-- A finite number without a fractional part. -/
def isInteger (n : Number) : Bool := isFinite n && scaled n % Nat.pow 2 1074 == 0

/-- The integer part of the absolute value of a finite number. -/
def wholePart (n : Number) : Nat := scaled n / Nat.pow 2 1074

/-- The least natural number that is not below `n`; none when no natural number is. -/
def ceil? (n : Number) : Option Nat :=
  if isNaN n then none
  else if isNegative n then some 0
  else if !isFinite n then none
  else some ((scaled n + (Nat.pow 2 1074 - 1)) / Nat.pow 2 1074)

/-- The greatest natural number that is not above `n`, 0 below zero; none when every one is. -/
def floor? (n : Number) : Option Nat :=
  if isNaN n then none
  else if isNegative n then some 0
  else if !isFinite n then none
  else some (wholePart n)

/-- A whole number of at least 1. -/
def isPositiveInteger (n : Number) : Bool := isInteger n && !isNegative n && 0 < scaled n

/-- At least 1, infinity included. -/
def isAtLeastOne (n : Number) : Bool := !isNaN n && !isNegative n && Nat.pow 2 1074 ≤ scaled n

/-- The number equal to a small natural number, the nearest one to a large. -/
def ofNat (n : Nat) : Number := ofDecimal false n 0

end Number

end ConsoleLisp
