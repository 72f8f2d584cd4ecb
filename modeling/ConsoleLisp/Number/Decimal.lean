import ConsoleLisp.Number.Binary

/-!
# The decimal text of a number

* `Number.shortest` picks the decimal with the fewest digits that reads back as the number, and of
  those the nearest to it, a tie going to the even last digit. A candidate counts only when
  `Number.ofDecimal` gives the number again, and the search ends in the exact decimal expansion, so
  every choice reads back.
* `Decimal.layout` places the point: plain notation for `10 ^ -6 ≤ n < 10 ^ 21`, otherwise one digit
  before the point and a signed exponent.
-/

namespace ConsoleLisp

/-- The positive decimal `digits * 10 ^ exponent`. -/
structure Decimal where
  digits : Nat
  exponent : Int
  deriving DecidableEq, Repr

namespace Decimal

/-- The same decimal without trailing zeros among its digits; `fuel` bounds how many are dropped. -/
def dropZeros : Nat → Decimal → Decimal
  | 0, d => d
  | fuel + 1, d =>
    if d.digits % 10 = 0 then dropZeros fuel ⟨d.digits / 10, d.exponent + 1⟩ else d

/-- The significant digits, with the point after the first `point` of them. -/
def layout (digits : Text) (point : Int) : Text :=
  let size : Int := digits.length
  if size ≤ point ∧ point ≤ 21 then
    digits ++ List.replicate (point - size).toNat (unit '0')
  else if 0 < point ∧ point ≤ 21 then
    digits.take point.toNat ++ unit '.' :: digits.drop point.toNat
  else if -6 < point ∧ point ≤ 0 then
    text "0." ++ List.replicate (-point).toNat (unit '0') ++ digits
  else
    let exponent := point - 1
    let sign := if exponent < 0 then unit '-' else unit '+'
    let mantissa := match digits with
      | [] => []
      | [digit] => [digit]
      | digit :: rest => digit :: unit '.' :: rest
    mantissa ++ unit 'e' :: sign :: decimal exponent.natAbs

/-- A decimal in the notation that its size asks for. -/
def toText (d : Decimal) : Text :=
  let digits := decimal d.digits
  layout digits (d.exponent + digits.length)

end Decimal

namespace Number

/-- The decimal exponent of the first digit of `num / den`, both positive. -/
def leadingExponent (num den : Nat) : Int :=
  if den ≤ num then (Nat.toDigits 10 (num / den)).length - 1
  else -((Nat.toDigits 10 ((den - 1) / num)).length : Int)

/-- The two decimals next to `num / den` with the last digit at `exponent`, the nearer first; of
two that are equally near, the one with an even last digit comes first. -/
def neighbours (num den : Nat) (exponent : Int) : List Decimal :=
  let num := num * Nat.pow 10 (-exponent).toNat
  let den := den * Nat.pow 10 exponent.toNat
  let below := num / den
  let twice := 2 * (num % den)
  if twice < den ∨ (twice = den ∧ below % 2 = 0) then [⟨below, exponent⟩, ⟨below + 1, exponent⟩]
  else [⟨below + 1, exponent⟩, ⟨below, exponent⟩]

/-- The decimal reads as the positive number encoded by `bits`. -/
def readsAs (bits : Nat) (d : Decimal) : Bool :=
  magnitude (ofDecimal false d.digits d.exponent) == bits

/-- The decimal with the fewest digits that reads as the positive finite number encoded by `bits`,
the nearest to it of those, and the even one of two that are equally near. -/
def shortest (bits : Nat) : Decimal :=
  let num := scaledOfBits bits
  let leading := leadingExponent num (Nat.pow 2 1074)
  let grids := (List.range 17).map fun (count : Nat) => leading - (count : Int)
  match grids.findSome? fun exponent =>
      (neighbours num (Nat.pow 2 1074) exponent).find? (readsAs bits) with
  | some d => d.dropZeros 400
  | none => ⟨num * Nat.pow 5 1074, -1074⟩

/-- The text of a number; zero has no sign. -/
def toText (n : Number) : Text :=
  let sign := if isNegative n then [unit '-'] else []
  if isNaN n then text "NaN"
  else if !isFinite n then sign ++ text "Infinity"
  else if scaled n = 0 then text "0"
  else sign ++ (shortest (magnitude n)).toText

end Number

end ConsoleLisp
