import ConsoleLisp.Number.Binary

/-!
# Number literals

* A literal is an optional sign, digits with an optional point (at least one digit on one side of
  it), and an optional exponent with at least one digit; nothing may follow.
* `Literal.parse?` splits a text into these parts and `Literal.value` is the number nearest to the
  decimal they write, whatever its length.
-/

namespace ConsoleLisp

/-- The parts of a number literal. -/
structure Literal where
  negative : Bool
  whole : Text
  fraction : Text
  exponent : Int
  deriving DecidableEq, Repr

namespace Literal

/-- An optional sign: whether it is a minus, and what follows it. -/
def splitSign : Text → Bool × Text
  | [] => (false, [])
  | u :: rest =>
    if u = unit '-' then (true, rest)
    else if u = unit '+' then (false, rest)
    else (false, u :: rest)

/-- The leading digits and what follows them. -/
def splitDigits (t : Text) : Text × Text :=
  (t.takeWhile CodeUnit.isDigit, t.dropWhile CodeUnit.isDigit)

/-- The digits after an optional point, and what follows them. -/
def splitFraction : Text → Text × Text
  | [] => ([], [])
  | u :: rest => if u = unit '.' then splitDigits rest else ([], u :: rest)

/-- The value of an optional exponent part that takes up the whole text. -/
def exponentPart? : Text → Option Int
  | [] => some 0
  | u :: rest =>
    if u = unit 'e' ∨ u = unit 'E' then
      let (negative, rest) := splitSign rest
      if rest ≠ [] ∧ rest.all CodeUnit.isDigit then
        let value : Int := Text.digitsValue rest
        some (if negative then -value else value)
      else none
    else none

/-- The parts of a text that is a number literal as a whole. -/
def parse? (t : Text) : Option Literal :=
  let (negative, t) := splitSign t
  let (whole, t) := splitDigits t
  let (fraction, t) := splitFraction t
  if whole = [] ∧ fraction = [] then none
  else (exponentPart? t).map fun exponent => ⟨negative, whole, fraction, exponent⟩

/-- The number nearest to the decimal that the literal writes. -/
def value (l : Literal) : Number :=
  Number.ofDecimal l.negative (Text.digitsValue (l.whole ++ l.fraction))
    (l.exponent - l.fraction.length)

end Literal

/-- The text as a whole is a number literal. -/
def isNumberLiteral (t : Text) : Bool := (Literal.parse? t).isSome

end ConsoleLisp
