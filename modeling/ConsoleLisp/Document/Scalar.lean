import ConsoleLisp.Document.Value
import ConsoleLisp.Number.Literal

/-!
# Plain scalars

`Value.ofPlain` decides what an unquoted scalar of a YAML document denotes: null, a truth value, a
number (decimal, octal after `0o`, hexadecimal after `0x`, infinite or not a number), otherwise its
text.
-/

namespace ConsoleLisp

/-- The value of a hexadecimal digit. -/
def CodeUnit.hexValue? (u : CodeUnit) : Option Nat :=
  if u.isDigit then some (u.toNat - 48)
  else if unit 'a' ≤ u && u ≤ unit 'f' then some (u.toNat - 87)
  else if unit 'A' ≤ u && u ≤ unit 'F' then some (u.toNat - 55)
  else none

namespace Value

/-- The number that digits of a radix denote; there must be one at least, and no other unit. -/
def radixNumber? (radix : Nat) (t : Text) : Option Nat :=
  if t = [] then none
  else t.foldlM (fun value u => do
    let digit ← u.hexValue?
    if digit < radix then some (radix * value + digit) else none) 0

/-- An infinite scalar, with or without a sign, or the one that is not a number. -/
def specialNumber? (t : Text) : Option Number :=
  let oneOf (names : List String) (t : Text) : Bool := (names.map ConsoleLisp.text).contains t
  let (negative, unsigned) := Literal.splitSign t
  if oneOf [".inf", ".Inf", ".INF"] unsigned then
    some (Number.ofMagnitude negative Number.infinityBits)
  else if oneOf [".nan", ".NaN", ".NAN"] t then some (0 / 0)
  else none

/-- The number that a plain scalar writes. -/
def plainNumber? (t : Text) : Option Number :=
  match Text.after? (ConsoleLisp.text "0x") t, Text.after? (ConsoleLisp.text "0o") t with
  | some digits, _ => (radixNumber? 16 digits).map Number.ofNat
  | none, some digits => (radixNumber? 8 digits).map Number.ofNat
  | none, none => (specialNumber? t).or ((Literal.parse? t).map Literal.value)

/-- The value of a plain scalar. -/
def ofPlain (t : Text) : Value :=
  let oneOf (names : List String) : Bool := (names.map ConsoleLisp.text).contains t
  if oneOf ["", "~", "null", "Null", "NULL"] then .null
  else if oneOf ["true", "True", "TRUE"] then .boolean true
  else if oneOf ["false", "False", "FALSE"] then .boolean false
  else match plainNumber? t with
    | some n => .number n
    | none => .text t

end Value

end ConsoleLisp
