/-!
# Text as 16-bit code units

* A `Text` is a sequence of UTF-16 code units. Lengths, offsets and cuts count units, so a character
  outside the basic plane counts twice and a cut may fall inside it.
* `text` gives the units of a string, `decimal` the digits of a natural number.
-/

namespace ConsoleLisp

/-- One UTF-16 code unit. -/
abbrev CodeUnit := UInt16

/-- A sequence of code units, well formed or not. -/
abbrev Text := List CodeUnit

/-- The units of a character: one in the basic plane, a surrogate pair beyond it. -/
def CodeUnit.ofChar (c : Char) : Text :=
  let point := c.toNat
  if point < 0x10000 then [point.toUInt16]
  else
    let beyond := point - 0x10000
    [(0xD800 + beyond / 0x400).toUInt16, (0xDC00 + beyond % 0x400).toUInt16]

/-- The unit of a character of the basic plane. -/
def unit (c : Char) : CodeUnit := c.toNat.toUInt16

/-- The units of a string. -/
def text (s : String) : Text := s.toList.flatMap CodeUnit.ofChar

/-- A natural number in decimal, without leading zeros. -/
def decimal (n : Nat) : Text := (Nat.toDigits 10 n).map unit

/-- An integer in decimal, with a minus sign when it is negative. -/
def signedDecimal : Int → Text
  | .ofNat n => decimal n
  | .negSucc n => unit '-' :: decimal (n + 1)

namespace CodeUnit

/-- A decimal digit of the ASCII range. -/
def isDigit (u : CodeUnit) : Bool := unit '0' ≤ u && u ≤ unit '9'

/-- The value of a decimal digit. -/
def digitValue (u : CodeUnit) : Nat := u.toNat - 48

/-- White space and line ends in the wide sense used for trimming: ASCII controls, the no-break
spaces, the typographic spaces and the byte order mark. -/
def isBlank (u : CodeUnit) : Bool :=
  (9 ≤ u && u ≤ 13) || (0x2000 ≤ u && u ≤ 0x200A) ||
    [0x20, 0xA0, 0x1680, 0x2028, 0x2029, 0x202F, 0x205F, 0x3000, 0xFEFF].contains u

/-- The first half of a pair. -/
def isHighSurrogate (u : CodeUnit) : Bool := 0xD800 ≤ u && u ≤ 0xDBFF

/-- The second half of a pair. -/
def isLowSurrogate (u : CodeUnit) : Bool := 0xDC00 ≤ u && u ≤ 0xDFFF

/-- The character of a unit that stands alone; a surrogate has none. -/
def toChar? (u : CodeUnit) : Option Char :=
  if isHighSurrogate u || isLowSurrogate u then none else some (Char.ofNat u.toNat)

/-- The character beyond the basic plane that a surrogate pair encodes. -/
def paired (high low : CodeUnit) : Char :=
  Char.ofNat (0x10000 + (high.toNat - 0xD800) * 0x400 + (low.toNat - 0xDC00))

end CodeUnit

namespace Text

/-- The characters of a text; a surrogate outside a pair is none. -/
def characters : Text → List (Option Char)
  | [] => []
  | [u] => [u.toChar?]
  | high :: low :: rest =>
    if high.isHighSurrogate && low.isLowSurrogate then
      some (CodeUnit.paired high low) :: characters rest
    else high.toChar? :: characters (low :: rest)

/-- A text as a string, if it is well formed: every surrogate belongs to a pair. -/
def toString? (t : Text) : Option String := ((characters t).mapM id).map String.ofList

/-- A text as a stream shows it: each surrogate outside a pair becomes the replacement character. -/
def shown (t : Text) : String :=
  String.ofList ((characters t).map fun c => c.getD (Char.ofNat 0xFFFD))

/-- A text without the blanks at its two ends. -/
def trim (t : Text) : Text :=
  ((t.dropWhile CodeUnit.isBlank).reverse.dropWhile CodeUnit.isBlank).reverse

/-- The natural number that a sequence of digits denotes. -/
def digitsValue (digits : Text) : Nat := digits.foldl (fun n u => 10 * n + u.digitValue) 0

/-- Texts joined by a separator. -/
def join (separator : Text) (parts : List Text) : Text := separator.intercalate parts

/-- Double quotes around a text, as messages quote names. -/
def inDoubleQuotes (t : Text) : Text := unit '"' :: t ++ [unit '"']

/-- The text after a leading part, when it starts with that part. -/
def after? : Text → Text → Option Text
  | [], t => some t
  | _ :: _, [] => none
  | p :: part, u :: t => if p = u then after? part t else none

end Text

end ConsoleLisp
