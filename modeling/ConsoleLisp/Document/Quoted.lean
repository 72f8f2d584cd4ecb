import ConsoleLisp.Document.Scalar
import ConsoleLisp.Source.Location

/-!
# Quoted scalars

The values of quoted scalars of a YAML document, from behind the opening quote. Between single
quotes a quote is written twice; between double quotes a backslash starts an escape. Both end on
the line on which they start.
-/

namespace ConsoleLisp

/-- Why a text is no YAML document. -/
inductive YamlError
  | unclosedQuote
  | badEscape
  | unclosedFlow
  | duplicateKey (key : Text)
  /-- What stands at this place cannot stand there. -/
  | unexpected (place : Location)
  deriving DecidableEq, Repr

def YamlError.message : YamlError → Text
  | unclosedQuote => text "missing closing quote"
  | badEscape => text "invalid escape sequence"
  | unclosedFlow => text "missing closing bracket"
  | duplicateKey key => text "duplicate key " ++ key.inDoubleQuotes
  | unexpected place => text "unexpected text" ++ place.suffix

namespace Yaml

/-- A line ends here. -/
def isLineEnd (u : CodeUnit) : Bool := u == unit '\n' || u == unit '\r'

/-- The value of a scalar in single quotes, and the text behind it. -/
def singleQuoted : Text → Except YamlError (Text × Text)
  | [] => .error .unclosedQuote
  | [u] => if u = unit '\x27' then .ok ([], []) else .error .unclosedQuote
  | u :: v :: rest =>
    if u = unit '\x27' then
      if v = unit '\x27' then (singleQuoted rest).map fun (value, rest) => (u :: value, rest)
      else .ok ([], v :: rest)
    else if isLineEnd u then .error .unclosedQuote
    else (singleQuoted (v :: rest)).map fun (value, rest) => (u :: value, rest)

/-- The units of a code point; a surrogate stands for itself. -/
def codePoint? (value : Nat) : Option Text :=
  if value < 0x10000 then some [value.toUInt16]
  else if value < 0x110000 then some (CodeUnit.ofChar (Char.ofNat value))
  else none

/-- The escapes of one unit. -/
def shortEscape? (u : CodeUnit) : Option CodeUnit :=
  let table : List (Char × UInt16) :=
    [('0', 0), ('a', 7), ('b', 8), ('t', 9), ('\t', 9), ('n', 10), ('v', 11), ('f', 12), ('r', 13),
      ('e', 27), (' ', 32), ('"', 34), ('/', 47), ('\\', 92), ('N', 0x85), ('_', 0xA0),
      ('L', 0x2028), ('P', 0x2029)]
  (table.find? fun entry => unit entry.1 == u).map Prod.snd

/-- The number of digits of an escape that gives a code point. -/
def escapeDigits? (u : CodeUnit) : Option Nat :=
  if u = unit 'x' then some 2
  else if u = unit 'u' then some 4
  else if u = unit 'U' then some 8
  else none

/-- What is pending between two units of a scalar in double quotes. -/
inductive EscapeState
  | outside
  /-- Behind a backslash. -/
  | started
  /-- Among the digits of a code point: how many are still to come, and the value so far. -/
  | digits (left value : Nat)

/-- The value of a scalar in double quotes, and the text behind it. -/
def doubleQuoted : EscapeState → Text → Except YamlError (Text × Text)
  | _, [] => .error .unclosedQuote
  | .outside, u :: rest =>
    if u = unit '"' then .ok ([], rest)
    else if isLineEnd u then .error .unclosedQuote
    else if u = unit '\\' then doubleQuoted .started rest
    else (doubleQuoted .outside rest).map fun (value, rest) => (u :: value, rest)
  | .started, u :: rest =>
    match shortEscape? u, escapeDigits? u with
    | some unit, _ => (doubleQuoted .outside rest).map fun (value, rest) => (unit :: value, rest)
    | none, some count => doubleQuoted (.digits count 0) rest
    | none, none => .error .badEscape
  | .digits left value, u :: rest =>
    match u.hexValue? with
    | none => .error .badEscape
    | some digit =>
      let value := 16 * value + digit
      if 1 < left then doubleQuoted (.digits (left - 1) value) rest
      else match codePoint? value with
        | none => .error .badEscape
        | some units => (doubleQuoted .outside rest).map fun (tail, rest) => (units ++ tail, rest)

end Yaml

end ConsoleLisp
