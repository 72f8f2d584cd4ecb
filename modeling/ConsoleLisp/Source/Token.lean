import ConsoleLisp.Source.Location

/-!
# Tokens

* `scan` turns a source text into its lexemes: tokens and lexical errors in the order of the text,
  each with the place that the scan has then reached. White space and comments from `;` to the end
  of the line separate tokens and leave no trace.
* The list ends with the one token of kind `endOfText`. After an error the scan goes on behind the
  text that the error used up.
* `tokenize` gives the tokens, or the first error.
-/

namespace ConsoleLisp

/-- What a token is. -/
inductive TokenKind
  | openList
  | closeList
  | quote
  | string
  | atom
  | endOfText
  deriving DecidableEq, Repr

/-- A token: for a string its decoded value, otherwise the text it spans. -/
structure Token where
  kind : TokenKind
  value : Text
  start : Location
  stop : Location
  deriving DecidableEq, Repr

/-- Why a text has no next token. -/
inductive LexicalError
  /-- The string opened at this place is not closed. -/
  | unterminatedString (opened : Location)
  /-- The unit at this place follows a backslash and is no escape. -/
  | invalidEscape (escaped : CodeUnit) (place : Location)
  deriving DecidableEq, Repr

/-- A step of the scan: a token or an error, and the cursor behind it. -/
structure Lexeme where
  token : Except LexicalError Token
  next : Cursor

/-! ## Classes of units -/

/-- The white space between tokens. -/
def isSpace (u : CodeUnit) : Bool :=
  u == unit ' ' || u == unit '\t' || u == unit '\r' || u == unit '\n'

/-- The units that end an atom. -/
def isDelimiter (u : CodeUnit) : Bool :=
  isSpace u || u == unit '(' || u == unit ')' || u == unit '\x27' || u == unit '"' || u == unit ';'

/-! ## The parts of a text -/

/-- Past white space and comments; `inComment` holds between a `;` and the end of its line. -/
def skipTrivia (inComment : Bool) : Text → Location → Cursor
  | [], place => ⟨[], place⟩
  | u :: rest, place =>
    if inComment then skipTrivia (u != unit '\n') rest (place.advance u)
    else if isSpace u then skipTrivia false rest (place.advance u)
    else if u = unit ';' then skipTrivia true rest (place.advance u)
    else ⟨u :: rest, place⟩

/-- The unit that an escape stands for. -/
def unescape (u : CodeUnit) : Option CodeUnit :=
  if u = unit 'n' then some (unit '\n')
  else if u = unit 'r' then some (unit '\r')
  else if u = unit 't' then some (unit '\t')
  else if u = unit '\\' then some (unit '\\')
  else if u = unit '"' then some (unit '"')
  else none

/-- The value of a string literal from behind its opening quote, and the cursor behind the closing
one or behind the text of the error. -/
def stringBody (opened : Location) : Text → Location → Except LexicalError Text × Cursor
  | [], place => (.error (.unterminatedString opened), ⟨[], place⟩)
  | u :: rest, place =>
    if u = unit '"' then (.ok [], ⟨rest, place.advance u⟩)
    else if u = unit '\\' then
      match rest with
      | [] => (.error (.unterminatedString opened), ⟨[], place.advance u⟩)
      | escaped :: rest =>
        let inside := place.advance u
        match unescape escaped with
        | none => (.error (.invalidEscape escaped inside), ⟨rest, inside.advance escaped⟩)
        | some value =>
          let (body, next) := stringBody opened rest (inside.advance escaped)
          (body.map (value :: ·), next)
    else
      let (body, next) := stringBody opened rest (place.advance u)
      (body.map (u :: ·), next)

/-! ## The scan -/

/-- The next lexeme of a text. -/
def Cursor.lexeme (c : Cursor) : Lexeme :=
  let ⟨here, start⟩ := skipTrivia false c.rest c.place
  match here with
  | [] => ⟨.ok ⟨.endOfText, [], start, start⟩, ⟨[], start⟩⟩
  | u :: rest =>
    let past := start.advance u
    if u = unit '(' then ⟨.ok ⟨.openList, [u], start, past⟩, ⟨rest, past⟩⟩
    else if u = unit ')' then ⟨.ok ⟨.closeList, [u], start, past⟩, ⟨rest, past⟩⟩
    else if u = unit '\x27' then ⟨.ok ⟨.quote, [u], start, past⟩, ⟨rest, past⟩⟩
    else if u = unit '"' then
      let (body, next) := stringBody start rest past
      ⟨body.map fun value => ⟨.string, value, start, next.place⟩, next⟩
    else
      let next := Cursor.skipWhile (!isDelimiter ·) ⟨here, start⟩
      ⟨.ok ⟨.atom, here.takeWhile (!isDelimiter ·), start, next.place⟩, next⟩

/-- The lexeme is the token that ends the text. -/
def Lexeme.isEnd (l : Lexeme) : Bool :=
  match l.token with
  | .ok token => token.kind == .endOfText
  | .error _ => false

/-- The lexemes from a cursor on. Each takes at least one unit, so a `fuel` above the length of the
text reaches its end. -/
def scanFrom : Nat → Cursor → List Lexeme
  | 0, _ => []
  | fuel + 1, c =>
    let lexeme := c.lexeme
    if lexeme.isEnd then [lexeme] else lexeme :: scanFrom fuel lexeme.next

/-- The lexemes of a text. -/
def scan (t : Text) : List Lexeme := scanFrom (t.length + 1) (.ofText t)

/-- The tokens of a text, or its first lexical error. -/
def tokenize (t : Text) : Except LexicalError (List Token) := (scan t).mapM Lexeme.token

end ConsoleLisp
