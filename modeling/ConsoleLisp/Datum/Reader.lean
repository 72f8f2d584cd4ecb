import ConsoleLisp.Datum.Basic
import ConsoleLisp.ErrorCode
import ConsoleLisp.Source.Token

/-!
# Reading data from a source text

* `Reader.datum` reads one datum from a sequence of lexemes. The lists and quotations still open are
  frames on a stack, innermost first; a datum that is complete goes into the frame on top (`plug`).
* At most `maxReadDepth` lists and quotations may be open at once.
* A lexeme that cannot stand where it is stays in front of the reader, a lexical error does not.
* A failure tells which data inside the open frames were complete, in the order of the text.
* `readData` reads every datum of a text.
-/

namespace ConsoleLisp

/-- Deepest nesting of lists and quotations that the reader accepts. -/
def maxReadDepth : Nat := 512

/-- Why no datum can be read. -/
inductive ReadError
  | lexical (error : LexicalError)
  /-- The text is at its end where a datum should start. -/
  | nothingToRead (place : Location)
  /-- A list is closed that was not opened. -/
  | unexpectedClose (place : Location)
  | tooDeep (place : Location)
  /-- A quotation mark stands before the end of a list or of the text. -/
  | nothingQuoted (place : Location)
  /-- The text ends inside a list. -/
  | unclosedList (opened endOfText : Location)
  deriving DecidableEq, Repr

namespace LexicalError

def code : LexicalError → ErrorCode
  | unterminatedString _ => .unterminatedString
  | invalidEscape .. => .invalidEscape

def location : LexicalError → Location
  | unterminatedString opened => opened
  | invalidEscape _ place => place

/-- The message without its place. -/
def notice : LexicalError → Text
  | unterminatedString _ => text "Unterminated string literal"
  | invalidEscape escaped _ => text "Invalid escape sequence: \\" ++ [escaped]

/-- The message with its place. -/
def message (e : LexicalError) : Text := e.notice ++ e.location.suffix

end LexicalError

namespace ReadError

def code : ReadError → ErrorCode
  | lexical error => error.code
  | nothingToRead _ => .emptyInput
  | unexpectedClose _ => .unbalanced
  | tooDeep _ => .nestedTooDeep
  | nothingQuoted _ => .unexpectedToken
  | unclosedList .. => .unbalanced

/-- Where the error is: for an unclosed list, where the list was opened. -/
def location : ReadError → Location
  | lexical error => error.location
  | nothingToRead place => place
  | unexpectedClose place => place
  | tooDeep place => place
  | nothingQuoted place => place
  | unclosedList opened _ => opened

/-- The message without its place. -/
def notice : ReadError → Text
  | lexical error => error.notice
  | nothingToRead _ => text "Expected an expression"
  | unexpectedClose _ => text "Unexpected ')'"
  | tooDeep _ => text "Nesting deeper than " ++ decimal maxReadDepth ++ text " levels"
  | nothingQuoted _ => text "Expected an expression after '"
  | unclosedList .. => text "Expected ')' to close list opened"

/-- The message with its place. -/
def message (e : ReadError) : Text := e.notice ++ e.location.suffix

end ReadError

/-! ## Open frames -/

/-- A list or a quotation that is still open. -/
inductive Frame
  /-- A list, with where it was opened and its items so far, the newest first. -/
  | list (opened : Location) (items : List Datum)
  | quotation
  deriving DecidableEq

/-- Put a complete datum into the innermost frame: either that completes the outermost datum, or a
list is left open. -/
def plug (d : Datum) : List Frame → Datum ⊕ List Frame
  | [] => .inl d
  | .quotation :: outer => plug (.quoted d) outer
  | .list opened items :: outer => .inr (.list opened (d :: items) :: outer)

/-- The items of the open lists in the order of the text. -/
def completed (frames : List Frame) : List Datum :=
  frames.reverse.flatMap fun frame => match frame with
    | .list _ items => items.reverse
    | .quotation => []

/-- The error at the end of the text, `place`. -/
def errorAtEnd (place : Location) : List Frame → ReadError
  | [] => .nothingToRead place
  | .quotation :: _ => .nothingQuoted place
  | .list opened _ :: _ => .unclosedList opened place

/-! ## The reader -/

/-- A read that failed, and the data complete by then inside the open frames. -/
structure ReadFailure where
  error : ReadError
  completed : List Datum
  deriving DecidableEq

/-- A reader between two data. -/
structure Reader where
  /-- The lexemes not used up. -/
  lexemes : List Lexeme
  /-- How far the text has been scanned. -/
  place : Location
  /-- Offset behind the last token used up. -/
  lastEnd : Nat
  /-- The lists and quotations counted as open; a failure leaves its own in the count. -/
  depth : Nat

namespace Reader

/-- A reader at the start of a text. -/
def ofText (t : Text) : Reader := ⟨scan t, .start, 0, 0⟩

/-- Go on reading inside some frames; `base` lists and quotations are counted as open outside
them. -/
def resume (base : Nat) (frames : List Frame) (lastEnd : Nat) (place : Location) :
    List Lexeme → Except ReadFailure Datum × Reader
  | [] => (.error ⟨errorAtEnd place frames, completed frames⟩,
      ⟨[], place, lastEnd, base + frames.length⟩)
  | lexeme :: rest =>
    let place := lexeme.next.place
    let depth := base + frames.length
    let stop (error : ReadError) (left : List Lexeme) : Except ReadFailure Datum × Reader :=
      (.error ⟨error, completed frames⟩, ⟨left, place, lastEnd, depth⟩)
    match lexeme.token with
    | .error error => stop (.lexical error) rest
    | .ok token =>
      let lastEnd := token.stop.offset
      match token.kind, frames with
      | .endOfText, frames => stop (errorAtEnd token.start frames) (lexeme :: rest)
      | .openList, frames =>
        if maxReadDepth ≤ depth then stop (.tooDeep token.start) (lexeme :: rest)
        else resume base (.list token.start [] :: frames) lastEnd place rest
      | .quote, frames =>
        if maxReadDepth ≤ depth then stop (.tooDeep token.start) (lexeme :: rest)
        else resume base (.quotation :: frames) lastEnd place rest
      | .closeList, [] => stop (.unexpectedClose token.start) (lexeme :: rest)
      | .closeList, .quotation :: _ => stop (.nothingQuoted token.start) (lexeme :: rest)
      | .closeList, .list _ items :: outer =>
        match plug (.ofList items.reverse) outer with
        | .inl datum => (.ok datum, ⟨rest, place, lastEnd, base⟩)
        | .inr frames => resume base frames lastEnd place rest
      | .string, frames =>
        match plug (.string token.value) frames with
        | .inl datum => (.ok datum, ⟨rest, place, lastEnd, base⟩)
        | .inr frames => resume base frames lastEnd place rest
      | .atom, frames =>
        match plug (.ofAtom token.value) frames with
        | .inl datum => (.ok datum, ⟨rest, place, lastEnd, base⟩)
        | .inr frames => resume base frames lastEnd place rest

/-- Read the next datum. -/
def datum (r : Reader) : Except ReadFailure Datum × Reader :=
  resume r.depth [] r.lastEnd r.place r.lexemes

/-- Nothing but the end of the text is left. -/
def isAtEnd (r : Reader) : Bool := r.lexemes.head?.all Lexeme.isEnd

/-- Every datum up to the end of the text or to a failure; each takes a lexeme, which `fuel`
counts. -/
def data : Nat → Reader → List Datum × Option ReadFailure
  | 0, _ => ([], none)
  | fuel + 1, r =>
    if r.isAtEnd then ([], none)
    else match r.datum with
      | (.ok datum, r) => let (data, failure) := data fuel r; (datum :: data, failure)
      | (.error failure, _) => ([], some failure)

end Reader

/-- The first datum of a text and the offset behind it. -/
def readDatum (t : Text) : Except ReadFailure (Datum × Nat) :=
  let (result, reader) := (Reader.ofText t).datum
  result.map fun datum => (datum, reader.lastEnd)

/-- The data of a text up to its end or to the first failure. -/
def readData (t : Text) : List Datum × Option ReadFailure :=
  let reader := Reader.ofText t
  reader.data reader.lexemes.length

end ConsoleLisp
