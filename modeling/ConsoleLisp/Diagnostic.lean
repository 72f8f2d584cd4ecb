import ConsoleLisp.Datum.Reader
import ConsoleLisp.Fault

/-!
# Structured errors

* A `Diagnostic` is an error with a code, as a host gets to see it. Its message ends in the place
  where it has one; `Diagnostic.data` gives the parts, the message without such an ending.
* `withoutPlace` drops an ending of the form ` at LINE:COLUMN`.
* `Report.line` is the line by which a command line tells of an error.
-/

namespace ConsoleLisp

/-- A place as a host may give it, in any numbers. -/
structure Place where
  line : Number
  column : Number
  offset : Number
  deriving DecidableEq, Repr

/-- The line and the column, as they end a message. -/
def Place.suffix (p : Place) : Text :=
  text " at " ++ Number.toText p.line ++ unit ':' :: Number.toText p.column

/-! ## Places at the end of a message -/

/-- The text is a place as it ends a message, and nothing else. -/
def isPlaceSuffix (t : Text) : Bool :=
  match Text.after? (text " at ") t with
  | none => false
  | some t =>
    t.takeWhile CodeUnit.isDigit ≠ [] &&
      match t.dropWhile CodeUnit.isDigit with
      | [] => false
      | u :: t => u == unit ':' && t ≠ [] && t.all CodeUnit.isDigit

/-- A message without the place that ends it, if one does. -/
def withoutPlace : Text → Text
  | [] => []
  | u :: rest => if isPlaceSuffix (u :: rest) then [] else u :: withoutPlace rest

/-! ## Diagnostics -/

/-- An error with a code; `γ` is the type of what else a host is told. -/
inductive Diagnostic (γ : Type)
  | general (code : ErrorCode) (notice : Text) (place : Option Place) (context : Option γ)
  | parse (code : ErrorCode) (notice : Text) (place : Place) (context : Option γ)
  | lexical (code : ErrorCode) (notice : Text) (place : Place) (context : Option γ)
  | heap (code : ErrorCode) (notice : Text) (context : Option γ)
  | configuration (code : ErrorCode) (notice : Text) (path : Text)
  deriving DecidableEq

/-- What else a host is told: something of its own, or the path of a configuration. -/
inductive Particulars (γ : Type)
  | given (context : γ)
  | path (path : Text)
  deriving DecidableEq

/-- The parts of a diagnostic. -/
structure DiagnosticData (γ : Type) where
  code : ErrorCode
  message : Text
  place : Option Place
  context : Option (Particulars γ)
  deriving DecidableEq

namespace Diagnostic

variable {γ : Type}

def code : Diagnostic γ → ErrorCode
  | general code .. | parse code .. | lexical code .. | heap code .. | configuration code .. => code

/-- The message as it was given. -/
def notice : Diagnostic γ → Text
  | general _ notice .. | parse _ notice .. | lexical _ notice .. | heap _ notice _
  | configuration _ notice _ => notice

def place? : Diagnostic γ → Option Place
  | general _ _ place _ => place
  | parse _ _ place _ | lexical _ _ place _ => some place
  | heap .. | configuration .. => none

def context? : Diagnostic γ → Option (Particulars γ)
  | general _ _ _ context | parse _ _ _ context | lexical _ _ _ context | heap _ _ context =>
    context.map .given
  | configuration _ _ path => some (.path path)

/-- The message, with the place behind it when there is one. -/
def message (d : Diagnostic γ) : Text :=
  d.notice ++ match d.place? with
    | some place => place.suffix
    | none => []

/-- The parts of the diagnostic, for a host to format. -/
def data (d : Diagnostic γ) : DiagnosticData γ :=
  ⟨d.code, withoutPlace d.message, d.place?, d.context?⟩

/-- The diagnostic in a format of the host's choice, otherwise its message. -/
def format (d : Diagnostic γ) (formatter : Option (DiagnosticData γ → Text)) : Text :=
  match formatter with
  | some formatter => formatter d.data
  | none => d.message

end Diagnostic

/-! ## Reports -/

/-- An error that a command line tells of. -/
inductive Report (γ : Type)
  | diagnostic (d : Diagnostic γ)
  /-- An error without a place in the table of codes; a host may add a code and a path. -/
  | plain (message : Text) (code path : Option Text)

/-- What is said of a text that does not parse in a line. -/
def parseErrorText (line message : Text) : Text :=
  text "Parse error at line " ++ line ++ text ": " ++ withoutPlace message

/-- The line that tells of an error. -/
def Report.line {γ : Type} : Report γ → Text
  | diagnostic (.lexical code notice place context) =>
    text "Lexer error at line " ++ Number.toText place.line ++ text ": "
      ++ withoutPlace (Diagnostic.lexical code notice place context).message
  | diagnostic (.parse code notice place context) =>
    parseErrorText (Number.toText place.line) (Diagnostic.parse code notice place context).message
  | diagnostic (.heap _ notice _) => text "Heap error: " ++ notice
  | diagnostic (.configuration _ notice path) => notice ++ text " (" ++ path ++ text ")"
  | diagnostic d@(.general ..) => d.message
  | plain message code path =>
    match path with
    | some path => if code = some (text "ENOENT") then text "File not found: " ++ path else message
    | none => message

/-- A fault as a command line tells of it. -/
def Fault.report : Fault → Report HeapError
  | heap error => .diagnostic (.heap error.code error.message (some error))
  | fault => .plain fault.message none none

end ConsoleLisp
