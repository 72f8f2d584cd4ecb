import ConsoleLisp.Diagnostic

/-!
# Output of a command

What a run of a command line writes and its exit code. Texts come out line by line; success is code
0.
-/

namespace ConsoleLisp

/-- The version of the program. -/
def version : Text := text "0.1.0"

/-- What a command writes to its two streams, and its exit code. -/
structure CommandOutput where
  stdout : Text
  stderr : Text
  code : Nat
  deriving DecidableEq, Repr

namespace CommandOutput

/-- Nothing written so far, and success. -/
def empty : CommandOutput := ⟨[], [], 0⟩

/-- Write a line to standard output. -/
def print (o : CommandOutput) (line : Text) : CommandOutput :=
  { o with stdout := o.stdout ++ line ++ [unit '\n'] }

/-- Write a line to standard error. -/
def warn (o : CommandOutput) (line : Text) : CommandOutput :=
  { o with stderr := o.stderr ++ line ++ [unit '\n'] }

/-- Write a text without a line end to standard output. -/
def prompt (o : CommandOutput) (t : Text) : CommandOutput := { o with stdout := o.stdout ++ t }

/-- Write the last line to standard error and fail. -/
def fail (o : CommandOutput) (line : Text) : CommandOutput := { o.warn line with code := 1 }

/-- Write a text of several lines. -/
def printLines (o : CommandOutput) (lines : List String) : CommandOutput :=
  lines.foldl (fun o line => o.print (text line)) o

end CommandOutput

/-- Why a command line is refused. -/
inductive UsageError
  | unknownOption (argument : Text)
  | severalExpressions
  | noLevelPath
  | unknownArgument (argument : Text)
  deriving DecidableEq, Repr

def UsageError.message : UsageError → Text
  | unknownOption argument => text "Unknown option: " ++ argument
  | severalExpressions => text "Expected a single expression (quote it)"
  | noLevelPath => text "--level requires a file path"
  | unknownArgument argument => text "Unknown argument: " ++ argument

/-- The argument starts like an option. -/
def isOption (argument : Text) : Bool := (Text.after? (text "--") argument).isSome

end ConsoleLisp
