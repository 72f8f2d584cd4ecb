import ConsoleLisp.CommandLine.Evaluate
import ConsoleLisp.CommandLine.Prompt

/-!
# The program

The first argument names the command, `eval` or `repl`; the rest are the arguments of that command.
This module reads files and standard input and writes what the command answers; it decides nothing
else.
-/

namespace ConsoleLisp

/-- What stands at a path. The system's number for the reading of a directory is 21. -/
def readContent (path : String) : IO FileContent := do
  try
    return .file (text (← IO.FS.readFile path))
  catch
    | .noFileOrDirectory .. => return .missing
    | .inappropriateType _ 21 _ => return .directory
    | .inappropriateType .. => return .belowFile
    | _ => return .directory

/-- Write what a command answers. -/
def writeOutput (o : CommandOutput) : IO Unit := do
  let stdout ← IO.getStdout
  let stderr ← IO.getStderr
  stdout.putStr o.stdout.shown
  stderr.putStr o.stderr.shown
  stdout.flush
  stderr.flush

/-- The exit code of a command. -/
def exitCode (o : CommandOutput) : UInt32 := o.code.toUInt32

/-- Write what an interactive session has to say, and go on with the next line of standard input. -/
partial def converse (progress : PromptCommand.Progress) : IO UInt32 := do
  writeOutput progress.output
  match progress.session with
  | none => return exitCode progress.output
  | some session =>
    let line ← (← IO.getStdin).getLine
    if line.isEmpty then return exitCode progress.output
    converse (PromptCommand.handleAll ⟨.empty, some session⟩ (PromptCommand.inputLines (text line)))

/-- Run the command that evaluates one expression. -/
def runEvaluate (args : List Text) (settingsPath : String) : IO UInt32 := do
  let o := EvaluateCommand.run args (text settingsPath) (← readContent settingsPath)
  writeOutput o
  return exitCode o

/-- Run the interactive command. -/
def runPrompt (args : List Text) (settingsPath : String) : IO UInt32 := do
  let settingsFile ← readContent settingsPath
  let levelFile ← match PromptCommand.ofArguments args with
    | .ok (.interact (some path)) => readContent path.shown
    | _ => pure .missing
  converse (PromptCommand.start args (text settingsPath) settingsFile fun _ => levelFile)

end ConsoleLisp

open ConsoleLisp in
/-- Run the command that the first argument names. -/
def main (args : List String) : IO UInt32 := do
  let settingsPath := toString ((← IO.currentDir) / Settings.fileName.shown)
  match args with
  | "eval" :: rest => runEvaluate (rest.map text) settingsPath
  | "repl" :: rest => runPrompt (rest.map text) settingsPath
  | _ =>
    IO.eprintln "Usage: eval <expression> | repl [--level <file>]"
    return 1
