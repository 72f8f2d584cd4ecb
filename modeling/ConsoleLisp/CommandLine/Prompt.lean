import ConsoleLisp.CommandLine.Output
import ConsoleLisp.Console.Command
import ConsoleLisp.Document.Directory
import ConsoleLisp.Level.Document
import ConsoleLisp.Settings

/-!
# The interactive command

`PromptCommand.run` is a run of the command: its arguments, its working directory and its standard
input in, its output out. `PromptCommand.handle` is what one line of that input does. The prompt
stands before each line that is read; a fault ends the session.
-/

namespace ConsoleLisp

/-- What the command is asked to do. -/
inductive PromptCommand
  | interact (levelPath : Option Text)
  | help
  | version
  deriving DecidableEq, Repr

namespace PromptCommand

/-- The level path that the arguments give, the last one if there are several. -/
def levelPath? : Option Text → List Text → Except UsageError (Option Text)
  | path, [] => .ok path
  | _, argument :: rest =>
    if argument = text "--level" then
      match rest with
      | [] => .error .noLevelPath
      | path :: rest => if isOption path then .error .noLevelPath else levelPath? (some path) rest
    else .error (.unknownArgument argument)

/-- The command that the arguments ask for. -/
def ofArguments (args : List Text) : Except UsageError PromptCommand :=
  if args.contains (text "--help") then .ok .help
  else if args.contains (text "--version") then .ok .version
  else (levelPath? none args).map .interact

def usage : List String :=
  ["Cinder Console",
    "",
    "Usage:",
    "  cinder-repl                 Start an empty console",
    "  cinder-repl --level <file>  Load rigid rects from a level file",
    "  cinder-repl --help          Show this help message",
    "  cinder-repl --version       Show version information",
    "",
    "Commands:",
    "  :env     List root bindings",
    "  :gc      Collect garbage and show stats",
    "  :rects   Show rects and accumulated forces",
    "  :quit    Exit"]

/-- The prompt. -/
def promptText : Text := text "cinder> "

/-- A line feed, a carriage return, the line separator or the paragraph separator. -/
def endsLine (u : CodeUnit) : Bool :=
  u == unit '\n' || u == unit '\r' || u == 0x2028 || u == 0x2029

/-- The text with one line feed for each carriage return and line feed in a row. -/
def withSingleEnds : Text → Text
  | [] => []
  | u :: rest =>
    if u = unit '\r' ∧ rest.head? = some (unit '\n') then withSingleEnds rest
    else u :: withSingleEnds rest

/-- The lines of an input, without their ends; the last one may lack its end. -/
def inputLines (input : Text) : List Text :=
  let lines := (withSingleEnds input).splitOnP endsLine
  if lines.getLast? = some [] then lines.dropLast else lines

/-- Write a line that was added to the log; input is on the terminal already. -/
def writeLine (o : CommandOutput) (line : Line) : CommandOutput :=
  match line.kind with
  | .input => o
  | .warn | .error => o.warn line.text
  | .output | .info => o.print line.text

/-- A console without actions of its own. -/
abbrev Session := Console Empty Unit Unit

/-- The host of the command: it observes nothing. -/
def host : Host (ConsoleAction Empty) (Stage Unit) Unit :=
  .withBuiltins (LevelAction.procedure fun action => action.elim) fun _ _ => []

/-- What a session leaves behind at one point: the output so far, and the session if it goes on. -/
structure Progress where
  output : CommandOutput
  session : Option Session

/-- The session goes on: it prompts for the next line. -/
def Progress.prompting (o : CommandOutput) (session : Session) : Progress :=
  ⟨o.prompt promptText, some session⟩

/-- The session is over. -/
def Progress.over (o : CommandOutput) : Progress := ⟨o, none⟩

/-- Handle one line. -/
def handle (o : CommandOutput) (session : Session) (line : Text) : Progress :=
  let (result, session) := session.handleLine host line
  match result with
  | .error fault => .over (o.fail fault.report.line)
  | .ok response =>
    let o := response.lines.foldl writeLine o
    let o := match response.output with
      | none | some [] => o
      | some output => o.print output
    if response.shouldExit then .over o else .prompting o session

/-- Handle lines until they or the session end. -/
def handleAll : Progress → List Text → Progress
  | progress, [] => progress
  | ⟨o, none⟩, _ :: _ => .over o
  | ⟨o, some session⟩, line :: rest => handleAll (handle o session line) rest

/-- The level of the session. -/
def loadLevel (files : Text → FileContent) : Option Text → Except ConfigurationError Level
  | none => .ok .empty
  | some path =>
    match Level.load (files path) path with
    | .error reason => .error (.level reason path)
    | .ok level => .ok level

/-- The level and the settings of a session. -/
def configuration (levelPath : Option Text) (settingsPath : Text) (settingsFile : FileContent)
    (files : Text → FileContent) : Except ConfigurationError (Settings × Level) :=
  match Settings.load settingsFile settingsPath with
  | .error reason => .error (.settings reason settingsPath)
  | .ok settings => (loadLevel files levelPath).map fun level => (settings, level)

/-- Start the command in a directory whose settings file is the given one. -/
def start (args : List Text) (settingsPath : Text) (settingsFile : FileContent)
    (files : Text → FileContent) : Progress :=
  match ofArguments args with
  | .error e => .over (CommandOutput.empty.fail e.message)
  | .ok .help => .over (CommandOutput.empty.printLines usage)
  | .ok .version => .over (CommandOutput.empty.print (text "cinder-repl " ++ ConsoleLisp.version))
  | .ok (.interact levelPath) =>
    match configuration levelPath settingsPath settingsFile files with
    | .error e =>
      let report : Report Unit := e.report
      .over (CommandOutput.empty.fail report.line)
    | .ok (settings, level) =>
      match Console.create 1 settings.consoleOptions level () with
      | .error fault => .over (CommandOutput.empty.fail fault.report.line)
      | .ok session => .prompting .empty session

/-- Run the command in a directory, on the whole of its standard input. -/
def run (args : List Text) (settingsPath : Text) (d : Directory) (input : Text) : CommandOutput :=
  let progress := start args settingsPath (d.content Settings.fileName) d.content
  (handleAll progress (inputLines input)).output

end PromptCommand

end ConsoleLisp
