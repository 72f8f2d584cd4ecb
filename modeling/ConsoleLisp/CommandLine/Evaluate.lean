import ConsoleLisp.CommandLine.Output
import ConsoleLisp.Settings

/-!
# The command that evaluates one expression

`EvaluateCommand.run` is a run of the command: its arguments and the settings file of its directory
in, its output out.
-/

namespace ConsoleLisp

/-- What is said of an evaluation that fails. -/
def evalErrorText (output code : Text) : Text :=
  text "Error: " ++ output ++ text " (" ++ code ++ text ")"

/-- The line that tells of a failed cycle. -/
def Cycle.errorLine? : Cycle → Option Text
  | .parseError message location => some (parseErrorText (decimal location.line) message)
  | .evalError output code => some (evalErrorText output code.name)
  | .ok _ => none

/-- One cycle in a context of its own, and the messages that natives logged meanwhile. -/
def evaluateOnce {χ ω ν : Type} (host : Host (Action χ) ω ν) (id : Nat)
    (options : Options (Action χ)) (world : ω) (source : Text) :
    Except Fault Cycle × List LogEntry :=
  match Context.create id options with
  | .error fault => (.error fault, [])
  | .ok (ctx, heap) =>
    let (result, store) := ctx.execute host source ⟨heap, world, [], []⟩
    (result, store.log.reverse)

/-- What the command is asked to do. -/
inductive EvaluateCommand
  | evaluate (expression : Text)
  | help
  | version
  deriving DecidableEq, Repr

namespace EvaluateCommand

/-- The command that the arguments ask for. -/
def ofArguments (args : List Text) : Except UsageError EvaluateCommand :=
  if args.contains (text "--help") then .ok .help
  else if args.contains (text "--version") then .ok .version
  else match args.find? isOption with
    | some argument => .error (.unknownOption argument)
    | none =>
      match args with
      | [] => .ok .help
      | [expression] => .ok (.evaluate expression)
      | _ => .error .severalExpressions

def usage : List String :=
  ["Cinder Expression Evaluator",
    "",
    "Usage:",
    "  cinder-eval <expression>    Evaluate a Cinder expression",
    "  cinder-eval --help          Show this help message",
    "  cinder-eval --version       Show version information",
    "",
    "Examples:",
    "  cinder-eval '(+ 1 2)'",
    "  cinder-eval '(car (quote (a b c)))'",
    "  cinder-eval '(begin (set x 4) (* x x))'"]

/-- The host of the command: it has no actions of its own and observes nothing. -/
def host : Host (Action Empty) Unit Unit := .withBuiltins (fun action => action.elim) fun _ _ => []

/-- Write a message that a native logged. -/
def writeLog (o : CommandOutput) (entry : LogEntry) : CommandOutput :=
  match entry.level with
  | .info => o.print entry.message
  | .warn => o.warn entry.message

/-- Evaluate an expression with some settings. -/
def evaluateWith (settings : Settings) (expression : Text) : CommandOutput :=
  let options : Options (Action Empty) :=
    ⟨settings.stepLimit, none, settings.maxHeapSlots, settings.builtins, []⟩
  let (result, logged) := evaluateOnce host 1 options () expression
  let o := logged.foldl writeLog .empty
  match result with
  | .error fault => o.fail fault.report.line
  | .ok cycle =>
    match cycle.errorLine?, cycle with
    | some line, _ => o.fail line
    | none, .ok output => o.print output
    | none, _ => o

/-- Run the command in a directory whose settings file is the given one. -/
def run (args : List Text) (settingsPath : Text) (settingsFile : FileContent) : CommandOutput :=
  match ofArguments args with
  | .error e => CommandOutput.empty.fail e.message
  | .ok .help => CommandOutput.empty.printLines usage
  | .ok .version => CommandOutput.empty.print (text "cinder-eval " ++ ConsoleLisp.version)
  | .ok (.evaluate expression) =>
    match Settings.load settingsFile settingsPath with
    | .error reason =>
      let report : Report Unit := (ConfigurationError.settings reason settingsPath).report
      CommandOutput.empty.fail report.line
    | .ok settings => evaluateWith settings expression

end EvaluateCommand

end ConsoleLisp
