import ConsoleLisp.Console.Basic

/-!
# Lines at a prompt

`Console.handleLine` trims a line and runs it: nothing for a blank one, a command when it starts
with a colon, otherwise a script line. Commands look at the session and collect garbage; none of
them submits anything.
-/

namespace ConsoleLisp

/-- What a line at the prompt leads to. -/
structure Response where
  /-- Text to print, if any. -/
  output : Option Text
  /-- The lines added to the console's log. -/
  lines : List Line
  shouldExit : Bool
  deriving DecidableEq, Repr

/-- A response that prints and goes on. -/
def Response.print (output : Text) : Response := ⟨some output, [], false⟩

/-- The commands of the prompt. -/
inductive Command
  | quit
  | collect
  | environment
  | rects
  /-- Any other line that starts with a colon. -/
  | unknown (line : Text)
  deriving DecidableEq, Repr

/-- The command that a trimmed line gives, unless it is a script line. -/
def Command.ofLine? (line : Text) : Option Command :=
  if line = text ":quit" then some .quit
  else if line = text ":gc" then some .collect
  else if line = text ":env" then some .environment
  else if line = text ":rects" then some .rects
  else if line.head? = some (unit ':') then some (.unknown line)
  else none

/-- A rectangle, its place and the force on it. -/
def Rect.summary (rect : Rect) : Text :=
  let vec (v : Vec) : Text :=
    unit '(' :: Number.toText v.x ++ text ", " ++ Number.toText v.y ++ [unit ')']
  rect.id ++ text " at " ++ vec rect.position ++ text " force " ++ vec rect.force

/-- The rectangles of a level, one a line. -/
def Level.summary (level : Level) : Text :=
  if level.rects = [] then text "(no rects)"
  else Text.join [unit '\n'] (level.rects.map Rect.summary)

namespace Console

variable {χ σ ν : Type}

/-- Run a command. -/
def runCommand (host : Host (ConsoleAction χ) (Stage σ) ν) : Command → ConsoleM χ σ ν Response
  | .quit => return ⟨none, [], true⟩
  | .collect => do
    let stats ← collect host
    return .print (text "live " ++ decimal stats.live ++ text ", freed " ++ decimal stats.freed)
  | .environment => do
    let bindings ← show ConsoleM χ σ ν _ from fun c => (c.bindings, c)
    let line (binding : Text × Text) : Text := binding.1 ++ text " = " ++ binding.2
    return .print (Text.join [unit '\n'] (bindings.map line))
  | .rects => do return .print (← get).level.summary
  | .unknown line => return .print (text "Unknown command: " ++ line)

/-- Run a line as it was typed. -/
def handleLine (host : Host (ConsoleAction χ) (Stage σ) ν) (line : Text) :
    ConsoleM χ σ ν Response := do
  let line := Text.trim line
  if line = [] then return ⟨none, [], false⟩
  else match Command.ofLine? line with
    | some command => runCommand host command
    | none => return ⟨none, (← submit host line).lines, false⟩

end Console

end ConsoleLisp
