import ConsoleLisp.Context
import ConsoleLisp.Level.Natives

/-!
# The script console

* A `Console` runs one cycle for each line submitted to it and keeps a bounded log of what happened
  and an unbounded history of the lines.
* `Cycle.entries` are the log lines of one cycle: the source, what the natives logged meanwhile,
  and the outcome. A line that does not parse appears as an error, with the reader's message behind
  it.
* A line during which a fault occurs enters the history only; what natives logged by then is lost.
-/

namespace ConsoleLisp

/-- What a line of the log is. -/
inductive LineKind
  | input
  | output
  | info
  | warn
  | error
  deriving DecidableEq, Repr

/-- A line of the log. -/
structure Line where
  text : Text
  kind : LineKind
  deriving DecidableEq, Repr

/-- The log lines kept when nothing else is asked for. -/
def defaultLogCapacity : Nat := 10

/-- The line of a message that a native logged. -/
def LogEntry.line (entry : LogEntry) : Line :=
  ⟨entry.message, match entry.level with
    | .info => .info
    | .warn => .warn⟩

/-- The log lines of one cycle. -/
def Cycle.entries (source : Text) (logged : List LogEntry) (echo : Bool) : Cycle → List Line
  | .parseError message _ => [⟨source, .error⟩, ⟨message, .error⟩]
  | .evalError output _ =>
    ⟨source, .input⟩ :: logged.map LogEntry.line ++ [⟨text "Error: " ++ output, .error⟩]
  | .ok output =>
    ⟨source, .input⟩ :: logged.map LogEntry.line ++ if echo then [⟨output, .output⟩] else []

/-- Add a line to a log, dropping the oldest when there are more than the capacity. -/
def pushLine (capacity : Nat) (log : List Line) (line : Line) : List Line :=
  let log := log ++ [line]
  if capacity < log.length then log.drop 1 else log

/-- What a console is made with. -/
structure ConsoleOptions where
  stepLimit : Option Number
  depthLimit : Option Number
  maxHeapSlots : Option Number
  builtins : Bool
  logCapacity : Option Number
  echoResults : Bool

/-- The actions that a console can run. -/
abbrev ConsoleAction (χ : Type) := Action (LevelAction χ)

/-- A console over a level. -/
structure Console (χ σ ν : Type) where
  context : Context
  store : Store (ConsoleAction χ) (Stage σ) ν
  capacity : Nat
  echo : Bool
  /-- The log, the oldest line first. -/
  log : List Line
  /-- Every line submitted, the oldest first. -/
  history : List Text

/-- Actions of a console. -/
abbrev ConsoleM (χ σ ν α : Type) := ExceptT Fault (StateM (Console χ σ ν)) α

/-- What came of a line: its cycle and the lines it added to the log. -/
structure Submission where
  cycle : Cycle
  lines : List Line
  deriving DecidableEq, Repr

namespace Console

variable {χ σ ν α : Type}

/-- A console with a heap of its own. -/
def create (id : Nat) (options : ConsoleOptions) (level : Level) (host : σ) :
    Except Fault (Console χ σ ν) := do
  CountSetting.logCapacity.check options.logCapacity
  let capacity := (options.logCapacity.map Number.wholePart).getD defaultLogCapacity
  let (context, heap) ← Context.create id
    ⟨options.stepLimit, options.depthLimit, options.maxHeapSlots, options.builtins,
      LevelAction.natives⟩
  return ⟨context, ⟨heap, ⟨level, host⟩, [], []⟩, capacity, options.echoResults, [], []⟩

def level (c : Console χ σ ν) : Level := c.store.world.level

def heap (c : Console χ σ ν) : Heap (ConsoleAction χ) := c.store.heap

/-- An action on the store of a console. -/
def onStore (action : StoreM (ConsoleAction χ) (Stage σ) ν α) : ConsoleM χ σ ν α :=
  fun ⟨context, store, capacity, echo, log, history⟩ =>
    let (result, store) := action store
    (result, ⟨context, store, capacity, echo, log, history⟩)

/-- Change the level of a console. -/
def withLevel (level : Level) (c : Console χ σ ν) : Console χ σ ν :=
  { c with store := { c.store with world := { c.store.world with level } } }

/-- Run one line. -/
def submit (host : Host (ConsoleAction χ) (Stage σ) ν) (source : Text) :
    ConsoleM χ σ ν Submission := do
  modify fun c => { c with history := c.history ++ [source] }
  let ctx := (← get).context
  onStore (modify fun store => { store with log := [] })
  let cycle ← onStore (ctx.execute host source)
  let c ← get
  let lines := cycle.entries source c.store.log.reverse c.echo
  modify fun c => { c with
    store := { c.store with log := [] }
    log := lines.foldl (pushLine c.capacity) c.log }
  return ⟨cycle, lines⟩

/-- The line submitted `back` lines before the newest one. -/
def historyLine? (c : Console χ σ ν) (back : Number) : Option Text :=
  if Number.isInteger back && (!Number.isNegative back || Number.scaled back == 0) then
    c.history.reverse[Number.wholePart back]?
  else none

/-- The bindings of the root scope, the newest first, with their values printed. -/
def bindings (c : Console χ σ ν) : Except Fault (List (Text × Text)) := do
  let bindings ← c.heap.bindings c.context.scope
  bindings.mapM fun binding => do return (binding.name, ← c.heap.format binding.value)

/-- Free what the root scope does not reach. -/
def collect (host : Host (ConsoleAction χ) (Stage σ) ν) : ConsoleM χ σ ν Collected := do
  let ctx := (← get).context
  onStore (ctx.collect host [])

/-- Free everything; the console cannot be used afterwards. -/
def destroy : ConsoleM χ σ ν Nat := onStore <| Store.onHeap fun heap =>
  let (freed, heap) := heap.destroy
  (.ok freed, heap)

end Console

end ConsoleLisp
