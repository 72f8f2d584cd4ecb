import ConsoleLisp.Scope
import ConsoleLisp.Heap.Lists

/-!
# What a native procedure can do

* A `Program` is a run of a native procedure as data: it acts on the heap and on the world of its
  host, asks the session to evaluate, reads the step count and writes to the log. It gets the
  outcome of a heap action or an evaluation back even when that is a fault, so it may catch it.
* A native has no other way to the evaluator, so what is shown of the evaluator for every program
  holds for every native.
* A `Procedure` is a program that may also fail with a `Failure`, the ordinary error of a script.
-/

namespace ConsoleLisp

/-- The ordinary error of an evaluation: the offending value and the kind of error. -/
structure Failure where
  payload : Handle
  code : FailureCode
  deriving DecidableEq

/-- The result of an evaluation. -/
abbrev Outcome := Except Failure Handle

/-- The value or the payload. -/
def Outcome.subject : Outcome → Handle
  | .ok value => value
  | .error failure => failure.payload

/-- The severity of a log message. -/
inductive LogLevel
  | info
  | warn
  deriving DecidableEq, Repr

/-- A message to the host's log. -/
structure LogEntry where
  level : LogLevel
  message : Text
  deriving DecidableEq, Repr

/-- A run of a native procedure. -/
inductive Program (κ ω : Type) (α : Type) : Type 1
  | done (result : α)
  | fault (cause : Fault)
  /-- Act on the heap. -/
  | heap {β : Type} (action : HeapM κ β) (next : Except Fault β → Program κ ω α)
  /-- Act on the world of the host. -/
  | world {β : Type} (action : StateM ω β) (next : β → Program κ ω α)
  /-- Evaluate within the session. -/
  | evaluate (scope : Scope) (e : Handle) (next : Except Fault Outcome → Program κ ω α)
  /-- Read the number of steps counted so far. -/
  | steps (next : Nat → Program κ ω α)
  | log (entry : LogEntry) (next : Program κ ω α)

namespace Program

variable {κ ω α β : Type}

/-- Go on with the result of a program. -/
def bind (p : Program κ ω α) (f : α → Program κ ω β) : Program κ ω β :=
  match p with
  | done result => f result
  | .fault cause => .fault cause
  | .heap action next => .heap action fun answer => (next answer).bind f
  | .world action next => .world action fun answer => (next answer).bind f
  | .evaluate scope e next => .evaluate scope e fun answer => (next answer).bind f
  | .steps next => .steps fun count => (next count).bind f
  | .log entry next => .log entry (next.bind f)

instance : Monad (Program κ ω) where
  pure := done
  bind := bind

/-- The result of an action, or its fault. -/
def ofExcept : Except Fault α → Program κ ω α
  | .ok result => done result
  | .error cause => .fault cause

end Program

/-- A program that may fail as scripts do. -/
abbrev Procedure (κ ω α : Type) := ExceptT Failure (Program κ ω) α

namespace Procedure

variable {κ ω α : Type}

/-- Fail with a payload. -/
def fail (payload : Handle) (code : FailureCode) : Procedure κ ω α := throw ⟨payload, code⟩

/-- Act on the heap; a fault ends the procedure. -/
def onHeap (action : HeapM κ α) : Procedure κ ω α :=
  ExceptT.lift (.heap action Program.ofExcept)

/-- Look at the heap; a fault ends the procedure. -/
def look (f : Heap κ → Except Fault α) : Procedure κ ω α := onHeap (Heap.view f)

/-- Act on the world of the host. -/
def onWorld (action : StateM ω α) : Procedure κ ω α := ExceptT.lift (.world action .done)

/-- Evaluate within the session; a failure is passed on. -/
def evaluate (scope : Scope) (e : Handle) : Procedure κ ω Handle :=
  ExceptT.mk (.evaluate scope e Program.ofExcept)

/-- Write to the log of the host. -/
def log (level : LogLevel) (message : Text) : Procedure κ ω Unit :=
  ExceptT.lift (.log ⟨level, message⟩ (.done ()))

/-- The number of steps counted so far. -/
def steps : Procedure κ ω Nat := ExceptT.lift (.steps .done)

end Procedure

/-! ## Arguments -/

/-- Which numbers of arguments are right. -/
abbrev Arity := Nat → Bool

namespace Arity

def exactly (n : Nat) : Arity := (· == n)

def atLeast (n : Nat) : Arity := fun count => n ≤ count

def between (least most : Nat) : Arity := fun count => least ≤ count && count ≤ most

/-- Bounds that a host sets; one that is not a number bounds nothing. -/
def ofNumbers (least most : Number) : Arity := fun count =>
  !(Number.ofNat count < least) && !(most < Number.ofNat count)

end Arity

/-- Split an argument list and check the number of its items. An improper list and a wrong number
fail with the list itself. -/
def Heap.splitArguments {κ : Type} (heap : Heap κ) (args : Handle) (arity : Arity) :
    Except Fault (Except Failure (List Handle)) := do
  match ← heap.listItems args with
  | none => return .error ⟨args, .typeError⟩
  | some items => if arity items.length then return .ok items else return .error ⟨args, .arity⟩

namespace Procedure

variable {κ ω : Type}

/-- The items of an argument list of the right length. -/
def arguments (args : Handle) (arity : Arity) : Procedure κ ω (List Handle) := do
  match ← look (·.splitArguments args arity) with
  | .ok items => return items
  | .error failure => throw failure

/-- The values of some expressions in order; the first failure ends it. -/
def evaluateAll (scope : Scope) : List Handle → Procedure κ ω (List Handle)
  | [] => return []
  | e :: rest => do
    let value ← evaluate scope e
    let values ← evaluateAll scope rest
    return value :: values

end Procedure

end ConsoleLisp
