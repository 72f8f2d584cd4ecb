import ConsoleLisp.Evaluation.Program
import ConsoleLisp.Heap.Collection

/-!
# The evaluator

* `evaluateWith` evaluates an expression in a scope: an atom is its own value, a symbol has the
  value of its newest binding, and a list applies the native that its head denotes to the
  unevaluated rest.
* The session counts every application that the depth limit admits; past the step limit an
  application fails. The depth counter is raised around an application and lowered on every way out
  of it.
* The host says what the native procedures do and what it notes of each `Event`, with the heap as
  it is at that moment; the notes end up in the journal of the machine.
* The recursion is on the nesting of applications. A finite depth limit bounds it, so with one the
  `stackExhausted` of the last case does not occur.
-/

namespace ConsoleLisp

/-- The bounds of a session; none bounds nothing. -/
structure Limits where
  steps : Option Nat
  depth : Option Nat
  deriving DecidableEq, Repr

/-- The bound on nested applications when none is asked for. -/
def maxEvalDepth : Nat := 256

/-- How deep applications may nest when no limit says so. -/
def stackCapacity : Nat := 4000

/-- What becomes of an application. -/
inductive Admission
  /-- It is refused: as many applications enclose it as the depth limit allows. -/
  | tooDeep
  /-- It is counted as a step, and there are more steps than the step limit allows. -/
  | overBudget
  /-- It is counted as a step and goes on. -/
  | admitted
  deriving DecidableEq, Repr

/-- What a host can observe. -/
inductive Event
  /-- The application of a form that `enclosing` applications enclose. -/
  | application (form : Handle) (enclosing : Nat) (admission : Admission)
  /-- A native is about to run on its unevaluated arguments. -/
  | call (name : Text) (args : Handle)
  /-- A native has returned. -/
  | return (name : Text) (outcome : Outcome)
  /-- An evaluation from outside has failed. -/
  | failed (failure : Failure)
  /-- A collection has run. -/
  | collected (stats : Collected)

/-- What a host lends to evaluation: the meaning of its natives' actions, and what it notes. -/
structure Host (κ ω ν : Type) : Type 1 where
  procedure : κ → Scope → Handle → Procedure κ ω Handle
  observe : Event → Heap κ → List ν

/-- What evaluation acts on. Log and journal have the newest entry first. -/
structure Store (κ ω ν : Type) where
  heap : Heap κ
  world : ω
  log : List LogEntry
  journal : List ν

/-- A store with the counters of a session. -/
structure Machine (κ ω ν : Type) where
  store : Store κ ω ν
  steps : Nat
  depth : Nat

/-- Actions on a store. -/
abbrev StoreM (κ ω ν α : Type) := ExceptT Fault (StateM (Store κ ω ν)) α

/-- Actions of a session. -/
abbrev Session (κ ω ν α : Type) := ExceptT Fault (StateM (Machine κ ω ν)) α

variable {κ ω ν α : Type}

namespace Store

/-- Note an event. -/
def note (host : Host κ ω ν) (event : Event) (s : Store κ ω ν) : Store κ ω ν :=
  { s with journal := host.observe event s.heap ++ s.journal }

/-- An action on the heap of a store. -/
def onHeap (action : HeapM κ α) : StoreM κ ω ν α := fun ⟨heap, world, log, journal⟩ =>
  let (result, heap) := action heap
  (result, ⟨heap, world, log, journal⟩)

end Store

namespace Session

/-- An action on the store of the session. -/
def onStore (action : StoreM κ ω ν α) : Session κ ω ν α := fun ⟨store, steps, depth⟩ =>
  let (result, store) := action store
  (result, ⟨store, steps, depth⟩)

/-- Look at the heap without changing it. -/
def look (f : Heap κ → Except Fault α) : Session κ ω ν α := onStore (Store.onHeap (Heap.view f))

/-- Note an event. -/
def note (host : Host κ ω ν) (event : Event) : Session κ ω ν Unit :=
  modify fun m => { m with store := m.store.note host event }

/-- Run a body one application deeper. The counter is lowered again however the body ends. -/
def deeper (body : Session κ ω ν α) : Session κ ω ν α := fun ⟨store, steps, depth⟩ =>
  let (result, ⟨store, steps, depth⟩) := body ⟨store, steps, depth + 1⟩
  (result, ⟨store, steps, depth - 1⟩)

end Session

/-- Run a program, with `evaluate` in place of the session's evaluator. -/
def Program.run (evaluate : Scope → Handle → Session κ ω ν Outcome) :
    Program κ ω α → Session κ ω ν α
  | .done result => pure result
  | .fault cause => throw cause
  | .heap action next => fun ⟨⟨before, state, entries, notes⟩, count, depth⟩ =>
    let (answer, after) := action before
    (next answer).run evaluate ⟨⟨after, state, entries, notes⟩, count, depth⟩
  | .world action next => fun ⟨⟨cells, before, entries, notes⟩, count, depth⟩ =>
    let (answer, after) := action before
    (next answer).run evaluate ⟨⟨cells, after, entries, notes⟩, count, depth⟩
  | .evaluate scope e next => fun m =>
    let (answer, m) := evaluate scope e m
    (next answer).run evaluate m
  | .steps next => fun m => (next m.steps).run evaluate m
  | .log entry next => fun m =>
    next.run evaluate { m with store := { m.store with log := entry :: m.store.log } }

/-- Call a native on its unevaluated arguments. -/
def callNative (host : Host κ ω ν) (evaluate : Scope → Handle → Session κ ω ν Outcome)
    (native : Native κ) (scope : Scope) (args : Handle) : Session κ ω ν Outcome := do
  Session.note host (.call native.name args)
  let outcome ← (host.procedure native.action scope args).run.run evaluate
  Session.note host (.return native.name outcome)
  return outcome

/-- The value of the head of a form: symbols and lists are evaluated, all else stands for itself. -/
def operatorOf (evaluate : Scope → Handle → Session κ ω ν Outcome) (scope : Scope) (head : Handle) :
    Session κ ω ν Outcome := do
  match ← Session.look (·.kindOf head) with
  | .symbol | .pair => evaluate scope head
  | _ => return .ok head

/-- Apply a form that the step limit admits. -/
def applyForm (host : Host κ ω ν) (evaluate : Scope → Handle → Session κ ω ν Outcome)
    (scope : Scope) (head args : Handle) : Session κ ω ν Outcome := do
  match ← operatorOf evaluate scope head with
  | .error failure => return .error failure
  | .ok operator =>
    match ← Session.look (·.inspect operator) with
    | .native native => callNative host evaluate native scope args
    | _ => return .error ⟨head, .notCallable⟩

/-- Apply a form: check the depth, count the step, check the count. -/
def dispatch (host : Host κ ω ν) (limits : Limits)
    (evaluate : Scope → Handle → Session κ ω ν Outcome) (scope : Scope) (form head args : Handle) :
    Session κ ω ν Outcome := do
  let enclosing := (← get).depth
  if limits.depth.any (· ≤ enclosing) then
    Session.note host (.application form enclosing .tooDeep)
    return .error ⟨form, .depthExceeded⟩
  else Session.deeper do
    modify fun m => { m with steps := m.steps + 1 }
    if limits.steps.any (· < (← get).steps) then
      Session.note host (.application form enclosing .overBudget)
      return .error ⟨form, .limitExceeded⟩
    else
      Session.note host (.application form enclosing .admitted)
      applyForm host evaluate scope head args

/-- Evaluate an expression; `fuel` bounds the nesting of applications. -/
def evaluateWith (host : Host κ ω ν) (limits : Limits) :
    Nat → Scope → Handle → Session κ ω ν Outcome
  | 0, _, _ => throw .stackExhausted
  | fuel + 1, scope, e => do
    match ← Session.look (·.inspect e) with
    | .symbol name =>
      match ← Session.look (·.lookupName scope name) with
      | some value => return .ok value
      | none => return .error ⟨e, .unboundSymbol⟩
    | .pair head args => dispatch host limits (evaluateWith host limits fuel) scope e head args
    | _ => return .ok e

/-- The nesting that a session makes room for. -/
def Limits.nesting (limits : Limits) : Nat := limits.depth.getD stackCapacity + 1

/-- Evaluate an expression in a session of its own. -/
def evaluate (host : Host κ ω ν) (limits : Limits) (scope : Scope) (e : Handle) :
    StoreM κ ω ν Outcome := do
  let outcome ← show StoreM κ ω ν Outcome from fun store =>
    let (result, m) := evaluateWith host limits limits.nesting scope e ⟨store, 0, 0⟩
    (result, m.store)
  if let .error failure := outcome then modify (Store.note host (.failed failure))
  return outcome

end ConsoleLisp
