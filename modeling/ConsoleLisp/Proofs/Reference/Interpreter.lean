import ConsoleLisp.Context
import ConsoleLisp.Proofs.Value.Tree

/-!
# An interpreter without a heap

The rules of evaluation on trees: a value has no place, the environment is a list of bindings, and
nothing is ever collected. A native is an atom that carries its built-in procedure.

* `evaluate` evaluates a tree. `room` is what the depth limit leaves: an application uses one unit
  of it for everything inside, and without any left it fails.
* `apply` applies a built-in procedure to its unevaluated arguments.
* `execute` reads, evaluates and prints one line, `session` a sequence of lines.
-/

namespace ConsoleLisp

namespace Reference

/-- The values of scripts. -/
abbrev Value := Tree Builtin

/-- The ordinary error of an evaluation. -/
structure Failed where
  payload : Value
  code : FailureCode

/-- The state of a session: bindings and log have the newest entry first. -/
structure State where
  bindings : List (Text × Value)
  /-- The applications counted in the present evaluation. -/
  steps : Nat
  log : List LogEntry

/-- Computations that may fail as scripts do. -/
abbrev Eval (α : Type) := ExceptT Failed (StateM State) α

/-- Fail with a payload. -/
def fail {α : Type} (payload : Value) (code : FailureCode) : Eval α := throw ⟨payload, code⟩

/-! ## Built-in procedures -/

/-- The items of an argument list of the right length. -/
def arguments (args : Value) (arity : Arity) : Eval (List Value) :=
  match args.items? with
  | none => fail args .typeError
  | some items => if arity items.length then return items else fail args .arity

/-- The values of some expressions in order; the first failure ends it. -/
def evaluateAll (evaluate : Value → Eval Value) : List Value → Eval (List Value)
  | [] => return []
  | e :: rest => do
    let value ← evaluate e
    let values ← evaluateAll evaluate rest
    return value :: values

/-- The last of the values of some expressions, or the given one without any. -/
def evaluateSequence (evaluate : Value → Eval Value) (last : Value) : List Value → Eval Value
  | [] => return last
  | e :: rest => do evaluateSequence evaluate (← evaluate e) rest

/-- The numbers among values; a value that is none fails with the expression it came from. -/
def numbers : List (Value × Value) → Eval (List Number)
  | [] => return []
  | (e, value) :: rest =>
    match value.number? with
    | none => fail e .typeError
    | some n => do return n :: (← numbers rest)

/-- Put a binding in front of the environment. -/
def bind (name : Text) (value : Value) : Eval Unit :=
  modify fun s => { s with bindings := (name, value) :: s.bindings }

/-- Write to the log. -/
def log (message : Text) : Eval Unit := modify fun s => { s with log := ⟨.info, message⟩ :: s.log }

/-- What a built-in procedure does on an argument list. -/
def apply (evaluate : Value → Eval Value) : Builtin → Value → Eval Value
  | .quote, args => do
    match ← arguments args (.exactly 1) with
    | [quoted] => return quoted
    | _ => fail args .arity
  | .list, args => do
    let values ← evaluateAll evaluate (← arguments args (.atLeast 0))
    return .ofList values
  | .cons, args => do
    match ← evaluateAll evaluate (← arguments args (.exactly 2)) with
    | [head, tail] => return .pair head tail
    | _ => fail args .arity
  | .part which, args => do
    match ← arguments args (.exactly 1) with
    | [e] =>
      let value ← evaluate e
      match value.pair? with
      | some (head, tail) => return match which with
        | .head => head
        | .tail => tail
      | none => fail e .typeError
    | _ => fail args .arity
  | .arithmetic operation, args => do
    let items ← arguments args (.atLeast (if operation.identity?.isSome then 0 else 1))
    let values ← evaluateAll evaluate items
    let operands ← numbers (items.zip values)
    return .number (operation.fold operands)
  | .begin, args => do
    let items ← arguments args (.atLeast 0)
    evaluateSequence evaluate .nil items
  | .set, args => do
    match ← arguments args (.exactly 2) with
    | [name, e] =>
      match name.symbolName? with
      | none => fail name .typeError
      | some word => do
        let value ← evaluate e
        bind word value
        return value
    | _ => fail args .arity
  | .print, args => do
    let values ← evaluateAll evaluate (← arguments args (.atLeast 0))
    log (Text.join [unit ' '] (values.map Tree.display))
    return .nil

/-! ## Evaluation -/

/-- The value of a tree. An atom is its own value, a symbol has the value of its newest binding, and
a list applies the native that its head denotes to the unevaluated rest. -/
def evaluate (stepLimit : Option Nat) : Nat → Value → Eval Value
  | _, .symbol name => do
    match (← get).bindings.lookup name with
    | some value => return value
    | none => fail (.symbol name) .unboundSymbol
  | 0, .pair head args => fail (.pair head args) .depthExceeded
  | room + 1, .pair head args => do
    modify fun s => { s with steps := s.steps + 1 }
    if stepLimit.any (· < (← get).steps) then fail (.pair head args) .limitExceeded
    else
      match ← evaluate stepLimit room head with
      | .native native => apply (evaluate stepLimit room) native.action args
      | _ => fail head .notCallable
  | _, atom => return atom

/-! ## Sessions -/

/-- What a line is answered when it could be read. -/
def cycleOf : Except Failed Value → Cycle
  | .ok value => .ok value.format
  | .error failed => .evalError failed.payload.format failed.code

/-- Read, evaluate and print one line. -/
def execute (stepLimit : Option Nat) (depthLimit : Nat) (line : Text) (s : State) : Cycle × State :=
  match readDatum line with
  | .error failure => (.parseError failure.error.message failure.error.location, s)
  | .ok (datum, _) =>
    let (result, s) := evaluate stepLimit depthLimit datum.toTree { s with steps := 0 }
    (cycleOf result, s)

/-- Some lines in order. -/
def session (stepLimit : Option Nat) (depthLimit : Nat) : List Text → State → List Cycle × State
  | [], s => ([], s)
  | line :: rest, s =>
    let (cycle, s) := execute stepLimit depthLimit line s
    let (cycles, s) := session stepLimit depthLimit rest s
    (cycle :: cycles, s)

/-- A built-in native with its name. -/
def builtinBinding (b : Builtin) : Text × Value := (b.name, .native ⟨b.name, b⟩)

/-- The state that a session starts in: the built-in natives are bound. -/
def start : State := ⟨Builtin.all.reverse.map builtinBinding, 0, []⟩

end Reference

end ConsoleLisp
