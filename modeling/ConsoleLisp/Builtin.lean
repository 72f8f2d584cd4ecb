import ConsoleLisp.Evaluation.Machine
import ConsoleLisp.Heap.Print
import ConsoleLisp.Native.Set

/-!
# The built-in natives

* Quotation, lists, pairs, arithmetic, sequence, binding and printing. Each gets its arguments
  unevaluated and evaluates those it needs itself, from left to right; the first failure ends it.
* Arithmetic folds its operands from the left. With a single operand subtraction negates and
  division takes the reciprocal; sum and product of nothing are 0 and 1.
* `Action` adds the actions of a host to the built-in ones.
-/

namespace ConsoleLisp

/-- The arithmetic operations. -/
inductive Operation
  | add
  | subtract
  | multiply
  | divide
  deriving DecidableEq, Repr

/-- The built-in procedures. -/
inductive Builtin
  | quote
  | list
  | cons
  | part (part : PairPart)
  | arithmetic (operation : Operation)
  | begin
  | set
  | print
  deriving DecidableEq, Repr

/-- What a native does: a built-in procedure or an action of the host. -/
inductive Action (χ : Type)
  | builtin (procedure : Builtin)
  | custom (action : χ)
  deriving DecidableEq

namespace Operation

/-- The operation on two numbers. -/
def apply : Operation → Number → Number → Number
  | add, a, b => a + b
  | subtract, a, b => a - b
  | multiply, a, b => a * b
  | divide, a, b => a / b

/-- The result on no operands, for the operations that have one. -/
def identity? : Operation → Option Number
  | add => some 0
  | multiply => some 1
  | subtract | divide => none

/-- The operation on one number. -/
def applyOne : Operation → Number → Number
  | subtract, a => -a
  | operation, a => operation.apply (if operation = .add then 0 else 1) a

/-- The operation on some numbers. -/
def fold (operation : Operation) : List Number → Number
  | [] => operation.identity?.getD 0
  | [a] => operation.applyOne a
  | a :: rest => rest.foldl operation.apply a

end Operation

namespace Builtin

variable {κ ω : Type}

open Procedure

/-- The script name. -/
def name : Builtin → Text
  | quote => text "quote"
  | list => text "list"
  | cons => text "cons"
  | part .head => text "car"
  | part .tail => text "cdr"
  | arithmetic .add => text "+"
  | arithmetic .subtract => text "-"
  | arithmetic .multiply => text "*"
  | arithmetic .divide => text "/"
  | begin => text "begin"
  | set => text "set"
  | print => text "print"

/-- Every built-in procedure, in the order in which they are bound. -/
def all : List Builtin :=
  [quote, list, cons, part .head, part .tail, arithmetic .add, arithmetic .subtract,
    arithmetic .multiply, arithmetic .divide, begin, set, print]

/-- The numbers among values; a value that is none fails with the expression it came from. -/
def numbers : List (Handle × Handle) → Procedure κ ω (List Number)
  | [] => return []
  | (e, value) :: rest => do
    match (← look (·.inspect value)).number? with
    | none => fail e .typeError
    | some n => return n :: (← numbers rest)

/-- Evaluate expressions in order; the result is the last value, or the given one without any. -/
def evaluateSequence (scope : Scope) (last : Handle) : List Handle → Procedure κ ω Handle
  | [] => return last
  | e :: rest => do evaluateSequence scope (← Procedure.evaluate scope e) rest

/-- What a built-in procedure does on an argument list. -/
def procedure : Builtin → Scope → Handle → Procedure κ ω Handle
  | quote, _, args => do
    match ← arguments args (.exactly 1) with
    | [quoted] => return quoted
    | _ => fail args .arity
  | list, scope, args => do
    let values ← evaluateAll scope (← arguments args (.atLeast 0))
    onHeap (Heap.list values)
  | cons, scope, args => do
    match ← evaluateAll scope (← arguments args (.exactly 2)) with
    | [head, tail] => onHeap (Heap.pair head tail)
    | _ => fail args .arity
  | part which, scope, args => do
    match ← arguments args (.exactly 1) with
    | [e] =>
      let value ← Procedure.evaluate scope e
      match (← look (·.inspect value)).pair? with
      | some (head, tail) => return match which with
        | .head => head
        | .tail => tail
      | none => fail e .typeError
    | _ => fail args .arity
  | arithmetic operation, scope, args => do
    let items ← arguments args (.atLeast (if operation.identity?.isSome then 0 else 1))
    let values ← evaluateAll scope items
    let operands ← numbers (items.zip values)
    onHeap (Heap.allocate (.number (operation.fold operands)))
  | begin, scope, args => do
    let items ← arguments args (.atLeast 0)
    evaluateSequence scope (← onHeap Heap.nil) items
  | set, scope, args => do
    match ← arguments args (.exactly 2) with
    | [name, e] =>
      if (← look (·.symbolName? name)).isNone then fail name .typeError
      else
        let value ← Procedure.evaluate scope e
        onHeap (scope.bind name value)
        return value
    | _ => fail args .arity
  | print, scope, args => do
    let values ← evaluateAll scope (← arguments args (.atLeast 0))
    let texts ← values.mapM fun value => look (·.display value)
    log .info (Text.join [unit ' '] texts)
    onHeap Heap.nil

/-- The built-in natives. -/
def natives {χ : Type} : NativeSet (Action χ) := all.map fun b => (b.name, ⟨b.name, .builtin b⟩)

end Builtin

/-- The host that gives the built-in procedures their meaning, and its own actions theirs. -/
def Host.withBuiltins {χ ω ν : Type}
    (custom : χ → Scope → Handle → Procedure (Action χ) ω Handle)
    (observe : Event → Heap (Action χ) → List ν) : Host (Action χ) ω ν where
  procedure
    | .builtin b => b.procedure
    | .custom action => custom action
  observe := observe

end ConsoleLisp
