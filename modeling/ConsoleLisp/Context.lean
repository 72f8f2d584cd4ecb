import ConsoleLisp.Builtin

/-!
# Contexts

* A `Context` is a root scope and the limits of its sessions; the heap that the scope lives in is
  part of the store it is used with. `Context.create` makes both, with the built-in natives and
  then the host's bound in the root scope.
* `Context.execute` runs one cycle: read a line, evaluate it, print the outcome, collect what the
  root scope does not reach. The outcome is printed before the collection, so a `Cycle` refers to
  no heap.
-/

namespace ConsoleLisp

/-- What a context is made with; a limit that is none takes its default. -/
structure Options (κ : Type) where
  stepLimit : Option Number
  depthLimit : Option Number
  maxHeapSlots : Option Number
  builtins : Bool
  natives : NativeSet κ

/-- Nothing asked for: the built-in natives and no limits but the default ones. -/
def Options.default (κ : Type) : Options κ := ⟨none, none, none, true, []⟩

/-- A root scope and the limits of its sessions. -/
structure Context where
  scope : Scope
  limits : Limits
  deriving DecidableEq, Repr

/-- What became of a line. -/
inductive Cycle
  | ok (output : Text)
  /-- The evaluation failed; the output is the printed payload. -/
  | evalError (output : Text) (code : FailureCode)
  | parseError (message : Text) (location : Location)
  deriving DecidableEq, Repr

/-- The limits that numbers set. What is not a number bounds nothing. -/
def Limits.ofNumbers (steps depth : Option Number) : Limits where
  steps := steps.bind Number.floor?
  depth := match depth with
    | none => some maxEvalDepth
    | some n => Number.ceil? n

/-- Refuse a setting that is no positive whole number. -/
def CountSetting.check (setting : CountSetting) : Option Number → Except Fault Unit
  | none => .ok ()
  | some n => if Number.isPositiveInteger n then .ok () else .error (.notPositiveInteger setting n)

namespace Context

/-- A root scope with natives bound in it. -/
def rootScope {κ : Type} (natives : NativeSet κ) : HeapM κ Scope := do
  let scope ← Scope.root
  natives.install scope
  return scope

/-- A context with a heap of its own. -/
def create {χ : Type} (id : Nat) (options : Options (Action χ)) :
    Except Fault (Context × Heap (Action χ)) := do
  CountSetting.stepLimit.check options.stepLimit
  CountSetting.depthLimit.check options.depthLimit
  CountSetting.maxHeapSlots.check options.maxHeapSlots
  let heap ← Heap.create id (options.maxHeapSlots.getD Number.infinity)
  let builtins := if options.builtins then Builtin.natives else []
  let (scope, heap) := rootScope (builtins ++ options.natives) heap
  return (⟨← scope, .ofNumbers options.stepLimit options.depthLimit⟩, heap)

variable {κ ω ν : Type}

/-- Bind an action of the host under a name, in the root scope. -/
def bindNative (ctx : Context) (name : Text) (native : Native κ) : HeapM κ Unit :=
  NativeSet.bindNative ctx.scope name native

/-- Evaluate in the root scope. -/
def evaluate (ctx : Context) (host : Host κ ω ν) (e : Handle) : StoreM κ ω ν Outcome :=
  ConsoleLisp.evaluate host ctx.limits ctx.scope e

/-- Free what neither the root scope nor the extra roots reach. -/
def collect (ctx : Context) (host : Host κ ω ν) (extraRoots : List Handle) :
    StoreM κ ω ν Collected := do
  let stats ← Store.onHeap (Heap.collect (ctx.scope.chain :: extraRoots))
  modify (Store.note host (.collected stats))
  return stats

/-- Read, evaluate, print and collect. -/
def execute (ctx : Context) (host : Host κ ω ν) (source : Text) : StoreM κ ω ν Cycle := do
  match ← Store.onHeap (Heap.read source) with
  | .error error =>
    let _ ← ctx.collect host []
    return .parseError error.message error.location
  | .ok (e, _) =>
    let outcome ← ctx.evaluate host e
    let output ← Store.onHeap (Heap.view (·.format outcome.subject))
    let _ ← ctx.collect host []
    return match outcome with
      | .ok _ => .ok output
      | .error failure => .evalError output failure.code

end Context

end ConsoleLisp
