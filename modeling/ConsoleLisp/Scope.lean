import ConsoleLisp.Heap.Basic

/-!
# Scopes

* A scope is a heap list of frames, `(frame . parent)`, and a frame a list of `(symbol . value)`
  bindings, the newest first. Scopes are ordinary pairs, so a collection keeps what a scope in its
  roots binds.
* `Scope.bind` puts a binding in front of the local frame; an older one of the same name stays
  behind it. `Heap.lookup` searches the frames outward.
-/

namespace ConsoleLisp

/-- A chain of frames. -/
structure Scope where
  chain : Handle
  deriving DecidableEq, Repr

/-- A binding of a frame. -/
structure Binding where
  name : Text
  value : Handle
  deriving DecidableEq, Repr

namespace Heap

variable {κ : Type}

/-- The two parts of a pair. -/
def pair? (heap : Heap κ) (e : Handle) : Except Fault (Option (Handle × Handle)) :=
  (heap.inspect e).map Cell.pair?

def symbolName? (heap : Heap κ) (e : Handle) : Except Fault (Option Text) :=
  (heap.inspect e).map Cell.symbolName?

/-- The name and the value of a binding. -/
def binding? (heap : Heap κ) (e : Handle) : Except Fault (Option Binding) := do
  match ← heap.pair? e with
  | none => return none
  | some (symbol, value) => return (← heap.symbolName? symbol).map (⟨·, value⟩)

/-- The first binding of a name from `cursor` on; `fuel` bounds the bindings passed. -/
def lookupFrame (heap : Heap κ) (name : Text) : Nat → Handle → Except Fault (Option Handle)
  | 0, _ => .ok none
  | fuel + 1, cursor => do
    match ← heap.pair? cursor with
    | none => return none
    | some (head, tail) =>
      match ← heap.binding? head with
      | some binding =>
        if binding.name = name then return some binding.value else heap.lookupFrame name fuel tail
      | none => heap.lookupFrame name fuel tail

/-- The first binding of a name in the frames from `cursor` on; `fuel` bounds the frames passed. -/
def lookupChain (heap : Heap κ) (name : Text) : Nat → Handle → Except Fault (Option Handle)
  | 0, _ => .ok none
  | fuel + 1, cursor => do
    match ← heap.pair? cursor with
    | none => return none
    | some (frame, parent) =>
      match ← heap.lookupFrame name (heap.slots.size + 1) frame with
      | some value => return some value
      | none => heap.lookupChain name fuel parent

/-- The newest binding of a name, searching outward. -/
def lookupName (heap : Heap κ) (scope : Scope) (name : Text) : Except Fault (Option Handle) :=
  heap.lookupChain name (heap.slots.size + 1) scope.chain

/-- The newest binding of a symbol, searching outward; nothing else is bound. -/
def lookup (heap : Heap κ) (scope : Scope) (symbol : Handle) : Except Fault (Option Handle) := do
  match ← heap.symbolName? symbol with
  | none => return none
  | some name => heap.lookupName scope name

/-- The local frame of a scope and the chain behind it. -/
def frameOf (heap : Heap κ) (scope : Scope) : Except Fault (Handle × Handle) := do
  match ← heap.pair? scope.chain with
  | none => throw .notScope
  | some parts => return parts

/-- The bindings from `cursor` on, after those already met, which are the newest first. -/
def frameBindings (heap : Heap κ) : Nat → List Binding → Handle → Except Fault (List Binding)
  | 0, met, _ => .ok met.reverse
  | fuel + 1, met, cursor => do
    match ← heap.pair? cursor with
    | none => return met.reverse
    | some (head, tail) =>
      let binding ← heap.binding? head
      heap.frameBindings fuel (binding.toList ++ met) tail

/-- The bindings of the local frame, the newest first and shadowed ones included. -/
def bindings (heap : Heap κ) (scope : Scope) : Except Fault (List Binding) := do
  let (frame, _) ← heap.frameOf scope
  heap.frameBindings (heap.slots.size + 1) [] frame

end Heap

namespace Scope

open Heap

variable {κ : Type}

/-- A scope with one empty frame and no parent. -/
def root : HeapM κ Scope := do
  let nil ← nil
  return ⟨← pair nil nil⟩

/-- A child scope with an empty frame. -/
def push (parent : Scope) : HeapM κ Scope := do return ⟨← pair (← nil) parent.chain⟩

/-- Put a binding in front of the local frame. -/
def bind (scope : Scope) (symbol value : Handle) : HeapM κ Unit := do
  let cell ← view (inspect · symbol)
  if cell.symbolName?.isNone then throw (.notSymbol cell.kind)
  let (frame, _) ← view (frameOf · scope)
  let binding ← pair symbol value
  setHead scope.chain (← pair binding frame)

end Scope

end ConsoleLisp
