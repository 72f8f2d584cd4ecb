import ConsoleLisp.ErrorCode
import ConsoleLisp.Heap.Cell
import ConsoleLisp.Number.Decimal

/-!
# Faults

A `Fault` ends an operation without a result: misuse of a heap or of a scope, a limit that is none,
or an exception of the host. Evaluation that merely fails is no fault (`Failure`). Each constructor
is one cause; `Fault.message` words it and `Fault.code?` gives the code of those that have one.
-/

namespace ConsoleLisp

/-- A condition that a heap operation cannot recover from. -/
inductive HeapError
  | destroyed (heap : Nat)
  | exhausted (heap : Nat) (maxSlots : Number)
  /-- The handle belongs to another heap. -/
  | foreign (heap : Nat) (handle : Handle)
  /-- The handle names no live allocation. -/
  | stale (heap : Nat) (handle : Handle)
  deriving DecidableEq

/-- The two parts of a pair. -/
inductive PairPart
  | head
  | tail
  deriving DecidableEq, Repr

/-- The settings that must be positive whole numbers. -/
inductive CountSetting
  | stepLimit
  | depthLimit
  | maxHeapSlots
  | logCapacity
  deriving DecidableEq, Repr

/-- Why an operation ends without a result. -/
inductive Fault
  | heap (error : HeapError)
  /-- A part of something that is no pair was to be replaced. -/
  | notPair (part : PairPart) (found : Kind)
  /-- Something that is no symbol was to be bound. -/
  | notSymbol (found : Kind)
  /-- A scope is no pair. -/
  | notScope
  | badNamespace (name : Text)
  | notPositiveInteger (setting : CountSetting) (value : Number)
  | noSlots (maxSlots : Number)
  | duplicateRect (id : Text)
  /-- An exception of the host's own. -/
  | host (message : Text)
  /-- Applications without a depth limit are nested past what the machine holds. -/
  | stackExhausted
  deriving DecidableEq

namespace HeapError

def code : HeapError → ErrorCode
  | destroyed _ => .heapDestroyed
  | exhausted .. => .heapExhausted
  | foreign .. => .foreignHandle
  | stale .. => .staleHandle

def message : HeapError → Text
  | destroyed _ => text "Heap has been destroyed"
  | exhausted _ maxSlots =>
    text "Heap exhausted: " ++ Number.toText maxSlots ++ text " slots in use"
  | foreign heap handle =>
    text "Handle belongs to heap " ++ decimal handle.heap ++ text ", not heap " ++ decimal heap
  | stale _ handle =>
    text "Handle to slot " ++ signedDecimal handle.slot ++ text " was reclaimed by a collection"

end HeapError

/-- The operation that replaces a part of a pair. -/
def PairPart.setter : PairPart → Text
  | head => text "setHead"
  | tail => text "setTail"

def CountSetting.name : CountSetting → Text
  | stepLimit => text "stepLimit"
  | depthLimit => text "depthLimit"
  | maxHeapSlots => text "maxHeapSlots"
  | logCapacity => text "logCapacity"

namespace Fault

def code? : Fault → Option ErrorCode
  | heap error => some error.code
  | _ => none

def message : Fault → Text
  | heap error => error.message
  | notPair part found => part.setter ++ text " expects a pair, got " ++ found.name
  | notSymbol found => text "bind expects a symbol, got " ++ found.name
  | notScope => text "Scope chain must be a pair"
  | badNamespace name =>
    text "Invalid namespace: must be non-empty alphanumeric with hyphens only, got "
      ++ name.inDoubleQuotes
  | notPositiveInteger setting value =>
    setting.name ++ text " must be a positive integer, got " ++ Number.toText value
  | noSlots maxSlots => text "maxSlots must be at least 1, got " ++ Number.toText maxSlots
  | duplicateRect id => text "Duplicate rigid_rect id: " ++ id
  | host message => message
  | stackExhausted => text "Maximum call stack size exceeded"

end Fault

end ConsoleLisp
