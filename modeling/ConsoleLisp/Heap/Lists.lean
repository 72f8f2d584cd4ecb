import ConsoleLisp.Datum.Reader
import ConsoleLisp.Heap.Basic

/-!
# Lists in a heap

* `Heap.listItems` splits a proper list into its items; an improper or cyclic list has none. The
  tails of an acyclic list are distinct slots, so a walk longer than the heap is cyclic.
* `Heap.list` builds a list from its items, the last pair first.
* `Heap.load` gives a datum its place: an atom where it stands, the items of a list in order and
  then its pairs from the last to the first.
-/

namespace ConsoleLisp

namespace Heap

variable {κ : Type}

/-- Walk along the tails, collecting the items met, the newest first. -/
def walkList (heap : Heap κ) : Nat → List Handle → Handle → Except Fault (Option (List Handle))
  | 0, _, _ => .ok none
  | fuel + 1, items, e =>
    match heap.inspect e with
    | .error fault => .error fault
    | .ok .nil => .ok (some items.reverse)
    | .ok (.pair head tail) => heap.walkList fuel (head :: items) tail
    | .ok _ => .ok none

/-- The items of a proper list. -/
def listItems (heap : Heap κ) (e : Handle) : Except Fault (Option (List Handle)) :=
  heap.walkList (heap.slots.size + 1) [] e

/-- The items in front of a tail. -/
def listOnto (items : List Handle) (tail : Handle) : HeapM κ Handle := items.foldrM pair tail

/-- The proper list of the items. -/
def list (items : List Handle) : HeapM κ Handle := do listOnto items (← nil)

/-- Give a datum its place in the heap. -/
def load : Datum → HeapM κ Handle
  | .nil => nil
  | .number value => allocate (.number value)
  | .symbol name => allocate (.symbol name)
  | .string value => allocate (.string value)
  | .quoted datum => do
    let quoted ← load datum
    let word ← allocate (.symbol (text "quote"))
    list [word, quoted]
  | .cons head tail => do
    let head ← load head
    let tail ← load tail
    pair head tail

/-- Read the first datum of a text, and the offset behind it. The data inside it that were complete
before a failure are loaded all the same. -/
def read (source : Text) : HeapM κ (Except ReadError (Handle × Nat)) :=
  match readDatum source with
  | .ok (datum, stop) => return .ok (← load datum, stop)
  | .error failure => do
    failure.completed.forM fun datum => discard (load datum)
    return .error failure.error

/-- Read every datum of a text. -/
def readAll (source : Text) : HeapM κ (Except ReadError (List Handle)) := do
  let (data, failure) := readData source
  let handles ← data.mapM load
  match failure with
  | none => return .ok handles
  | some failure =>
    failure.completed.forM fun datum => discard (load datum)
    return .error failure.error

end Heap

end ConsoleLisp
