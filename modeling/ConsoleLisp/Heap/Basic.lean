import ConsoleLisp.Fault

/-!
# The heap

* A `Heap` is an arena of slots. A slot holds a cell or is free, and its generation counts how often
  it was reclaimed. Allocation takes the free slot reclaimed last, else a new one while the limit
  allows it; slot 0 holds nil from the start.
* `Heap.inspect` accepts exactly the handles of live allocations of this heap, so a handle that
  outlived its value is refused instead of naming a newer one.
* `HeapM` are the actions on a heap. A fault ends the action and keeps the heap as it then is; the
  operations of this module change nothing when they fault.
-/

namespace ConsoleLisp

/-- One place of the arena. -/
structure Slot (κ : Type) where
  generation : Nat
  cell : Option (Cell κ)
  /-- The handle that was given out for the cell. -/
  handle : Option Handle

/-- An arena of cells. -/
structure Heap (κ : Type) where
  id : Nat
  /-- The number of slots allowed, as it was asked for: at least 1, perhaps infinite. -/
  maxSlots : Number
  slots : Array (Slot κ)
  /-- The slots without a cell, the one reclaimed last in front. -/
  free : List Nat
  /-- The number of slots with a cell. -/
  live : Nat
  destroyed : Bool

/-- Actions on a heap. -/
abbrev HeapM (κ α : Type) := ExceptT Fault (StateM (Heap κ)) α

namespace Heap

variable {κ : Type}

/-! ## Creation -/

/-- A heap that holds nil. -/
def create (id : Nat) (maxSlots : Number) : Except Fault (Heap κ) :=
  if Number.isAtLeastOne maxSlots then
    .ok ⟨id, maxSlots, #[⟨0, some .nil, some ⟨id, 0, 0⟩⟩], [], 1, false⟩
  else .error (.noSlots maxSlots)

/-- How many slots the heap may use; none when there is no bound. -/
def capacity? (heap : Heap κ) : Option Nat := Number.ceil? heap.maxSlots

/-- No slot can be added. -/
def isFull (heap : Heap κ) : Bool := heap.capacity?.any (· ≤ heap.slots.size)

/-! ## Inspection -/

/-- The cell of a slot, if it has one. -/
def cellAt? (heap : Heap κ) (slot : Nat) : Option (Cell κ) := heap.slots[slot]?.bind Slot.cell

/-- The generation of a slot, 0 for a slot that was never used. -/
def generationAt (heap : Heap κ) (slot : Nat) : Nat :=
  (heap.slots[slot]?.map Slot.generation).getD 0

/-- The handle that names the present allocation of a slot. -/
def handleAt (heap : Heap κ) (slot : Nat) : Handle := ⟨heap.id, slot, heap.generationAt slot⟩

/-- Refuse a destroyed heap. -/
def checkUsable (heap : Heap κ) : Except Fault Unit :=
  if heap.destroyed then .error (.heap (.destroyed heap.id)) else .ok ()

/-- The cell that a handle names. -/
def inspect (heap : Heap κ) (e : Handle) : Except Fault (Cell κ) :=
  if heap.destroyed then .error (.heap (.destroyed heap.id))
  else if e.heap ≠ heap.id then .error (.heap (.foreign heap.id e))
  else
    match heap.slots[e.index]? with
    | some ⟨generation, some cell, _⟩ =>
      if e = ⟨heap.id, e.index, generation⟩ then .ok cell else .error (.heap (.stale heap.id e))
    | _ => .error (.heap (.stale heap.id e))

/-- The handle names a live allocation of this heap. -/
def isLive (heap : Heap κ) (e : Handle) : Bool :=
  !heap.destroyed && e == heap.handleAt e.index && (heap.cellAt? e.index).isSome

/-- The handles of the live allocations in the order of the slots. -/
def liveHandles (heap : Heap κ) : Except Fault (List Handle) := do
  heap.checkUsable
  return heap.slots.toList.filterMap Slot.handle

/-- The live allocations in the order of the slots. -/
def liveCells (heap : Heap κ) : Except Fault (List (Handle × Cell κ)) := do
  (← heap.liveHandles).mapM fun e => return (e, ← heap.inspect e)

def kindOf (heap : Heap κ) (e : Handle) : Except Fault Kind := (heap.inspect e).map Cell.kind

/-! ## Actions -/

/-- Look at the heap without changing it. -/
def view {α : Type} (look : Heap κ → Except Fault α) : HeapM κ α := fun heap => (look heap, heap)

/-- Put a cell into a free slot or a new one. -/
def allocate (cell : Cell κ) : HeapM κ Handle := fun heap =>
  if heap.destroyed then (.error (.heap (.destroyed heap.id)), heap)
  else
    match heap.free with
    | slot :: free =>
      let handle := heap.handleAt slot
      (.ok handle, { heap with
        slots := heap.slots.modify slot fun s => ⟨s.generation, some cell, some handle⟩
        free := free
        live := heap.live + 1 })
    | [] =>
      if heap.isFull then (.error (.heap (.exhausted heap.id heap.maxSlots)), heap)
      else
        let handle : Handle := ⟨heap.id, heap.slots.size, 0⟩
        (.ok handle, { heap with
          slots := heap.slots.push ⟨0, some cell, some handle⟩
          live := heap.live + 1 })

/-- The one nil of the heap. -/
def nil : HeapM κ Handle := do
  view checkUsable
  return ⟨(← get).id, 0, 0⟩

/-- A new pair of two live values. -/
def pair (head tail : Handle) : HeapM κ Handle := do
  let _ ← view (inspect · head)
  let _ ← view (inspect · tail)
  allocate (.pair head tail)

/-- A pair with one part replaced. -/
def replacePart (part : PairPart) (value head tail : Handle) : Cell κ :=
  match part with
  | .head => .pair value tail
  | .tail => .pair head value

/-- Replace the cell of a slot in use. -/
def overwrite (slot : Nat) (cell : Cell κ) (heap : Heap κ) : Heap κ :=
  { heap with slots := heap.slots.modify slot fun s => { s with cell := some cell } }

/-- Replace a part of a pair by a live value. -/
def setPart (part : PairPart) (e value : Handle) : HeapM κ Unit := do
  match ← view (inspect · e) with
  | .pair head tail =>
    let _ ← view (inspect · value)
    modify (overwrite e.index (replacePart part value head tail))
  | cell => throw (.notPair part cell.kind)

def setHead (e value : Handle) : HeapM κ Unit := setPart .head e value

def setTail (e value : Handle) : HeapM κ Unit := setPart .tail e value

/-- Free everything; the heap cannot be used afterwards. Gives the number of values freed. -/
def destroy (heap : Heap κ) : Nat × Heap κ :=
  (heap.live, { heap with slots := #[], free := [], live := 0, destroyed := true })

end Heap

end ConsoleLisp
