import ConsoleLisp.Heap.Basic

/-!
# Collection

* `Heap.mark` marks every slot that can be reached from a work list over the parts of pairs. A slot
  is marked once, so sharing costs nothing and cycles end.
* `Heap.sweep` reclaims the unmarked slots in increasing order; each gets the next generation and
  goes to the front of the free list.
* `Heap.collect` keeps nil and what can be reached from the roots.
-/

namespace ConsoleLisp

/-- What a collection leaves and what it frees. -/
structure Collected where
  live : Nat
  freed : Nat
  deriving DecidableEq, Repr

namespace Heap

variable {κ : Type}

/-- The slots that the cell of a slot points to. -/
def linksAt (heap : Heap κ) (slot : Nat) : List Nat :=
  ((heap.cellAt? slot).map Cell.links).getD []

theorem count_false_setIfInBounds {marks : Array Bool} {slot : Nat}
    (h : marks[slot]? = some false) :
    (marks.setIfInBounds slot true).count false < marks.count false := by
  obtain ⟨hlt, hslot⟩ := Array.getElem?_eq_some_iff.mp h
  have hpos : 0 < marks.count false :=
    Array.count_pos_iff.mpr (Array.mem_of_getElem? h)
  rw [Array.setIfInBounds, dif_pos hlt, Array.count_set hlt, hslot, if_pos (by decide),
    if_neg (by decide)]
  omega

/-- Mark what can be reached from the slots to visit. A slot is expanded when it is marked, so the
unmarked slots and the visits left bound the loop. -/
def mark (heap : Heap κ) (work : List Nat) (marks : Array Bool) : Array Bool :=
  match work with
  | [] => marks
  | slot :: work =>
    if h : marks[slot]? = some false then
      have := count_false_setIfInBounds h
      heap.mark (heap.linksAt slot ++ work) (marks.setIfInBounds slot true)
    else heap.mark work marks
termination_by (marks.count false, work.length)

/-- The marks of a collection with the given roots. -/
def reachableMarks (heap : Heap κ) (roots : List Handle) : Array Bool :=
  heap.mark (0 :: roots.map Handle.index) (Array.replicate heap.slots.size false)

/-- Reclaim the cell of a slot. -/
def release (slot : Nat) (heap : Heap κ) : Heap κ :=
  { heap with
    slots := heap.slots.modify slot fun s => ⟨s.generation + 1, none, none⟩
    free := slot :: heap.free
    live := heap.live - 1 }

/-- Reclaim the unmarked cells from a slot on, `count` slots in all. Gives the number reclaimed. -/
def sweep (marks : Array Bool) : Nat → Nat → Nat → Heap κ → Nat × Heap κ
  | 0, _, freed, heap => (freed, heap)
  | count + 1, slot, freed, heap =>
    if (heap.cellAt? slot).isSome && !(marks[slot]?.getD false) then
      sweep marks count (slot + 1) (freed + 1) (heap.release slot)
    else sweep marks count (slot + 1) freed heap

/-- Free all that cannot be reached from the roots. -/
def collect (roots : List Handle) : HeapM κ Collected := do
  view checkUsable
  roots.forM fun root => discard (view (inspect · root))
  fun heap =>
    let (freed, heap) := heap.sweep (heap.reachableMarks roots) heap.slots.size 0 0
    (.ok ⟨heap.live, freed⟩, heap)

end Heap

end ConsoleLisp
