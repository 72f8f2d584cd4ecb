import ConsoleLisp.Heap.Basic
import Mathlib.Data.List.Nodup
import Mathlib.Data.List.Perm.Subperm

/-!
# The representation invariant of a heap

`Heap.Consistent` says how the slots, the free list and the counter of a usable heap fit together,
and `Heap.WellFormed` adds the first nil and that no pair points outside the live allocations. A
slot keeps its generation, its cell and its handle together, so these never differ in number.
`Heap.cell?` is the heap as a partial map from handles to cells, which is all that a client can see
of it.

Results:
* `inspect_eq_of_cell?`: what `inspect` answers is a function of `cell?`.
* **`allocate_spec`**: an allocation is refused because the heap is full, or gives a handle that was
  not live and changes `cell?` there only.
* **`overwrite_spec`**: replacing the cell of a live handle changes `cell?` there only.
* **`lt_size_of_descent`**: a walk that comes to an end has fewer steps than there are slots.
* `live_add_free`: the live and the free slots are all slots.
-/

namespace ConsoleLisp

namespace Heap

variable {κ : Type}

/-! ## Handles and cells -/

/-- The handle of the nil that a heap is created with. -/
def nilHandle (heap : Heap κ) : Handle := ⟨heap.id, 0, 0⟩

/-- The cell that a live handle names. -/
def cell? (heap : Heap κ) (e : Handle) : Option (Cell κ) := (heap.inspect e).toOption

theorem inspect_eq_ok_iff {heap : Heap κ} {e : Handle} {c : Cell κ} :
    heap.inspect e = .ok c ↔ heap.cell? e = some c := by
  unfold cell?
  cases heap.inspect e <;> simp [Except.toOption]

theorem cell?_eq_some_iff {heap : Heap κ} {e : Handle} {c : Cell κ} :
    heap.cell? e = some c ↔ heap.destroyed = false ∧
      ∃ s, heap.slots[e.index]? = some s ∧ s.cell = some c ∧
        e = ⟨heap.id, e.index, s.generation⟩ := by
  rw [← inspect_eq_ok_iff]
  unfold inspect
  cases hd : heap.destroyed with
  | true => simp
  | false =>
    by_cases hid : e.heap = heap.id
    · rcases hs : heap.slots[e.index]? with _ | ⟨g, _ | cell, h⟩
      · simp [hid]
      · simp [hid]
      · by_cases he : e = ⟨heap.id, e.index, g⟩
        · simp [hid, ← he]
        · simp [hid, he]
    · simp only [Bool.false_eq_true, if_false, ne_eq, hid, not_false_eq_true, if_true, true_and,
        reduceCtorEq, false_iff, not_exists, not_and]
      intro s _ _ he
      exact hid (congrArg Handle.heap he)

/-- What `inspect` answers: first whether the heap is in use, then whose the handle is, then
whether it is live. -/
theorem inspect_eq (heap : Heap κ) (e : Handle) :
    heap.inspect e =
      if heap.destroyed = true then .error (.heap (.destroyed heap.id))
      else if e.heap ≠ heap.id then .error (.heap (.foreign heap.id e))
      else match heap.cell? e with
        | some cell => .ok cell
        | none => .error (.heap (.stale heap.id e)) := by
  cases hc : heap.cell? e with
  | some cell =>
    obtain ⟨hd, s, -, -, he⟩ := cell?_eq_some_iff.mp hc
    have hid : e.heap = heap.id := congrArg Handle.heap he
    rw [inspect_eq_ok_iff.mpr hc, hd, if_neg Bool.false_ne_true, if_neg (not_not.mpr hid)]
  | none =>
    unfold cell? inspect at hc
    unfold inspect
    split
    · rfl
    · split
      · rfl
      · split
        · split
          · rename_i h1 h2 _ _ _ _ h3 h4
            rw [if_neg h1, if_neg h2, h3] at hc
            simp only [if_pos h4, Except.toOption, reduceCtorEq] at hc
          · rfl
        · rfl

/-- **What `inspect` answers is a function of `cell?`**, for heaps of one identity. -/
theorem inspect_eq_of_cell? {heap heap' : Heap κ} {e : Handle} (hid : heap'.id = heap.id)
    (hd : heap'.destroyed = heap.destroyed) (hc : heap'.cell? e = heap.cell? e) :
    heap'.inspect e = heap.inspect e := by
  rw [inspect_eq heap', inspect_eq heap, hid, hd, hc]

/-- What a handle names is decided by its slot. -/
theorem cell?_congr {heap heap' : Heap κ} {e : Handle} (hid : heap'.id = heap.id)
    (hd : heap'.destroyed = heap.destroyed)
    (hs : heap'.slots[e.index]? = heap.slots[e.index]?) : heap'.cell? e = heap.cell? e := by
  refine Option.ext fun c => ?_
  rw [cell?_eq_some_iff, cell?_eq_some_iff, hid, hd, hs]

theorem isLive_iff {heap : Heap κ} {e : Handle} :
    heap.isLive e = true ↔ ∃ c, heap.cell? e = some c := by
  simp only [cell?_eq_some_iff, isLive, handleAt, generationAt, cellAt?, Bool.and_eq_true,
    Bool.not_eq_true', beq_iff_eq, Option.isSome_iff_exists, Option.bind_eq_some_iff]
  constructor
  · rintro ⟨⟨hd, he⟩, c, s, hs, hc⟩
    rw [hs] at he
    exact ⟨c, hd, s, hs, hc, he⟩
  · rintro ⟨c, hd, s, hs, hc, he⟩
    refine ⟨⟨hd, ?_⟩, c, s, hs, hc⟩
    rw [hs]
    exact he

theorem isLive_of_cell? {heap : Heap κ} {e : Handle} {c : Cell κ} (h : heap.cell? e = some c) :
    heap.isLive e = true :=
  isLive_iff.mpr ⟨c, h⟩

/-- A live handle is the one of its slot. -/
theorem cell?_eq_cellAt? {heap : Heap κ} {e : Handle} {c : Cell κ} (h : heap.cell? e = some c) :
    heap.cellAt? e.index = some c := by
  obtain ⟨-, s, hs, hc, -⟩ := cell?_eq_some_iff.mp h
  simp only [cellAt?, hs, Option.bind_some, hc]

/-- Two live handles of one slot are the same. -/
theorem eq_of_index_eq {heap : Heap κ} {e f : Handle} {c d : Cell κ} (he : heap.cell? e = some c)
    (hf : heap.cell? f = some d) (h : e.index = f.index) : e = f := by
  obtain ⟨-, s, hs, -, hes⟩ := cell?_eq_some_iff.mp he
  obtain ⟨-, t, ht, -, hft⟩ := cell?_eq_some_iff.mp hf
  rw [h, ht] at hs
  cases hs
  rw [hes, hft, h]

theorem index_lt {heap : Heap κ} {e : Handle} {c : Cell κ} (h : heap.cell? e = some c) :
    e.index < heap.slots.size := by
  obtain ⟨-, s, hs, -⟩ := cell?_eq_some_iff.mp h
  exact (Array.getElem?_eq_some_iff.mp hs).1

/-- Distinct live handles are no more than there are slots. -/
theorem length_le_of_nodup {heap : Heap κ} {handles : List Handle} (hnodup : handles.Nodup)
    (hlive : ∀ e ∈ handles, ∃ c, heap.cell? e = some c) : handles.length ≤ heap.slots.size := by
  have hindices : (handles.map Handle.index).Nodup := by
    refine List.Nodup.map_on (fun e he f hf hef => ?_) hnodup
    obtain ⟨c, hc⟩ := hlive e he
    obtain ⟨d, hd⟩ := hlive f hf
    exact eq_of_index_eq hc hd hef
  have hsub : handles.map Handle.index ⊆ List.range heap.slots.size := by
    intro i hi
    obtain ⟨e, he, rfl⟩ := List.mem_map.mp hi
    obtain ⟨c, hc⟩ := hlive e he
    exact List.mem_range.mpr (index_lt hc)
  have hle := (hindices.subperm hsub).length_le
  rwa [List.length_map, List.length_range] at hle

section Descent

/-! `P n e` stands for a walk that has `n` steps left at `e`. -/

variable {P : Nat → Handle → Prop} (hunique : ∀ n m e, P n e → P m e → n = m)
  (hnext : ∀ n e, P (n + 1) e → ∃ f, P n f)
include hunique hnext

/-- No handle is met twice on the way: from no two of them is it as far. -/
theorem exists_spine_of_descent {n : Nat} {e : Handle} (h : P n e) :
    ∃ spine : List Handle, spine.length = n + 1 ∧ spine.Nodup ∧
      ∀ f ∈ spine, ∃ k ≤ n, P k f := by
  induction n generalizing e with
  | zero =>
    refine ⟨[e], rfl, List.nodup_singleton e, fun f hf => ?_⟩
    rw [List.mem_singleton.mp hf]
    exact ⟨0, Nat.le_refl 0, h⟩
  | succ n ih =>
    obtain ⟨next, hrest⟩ := hnext n e h
    obtain ⟨spine, hlength, hnodup, hspine⟩ := ih hrest
    have hfresh : e ∉ spine := fun hmem => by
      obtain ⟨k, hk, hfar⟩ := hspine e hmem
      have hsame := hunique _ _ e h hfar
      omega
    refine ⟨e :: spine, congrArg (· + 1) hlength, List.nodup_cons.mpr ⟨hfresh, hnodup⟩,
      fun f hf => ?_⟩
    rcases List.mem_cons.mp hf with rfl | hf
    · exact ⟨n + 1, Nat.le_refl _, h⟩
    · obtain ⟨k, hk, hfar⟩ := hspine f hf
      exact ⟨k, Nat.le_succ_of_le hk, hfar⟩

/-- **A walk through live handles that comes to an end has fewer steps than there are slots.** -/
theorem lt_size_of_descent {heap : Heap κ} (hlive : ∀ n e, P n e → ∃ c, heap.cell? e = some c)
    {n : Nat} {e : Handle} (h : P n e) : n < heap.slots.size := by
  obtain ⟨spine, hlength, hnodup, hspine⟩ := exists_spine_of_descent hunique hnext h
  have hle := length_le_of_nodup hnodup fun f hf => by
    obtain ⟨k, -, hfar⟩ := hspine f hf
    exact hlive k f hfar
  omega

end Descent

/-! ## The invariant -/

/-- The slots, the free list and the counter of a usable heap agree. -/
structure Consistent (heap : Heap κ) : Prop where
  usable : heap.destroyed = false
  /-- A slot has a handle when it has a cell, and that handle names the slot and its generation. -/
  handle_eq : ∀ (i : Nat) (s : Slot κ), heap.slots[i]? = some s →
    s.handle = s.cell.map fun _ => ⟨heap.id, i, s.generation⟩
  free_nodup : heap.free.Nodup
  /-- The free list has the slots without a cell. -/
  mem_free_iff : ∀ i, i ∈ heap.free ↔ ∃ s, heap.slots[i]? = some s ∧ s.cell = none
  live_eq : heap.live = (List.range heap.slots.size).countP fun i => (heap.cellAt? i).isSome

/-- The state of a heap that clients rely on. -/
structure WellFormed (heap : Heap κ) : Prop extends heap.Consistent where
  /-- Slot 0 holds nil under the handle it was created with. -/
  nil_slot : heap.slots[0]? = some ⟨0, some .nil, some heap.nilHandle⟩
  /-- The parts of a pair are live. -/
  parts_live : ∀ i head tail, heap.cellAt? i = some (.pair head tail) →
    heap.isLive head = true ∧ heap.isLive tail = true

/-- Without duplicates, the free list is as long as there are slots without a cell. -/
theorem countP_add_length_free {heap : Heap κ} (hn : heap.free.Nodup)
    (hf : ∀ i, i ∈ heap.free ↔ ∃ s, heap.slots[i]? = some s ∧ s.cell = none) :
    (List.range heap.slots.size).countP (fun i => (heap.cellAt? i).isSome) + heap.free.length =
      heap.slots.size := by
  have hperm : heap.free.Perm
      ((List.range heap.slots.size).filter fun i => ¬ (heap.cellAt? i).isSome) := by
    refine (List.perm_ext_iff_of_nodup hn (List.nodup_range.filter _)).mpr fun i => ?_
    rw [hf, List.mem_filter, List.mem_range]
    constructor
    · rintro ⟨s, hs, hc⟩
      exact ⟨(Array.getElem?_eq_some_iff.mp hs).1, by simp [cellAt?, hs, hc]⟩
    · rintro ⟨hlt, hc⟩
      have hs := Array.getElem?_eq_getElem hlt
      refine ⟨_, hs, ?_⟩
      simpa [cellAt?, hs] using hc
  have hsum := List.length_eq_countP_add_countP (fun i => (heap.cellAt? i).isSome)
    (l := List.range heap.slots.size)
  rw [List.length_range] at hsum
  rw [hperm.length_eq, ← List.countP_eq_length_filter]
  exact hsum.symm

/-- **The live and the free slots are all slots.** -/
theorem Consistent.live_add_free {heap : Heap κ} (c : heap.Consistent) :
    heap.live + heap.free.length = heap.slots.size := by
  rw [c.live_eq]
  exact countP_add_length_free c.free_nodup c.mem_free_iff

/-- The counter follows from the length of the free list. -/
theorem Consistent.of_live_add_free {heap : Heap κ} (hd : heap.destroyed = false)
    (hh : ∀ (i : Nat) (s : Slot κ), heap.slots[i]? = some s →
      s.handle = s.cell.map fun _ => ⟨heap.id, i, s.generation⟩)
    (hn : heap.free.Nodup)
    (hf : ∀ i, i ∈ heap.free ↔ ∃ s, heap.slots[i]? = some s ∧ s.cell = none)
    (hl : heap.live + heap.free.length = heap.slots.size) : heap.Consistent := by
  refine ⟨hd, hh, hn, hf, ?_⟩
  have := countP_add_length_free hn hf
  omega

theorem Consistent.cell?_eq {heap : Heap κ} (h : heap.Consistent) {i : Nat} {c : Cell κ}
    (hc : heap.cellAt? i = some c) : heap.cell? (heap.handleAt i) = some c := by
  obtain ⟨s, hs, hc⟩ := Option.bind_eq_some_iff.mp hc
  refine cell?_eq_some_iff.mpr ⟨h.usable, s, hs, hc, ?_⟩
  simp [handleAt, generationAt, Handle.index, hs]

namespace WellFormed

variable {heap : Heap κ}

theorem cell?_nil (w : heap.WellFormed) : heap.cell? heap.nilHandle = some .nil :=
  cell?_eq_some_iff.mpr ⟨w.usable, _, w.nil_slot, rfl, rfl⟩

theorem parts_of_pair (w : heap.WellFormed) {e head tail : Handle}
    (h : heap.cell? e = some (.pair head tail)) :
    (∃ c, heap.cell? head = some c) ∧ ∃ c, heap.cell? tail = some c := by
  obtain ⟨hh, ht⟩ := w.parts_live e.index head tail (cell?_eq_cellAt? h)
  exact ⟨isLive_iff.mp hh, isLive_iff.mp ht⟩

theorem checkUsable_eq (w : heap.WellFormed) : heap.checkUsable = .ok () := by
  simp [checkUsable, w.usable]

end WellFormed

/-! ## Putting a cell into a slot -/

/-- The parts of a cell that is to be stored are live. -/
def PartsLive (heap : Heap κ) (cell : Cell κ) : Prop :=
  ∀ head tail, cell = .pair head tail → heap.isLive head = true ∧ heap.isLive tail = true

/-- One handle names `cell` now; everything else is as it was for a client. -/
structure Updates (heap : Heap κ) (e : Handle) (cell : Cell κ) (heap' : Heap κ) : Prop where
  id_eq : heap'.id = heap.id
  maxSlots_eq : heap'.maxSlots = heap.maxSlots
  cell?_eq : ∀ f, heap'.cell? f = if f = e then some cell else heap.cell? f
  generationAt_eq : ∀ i, heap'.generationAt i = heap.generationAt i

/-- Slot `i`, of generation `g`, holds `cell` now; the other slots are as they were. -/
structure PutAt (heap : Heap κ) (i g : Nat) (cell : Cell κ) (heap' : Heap κ) : Prop where
  id_eq : heap'.id = heap.id
  maxSlots_eq : heap'.maxSlots = heap.maxSlots
  usable : heap'.destroyed = false
  slot : heap'.slots[i]? = some ⟨g, some cell, some ⟨heap.id, i, g⟩⟩
  others : ∀ j, j ≠ i → heap'.slots[j]? = heap.slots[j]?
  generation : heap.generationAt i = g

namespace PutAt

variable {heap heap' : Heap κ} {i g : Nat} {cell : Cell κ}

theorem updates (p : PutAt heap i g cell heap') (w : heap.WellFormed) :
    heap.Updates ⟨heap.id, i, g⟩ cell heap' := by
  refine ⟨p.id_eq, p.maxSlots_eq, fun f => ?_, fun j => ?_⟩
  · by_cases hf : f = ⟨heap.id, i, g⟩
    · rw [if_pos hf, hf]
      exact cell?_eq_some_iff.mpr ⟨p.usable, _, p.slot, rfl, by rw [p.id_eq]; rfl⟩
    · rw [if_neg hf]
      by_cases hi : f.index = i
      · -- a handle of the slot other than the new one is live neither before nor after
        refine Option.ext fun c => ?_
        rw [cell?_eq_some_iff, cell?_eq_some_iff, p.id_eq]
        constructor
        · rintro ⟨-, s, hs, -, he⟩
          rw [hi, p.slot] at hs
          cases hs
          exact absurd (hi ▸ he) hf
        · rintro ⟨-, s, hs, -, he⟩
          rw [hi] at hs he
          have hg : s.generation = g := by
            rw [← p.generation]
            simp [generationAt, hs]
          exact absurd (hg ▸ he) hf
      · exact cell?_congr p.id_eq (p.usable.trans w.usable.symm) (p.others f.index hi)
  · by_cases hj : j = i
    · rw [hj, p.generation]
      simp [generationAt, p.slot]
    · simp only [generationAt, p.others j hj]

/-- Filling a slot keeps the invariant: the free list loses the slot and the parts are live. -/
theorem wellFormed (p : PutAt heap i g cell heap') (w : heap.WellFormed) (h0 : i ≠ 0)
    (hn : heap'.free.Nodup) (hf : ∀ j, j ∈ heap'.free ↔ j ≠ i ∧ j ∈ heap.free)
    (hl : heap'.live + heap'.free.length = heap'.slots.size)
    (hp : heap.PartsLive cell) :
    heap'.WellFormed := by
  have hmem : ∀ j, j ∈ heap'.free ↔ ∃ s, heap'.slots[j]? = some s ∧ s.cell = none := by
    intro j
    rw [hf]
    by_cases hj : j = i
    · rw [hj, p.slot]
      simp
    · rw [p.others j hj, w.mem_free_iff]
      simp [hj]
  have hlive : ∀ f, heap.isLive f = true → heap'.isLive f = true := by
    intro f hf
    obtain ⟨c, hc⟩ := isLive_iff.mp hf
    rw [isLive_iff, (p.updates w).cell?_eq]
    split
    · exact ⟨_, rfl⟩
    · exact ⟨c, hc⟩
  refine ⟨.of_live_add_free p.usable (fun j s hs => ?_) hn hmem hl, ?_, fun j head tail hc => ?_⟩
  · rw [p.id_eq]
    by_cases hj : j = i
    · rw [hj, p.slot] at hs
      cases hs
      rw [hj]
      rfl
    · rw [p.others j hj] at hs
      exact w.handle_eq j s hs
  · rw [p.others 0 (Ne.symm h0), w.nil_slot, nilHandle, nilHandle, p.id_eq]
  · have hparts : heap.isLive head = true ∧ heap.isLive tail = true := by
      by_cases hj : j = i
      · rw [hj] at hc
        simp only [cellAt?, p.slot, Option.bind_some, Option.some.injEq] at hc
        exact hp head tail hc
      · rw [cellAt?, p.others j hj] at hc
        exact w.parts_live j head tail hc
    exact ⟨hlive _ hparts.1, hlive _ hparts.2⟩

end PutAt

/-! ## Allocation -/

/-- Reusing the slot freed last. -/
theorem allocate_reuse {heap : Heap κ} (w : heap.WellFormed) {slot : Nat} {free : List Nat}
    (hfree : heap.free = slot :: free) (cell : Cell κ) :
    ∃ heap', allocate cell heap = (.ok (heap.handleAt slot), heap') ∧
      PutAt heap slot (heap.generationAt slot) cell heap' ∧ slot ≠ 0 ∧
      heap.cell? (heap.handleAt slot) = none ∧ heap'.free = free ∧ heap'.live = heap.live + 1 ∧
      heap'.slots.size = heap.slots.size := by
  obtain ⟨s, hs, hc⟩ := (w.mem_free_iff slot).mp (by rw [hfree]; exact List.mem_cons_self)
  have hg : heap.generationAt slot = s.generation := by simp [generationAt, hs]
  have hrun : allocate cell heap = (.ok (heap.handleAt slot), { heap with
      slots := heap.slots.modify slot fun s => ⟨s.generation, some cell, some (heap.handleAt slot)⟩
      free := free
      live := heap.live + 1 }) := by
    simp only [allocate, w.usable, Bool.false_eq_true, if_false, hfree]
  refine ⟨_, hrun, ⟨rfl, rfl, w.usable, ?_, fun j hj => ?_, rfl⟩, ?_, ?_, rfl, rfl,
    Array.size_modify⟩
  · simp [Array.getElem?_modify, hs, hg, handleAt]
  · simp [Array.getElem?_modify, Ne.symm hj]
  · rintro rfl
    rw [w.nil_slot] at hs
    cases hs
    simp at hc
  · refine Option.eq_none_iff_forall_ne_some.mpr fun c h => ?_
    have hcell := cell?_eq_cellAt? h
    simp [handleAt, Handle.index, cellAt?, hs, hc] at hcell

/-- Adding a slot. -/
theorem allocate_push {heap : Heap κ} (w : heap.WellFormed) (hfree : heap.free = [])
    (hfull : heap.isFull = false) (cell : Cell κ) :
    ∃ heap', allocate cell heap = (.ok ⟨heap.id, heap.slots.size, 0⟩, heap') ∧
      PutAt heap heap.slots.size 0 cell heap' ∧ heap.slots.size ≠ 0 ∧
      heap.cell? ⟨heap.id, heap.slots.size, 0⟩ = none ∧ heap'.free = [] ∧
      heap'.live = heap.live + 1 ∧ heap'.slots.size = heap.slots.size + 1 := by
  have hrun : allocate cell heap = (.ok ⟨heap.id, heap.slots.size, 0⟩, { heap with
      slots := heap.slots.push ⟨0, some cell, some ⟨heap.id, heap.slots.size, 0⟩⟩
      live := heap.live + 1 }) := by
    simp only [allocate, w.usable, Bool.false_eq_true, if_false, hfree, hfull]
  refine ⟨_, hrun, ⟨rfl, rfl, w.usable, ?_, fun j hj => ?_, ?_⟩, ?_, ?_, hfree, rfl,
    Array.size_push ..⟩
  · simp
  · simp [Array.getElem?_push, hj]
  · simp [generationAt]
  · have := (Array.getElem?_eq_some_iff.mp w.nil_slot).1
    omega
  · refine Option.eq_none_iff_forall_ne_some.mpr fun c h => ?_
    exact absurd (index_lt h) (by simp [Handle.index])

/-- **An allocation is refused by a full heap, or gives a handle that was not live** and changes
nothing else. -/
theorem allocate_spec {heap : Heap κ} (w : heap.WellFormed) {cell : Cell κ}
    (hp : heap.PartsLive cell) :
    (heap.free = [] ∧ heap.isFull = true ∧
      allocate cell heap = (.error (.heap (.exhausted heap.id heap.maxSlots)), heap)) ∨
    ∃ e heap', allocate cell heap = (.ok e, heap') ∧ heap'.WellFormed ∧
      heap.Updates e cell heap' ∧ heap.cell? e = none := by
  have hsum := w.live_add_free
  cases hfree : heap.free with
  | nil =>
    cases hfull : heap.isFull with
    | true =>
      refine Or.inl ⟨rfl, rfl, ?_⟩
      simp only [allocate, w.usable, Bool.false_eq_true, if_false, hfree, hfull, if_true]
    | false =>
      obtain ⟨heap', hrun, hput, h0, hnew, hf, hl, hsize⟩ := allocate_push w hfree hfull cell
      refine Or.inr ⟨_, heap', hrun, ?_, hput.updates w, hnew⟩
      refine hput.wellFormed w h0 (hf ▸ List.nodup_nil) (fun j => ?_) ?_ hp
      · simp [hf, hfree]
      · rw [hfree] at hsum
        rw [hf, hl, hsize]
        simpa using hsum
  | cons slot free =>
    obtain ⟨heap', hrun, hput, h0, hnew, hf, hl, hsize⟩ := allocate_reuse w hfree cell
    obtain ⟨hnot, hnodup⟩ := List.nodup_cons.mp (hfree ▸ w.free_nodup)
    refine Or.inr ⟨_, heap', hrun, ?_, hput.updates w, hnew⟩
    refine hput.wellFormed w h0 (hf ▸ hnodup) (fun j => ?_) ?_ hp
    · rw [hf, hfree, List.mem_cons]
      constructor
      · intro hj
        exact ⟨fun h => hnot (h ▸ hj), Or.inr hj⟩
      · rintro ⟨hne, h | h⟩
        · exact absurd h hne
        · exact h
    · rw [hfree, List.length_cons] at hsum
      rw [hf, hl, hsize]
      omega

/-! ## Replacing a part of a pair -/

/-- **Replacing the cell of a live pair** changes nothing else. -/
theorem overwrite_spec {heap : Heap κ} (w : heap.WellFormed) {e head tail : Handle}
    (he : heap.cell? e = some (.pair head tail)) {cell : Cell κ} (hp : heap.PartsLive cell) :
    (overwrite e.index cell heap).WellFormed ∧
      heap.Updates e cell (overwrite e.index cell heap) := by
  obtain ⟨-, s, hs, hc, heq⟩ := cell?_eq_some_iff.mp he
  have hhandle : s.handle = some ⟨heap.id, e.index, s.generation⟩ := by
    rw [w.handle_eq _ s hs, hc]
    rfl
  have hput : PutAt heap e.index s.generation cell (overwrite e.index cell heap) := by
    refine ⟨rfl, rfl, w.usable, ?_, fun j hj => ?_, ?_⟩
    · simp [overwrite, Array.getElem?_modify, hs, hhandle]
    · simp [overwrite, Array.getElem?_modify, Ne.symm hj]
    · simp [generationAt, hs]
  have h0 : e.index ≠ 0 := by
    intro h
    rw [h, w.nil_slot] at hs
    cases hs
    cases hc
  refine ⟨hput.wellFormed w h0 w.free_nodup (fun j => ?_) ?_ hp, ?_⟩
  · refine ⟨fun hj => ⟨?_, hj⟩, fun hj => hj.2⟩
    rintro rfl
    obtain ⟨t, ht, hnone⟩ := (w.mem_free_iff e.index).mp hj
    rw [hs] at ht
    cases ht
    rw [hc] at hnone
    cases hnone
  · have := w.live_add_free
    simpa [overwrite] using this
  · have := hput.updates w
    rwa [← heq] at this

end Heap

end ConsoleLisp
