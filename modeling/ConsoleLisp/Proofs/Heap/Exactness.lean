import ConsoleLisp.Proofs.Heap.Run
import Mathlib.Data.Set.Card

/-!
# Collection is exact

The counter of a heap is the number of its live handles (`live_eq_ncard`), so the counts that a
collection reports are cardinalities of sets of handles. `Kept` says what a collection has to keep
without mentioning marks or slots.

Results:
* `reaches_iff_kept`: nil among the roots adds nothing but nil.
* **`live_eq_ncard`**: the counter is the number of live handles.
* `collection_exact`: what survives, what is freed, both counts, and that a second collection
  changes nothing.
-/

namespace ConsoleLisp

namespace Heap

variable {κ : Type} {heap heap' : Heap κ} {roots : List Handle}

/-- Nil, or reachable from a root over the parts of pairs. -/
def Kept (heap : Heap κ) (roots : List Handle) (e : Handle) : Prop :=
  e = heap.nilHandle ∨ Reach heap.cell? roots e

/-- **Nil among the roots adds nothing but nil**, since nil has no parts. -/
theorem reaches_iff_kept (w : heap.WellFormed) (e : Handle) :
    heap.Reaches roots e ↔ heap.Kept roots e := by
  have leaf : ∀ {head tail}, heap.cell? heap.nilHandle ≠ some (.pair head tail) := by
    intro head tail h
    rw [w.cell?_nil] at h
    cases h
  constructor
  · intro h
    induction h with
    | root he => exact (List.mem_cons.mp he).imp_right .root
    | head _ hc ih =>
      rcases ih with rfl | ih
      · exact absurd hc leaf
      · exact Or.inr (ih.head hc)
    | tail _ hc ih =>
      rcases ih with rfl | ih
      · exact absurd hc leaf
      · exact Or.inr (ih.tail hc)
  · rintro (rfl | h)
    · exact .root List.mem_cons_self
    · exact h.mono (fun f hf => .root (List.mem_cons_of_mem _ hf)) fun _ _ _ hc => hc

/-! ## Counting live handles -/

/-- The live handles are those of the slots with a cell. -/
theorem setOf_isLive_eq (w : heap.Consistent) :
    {e | heap.isLive e = true} =
      heap.handleAt '' {i | i ∈ (List.range heap.slots.size).filter
        fun i => (heap.cellAt? i).isSome} := by
  ext e
  simp only [Set.mem_ofPred_eq, Set.mem_image, List.mem_filter, List.mem_range]
  constructor
  · intro h
    obtain ⟨c, hc⟩ := isLive_iff.mp h
    refine ⟨e.index, ⟨index_lt hc, by rw [cell?_eq_cellAt? hc]; rfl⟩, ?_⟩
    obtain ⟨-, s, hs, -, he⟩ := cell?_eq_some_iff.mp hc
    rw [handleAt, generationAt, hs]
    exact he.symm
  · rintro ⟨i, ⟨-, hi⟩, rfl⟩
    obtain ⟨c, hc⟩ := Option.isSome_iff_exists.mp hi
    exact isLive_of_cell? (w.cell?_eq hc)

theorem handleAt_injective : Function.Injective heap.handleAt := by
  intro i j h
  exact Int.ofNat_inj.mp (congrArg Handle.slot h)

theorem finite_isLive (w : heap.Consistent) : {e | heap.isLive e = true}.Finite := by
  rw [setOf_isLive_eq w]
  exact (List.finite_toSet _).image _

/-- **The counter is the number of live handles.** -/
theorem live_eq_ncard (w : heap.Consistent) : heap.live = {e | heap.isLive e = true}.ncard := by
  have hnodup : ((List.range heap.slots.size).filter
      fun i => (heap.cellAt? i).isSome).Nodup := List.nodup_range.filter _
  rw [setOf_isLive_eq w, Set.ncard_image_of_injective _ handleAt_injective, w.live_eq,
    List.countP_eq_length_filter, ← List.toFinset_card_of_nodup hnodup, ← Set.ncard_coe_finset,
    List.coe_toFinset]

/-- Replacing the cell of a live handle leaves the same handles live. -/
theorem Updates.isLive_eq {e : Handle} {cell : Cell κ} (hu : heap.Updates e cell heap')
    (he : heap.isLive e = true) (f : Handle) : heap'.isLive f = heap.isLive f := by
  rw [Bool.eq_iff_iff, isLive_iff, isLive_iff, hu.cell?_eq]
  by_cases hf : f = e
  · rw [if_pos hf, hf]
    exact iff_of_true ⟨_, rfl⟩ (isLive_iff.mp he)
  · rw [if_neg hf]

theorem Updates.live_eq {e : Handle} {cell : Cell κ} (hu : heap.Updates e cell heap')
    (he : heap.isLive e = true) (w : heap.WellFormed) (w' : heap'.WellFormed) :
    heap'.live = heap.live := by
  rw [live_eq_ncard w'.toConsistent, live_eq_ncard w.toConsistent]
  simp only [hu.isLive_eq he]

/-! ## Exactness -/

/-- A collection with these roots that returns, and what it is to be exact. -/
structure IsExact (heap : Heap κ) (roots : List Handle) (freed : Nat) (heap' : Heap κ) : Prop where
  collect_eq : collect roots heap = (.ok ⟨heap'.live, freed⟩, heap')
  /-- The handles that are live afterwards are those kept. -/
  isLive_iff : ∀ e, heap'.isLive e = true ↔ heap.Kept roots e
  /-- What is kept keeps its contents. -/
  inspect_eq : ∀ e, heap.Kept roots e → heap'.inspect e = heap.inspect e
  /-- Any other handle of the heap is stale. -/
  inspect_stale : ∀ e, e.heap = heap.id → ¬ heap.Kept roots e →
    heap'.inspect e = .error (.heap (.stale heap.id e))
  freed_eq : freed = {e | heap.isLive e = true ∧ ¬ heap.Kept roots e}.ncard
  live_eq : heap'.live = {e | heap'.isLive e = true}.ncard
  /-- Roots that keep the same handles give the same heap. -/
  congr : ∀ roots', (∀ e ∈ roots', heap.isLive e = true) →
    (∀ e, heap.Kept roots e ↔ heap.Kept roots' e) → collect roots' heap = collect roots heap
  /-- A second collection frees nothing and leaves the heap identical. -/
  again : collect roots heap' = (.ok ⟨heap'.live, 0⟩, heap')

theorem Collects.isLive_iff (w : heap.WellFormed) (hr : ∀ e ∈ roots, heap.isLive e = true)
    (h : heap.Collects roots heap') (e : Handle) :
    heap'.isLive e = true ↔ heap.Kept roots e := by
  rw [← reaches_iff_kept w, Heap.isLive_iff]
  constructor
  · rintro ⟨c, hc⟩
    by_contra hne
    rw [h.cell?_eq_none e hne] at hc
    cases hc
  · intro he
    rw [h.cell?_eq e he]
    exact he.exists_cell? w hr

/-- The allocations freed are the unreachable ones: the live handles of before are those kept and
those freed. -/
theorem freed_eq_ncard (w : heap.WellFormed) (w' : heap'.WellFormed)
    (hr : ∀ e ∈ roots, heap.isLive e = true) (h : heap.Collects roots heap') {freed : Nat}
    (hsum : freed + heap'.live = heap.live) :
    freed = {e | heap.isLive e = true ∧ ¬ heap.Kept roots e}.ncard := by
  have hkept : {e | heap'.isLive e = true} = {e | heap.Kept roots e} :=
    Set.ext (h.isLive_iff w hr)
  have hsub : {e | heap.Kept roots e} ⊆ {e | heap.isLive e = true} := by
    intro e he
    exact isLive_iff.mpr (((reaches_iff_kept w e).mpr he).exists_cell? w hr)
  have hcard := Set.ncard_sdiff_add_ncard_of_subset hsub (finite_isLive w.toConsistent)
  rw [← hkept, ← live_eq_ncard w'.toConsistent, ← live_eq_ncard w.toConsistent, hkept] at hcard
  have hdiff : {e | heap.isLive e = true ∧ ¬ heap.Kept roots e} =
      {e | heap.isLive e = true} \ {e | heap.Kept roots e} := rfl
  rw [hdiff]
  omega

/-- **A collection is exact.** In every state of a heap in use, a collection with live roots returns
and keeps what is nil or can be reached, each value under its handle and with its contents, and
nothing else. -/
theorem collection_exact {id : Nat} {maxSlots : Number} {past : List (Exchange κ)}
    (h : Run id maxSlots past heap) (hd : heap.destroyed = false)
    (hr : ∀ e ∈ roots, heap.isLive e = true) :
    ∃ freed heap', IsExact heap roots freed heap' := by
  have w := h.wellFormed.2 hd
  obtain ⟨freed, heap', hrun, w', hcollects, hsum⟩ := collect_spec w hr
  refine ⟨freed, heap', hrun, hcollects.isLive_iff w hr, fun e he => ?_, fun e hhere he => ?_,
    freed_eq_ncard w w' hr hcollects hsum, live_eq_ncard w'.toConsistent,
    fun roots' hr' hsame => ?_, collect_twice w' hr hcollects⟩
  · exact inspect_eq_of_cell? hcollects.id_eq (w'.usable.trans w.usable.symm)
      (hcollects.cell?_eq e ((reaches_iff_kept w e).mpr he))
  · rw [inspect_eq, w'.usable, if_neg Bool.false_ne_true, hcollects.id_eq,
      if_neg (not_not.mpr hhere),
      hcollects.cell?_eq_none e fun hre => he ((reaches_iff_kept w e).mp hre)]
  · refine (collect_congr w hr hr' fun e => ?_).symm
    rw [reaches_iff_kept w, reaches_iff_kept w]
    exact hsame e

/-- The collection of a heap with a cycle among the kept values and a string that is not kept. -/
theorem collection_exact_cyclic : ∃ (past : List (Exchange Unit)) (heap : Heap Unit),
    Run 1 Number.infinity past heap ∧ heap.cellAt? 1 = some (.pair ⟨1, 0, 0⟩ ⟨1, 1, 0⟩) ∧
      heap.live = 3 ∧ ∃ freed heap', IsExact heap [⟨1, 1, 0⟩, ⟨1, 1, 0⟩] freed heap' := by
  have hrun := (Run.created (@create_unbounded Unit 1)).performAll
    [.pair ⟨1, 0, 0⟩ ⟨1, 0, 0⟩, .setPart .tail ⟨1, 1, 0⟩ ⟨1, 1, 0⟩, .string []]
  exact ⟨_, _, hrun, by decide +kernel, by decide +kernel,
    collection_exact hrun (by decide +kernel) (by decide +kernel)⟩

end Heap

end ConsoleLisp
