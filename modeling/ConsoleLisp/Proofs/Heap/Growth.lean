import ConsoleLisp.Proofs.Heap.Additions
import ConsoleLisp.Proofs.Heap.Exactness

/-!
# New cells

A heap that has all the cells of an earlier one differs from it by new cells. `IsNew heap heap' e`
says that `e` names one of them, and `GrowsBy cells heap heap'` that `cells` lists them, each once.
No cell of before points to a new one, so whoever holds only values of before cannot tell the two
heaps apart, and a collection from such values frees what is new.

Results:
* `GrowsBy.trans`, `GrowsBy.live_eq`: new cells in steps, and how many there are.
* `allocate_grows`, `pair_grows`: an allocation adds one cell or is refused.
* **`Extends.untouched`**: what was there is as it was and does not point to what is new.
* `Extends.reach_iff`: from values of before the same is reached.
* **`Extends.isGarbage`**: a collection from values of before leaves what it would have left.
-/

namespace ConsoleLisp

namespace Heap

variable {κ : Type} {heap heap' heap'' : Heap κ} {roots : List Handle} {e : Handle}

theorem isLive_eq_false_iff : heap.isLive e = false ↔ heap.cell? e = none := by
  rw [← Bool.not_eq_true, isLive_iff, Option.eq_none_iff_forall_ne_some, not_exists]

/-- The handle names a cell that the later heap has and the earlier one did not. -/
def IsNew (heap heap' : Heap κ) (e : Handle) : Prop :=
  heap.isLive e = false ∧ heap'.isLive e = true

/-- The later heap has all cells of the earlier one, and these besides, each once. -/
structure GrowsBy (cells : List Handle) (heap heap' : Heap κ) : Prop
    extends Extends heap heap' where
  nodup : cells.Nodup
  mem_iff : ∀ e, e ∈ cells ↔ IsNew heap heap' e

namespace GrowsBy

variable {cells cells' : List Handle}

theorem refl (heap : Heap κ) : GrowsBy [] heap heap :=
  ⟨.refl heap, List.nodup_nil, fun e => by simp [IsNew]⟩

/-- Growth in two steps. -/
theorem trans (h : GrowsBy cells heap heap') (h' : GrowsBy cells' heap' heap'') :
    GrowsBy (cells ++ cells') heap heap'' := by
  refine ⟨h.toExtends.trans h'.toExtends, List.nodup_append'.mpr ⟨h.nodup, h'.nodup, ?_⟩,
    fun e => ?_⟩
  · intro e he he'
    have hlive := ((h.mem_iff e).mp he).2
    have hdead := ((h'.mem_iff e).mp he').1
    rw [hlive] at hdead
    cases hdead
  · have hmono : heap.isLive e = true → heap'.isLive e = true := h.toExtends.isLive
    have hmono' : heap'.isLive e = true → heap''.isLive e = true := h'.toExtends.isLive
    rw [List.mem_append, h.mem_iff, h'.mem_iff, IsNew, IsNew, IsNew]
    cases hb : heap.isLive e <;> cases hb' : heap'.isLive e <;> simp_all

/-- The order of the new cells does not matter. -/
theorem perm (h : GrowsBy cells heap heap') (hp : cells.Perm cells') : GrowsBy cells' heap heap' :=
  ⟨h.toExtends, hp.nodup_iff.mp h.nodup, fun e => by rw [← hp.mem_iff, h.mem_iff]⟩

/-- One cell under a handle that was not live. -/
theorem of_updates {cell : Cell κ} (hu : heap.Updates e cell heap') (hnew : heap.cell? e = none) :
    GrowsBy [e] heap heap' := by
  refine ⟨hu.extends hnew, List.nodup_singleton e, fun f => ?_⟩
  rw [List.mem_singleton, IsNew, isLive_iff, isLive_eq_false_iff, hu.cell?_eq]
  by_cases hf : f = e
  · simp [hf, hnew]
  · simp only [hf, if_false, false_iff, not_and]
    rintro hnone ⟨c, hc⟩
    cases hnone.symm.trans hc

theorem setOf_isLive_eq (h : GrowsBy cells heap heap') :
    {e | heap'.isLive e = true} = {e | heap.isLive e = true} ∪ {e | e ∈ cells} := by
  ext e
  have hmono : heap.isLive e = true → heap'.isLive e = true := h.toExtends.isLive
  rw [Set.mem_union, Set.mem_ofPred_eq, Set.mem_ofPred_eq, Set.mem_ofPred_eq, h.mem_iff, IsNew]
  cases hb : heap.isLive e <;> simp_all

/-- **The counter grows by the number of new cells.** -/
theorem live_eq (h : GrowsBy cells heap heap') (w : heap.WellFormed) (w' : heap'.WellFormed) :
    heap'.live = heap.live + cells.length := by
  have hcells : {e | e ∈ cells}.ncard = cells.length := by
    rw [← List.toFinset_card_of_nodup h.nodup, ← Set.ncard_coe_finset, List.coe_toFinset]
  have hdisjoint : Disjoint {e | heap.isLive e = true} {e | e ∈ cells} := by
    rw [Set.disjoint_left]
    intro e he hmem
    have hdead := ((h.mem_iff e).mp hmem).1
    cases he.symm.trans hdead
  rw [live_eq_ncard w'.toConsistent, live_eq_ncard w.toConsistent, h.setOf_isLive_eq,
    Set.ncard_union_eq hdisjoint (finite_isLive w.toConsistent) cells.finite_toSet, hcells]

end GrowsBy

/-! ## Allocations -/

/-- An allocation is refused by a heap without room, or adds one cell. -/
theorem allocate_grows (w : heap.WellFormed) {cell : Cell κ} (hp : heap.PartsLive cell) :
    (allocate cell heap = (.error heap.exhaustion, heap) ∧ ¬ heap.Room 1) ∨
      ∃ e heap', allocate cell heap = (.ok e, heap') ∧ heap'.WellFormed ∧
        heap'.cell? e = some cell ∧ GrowsBy [e] heap heap' := by
  rcases allocate_spec w hp with ⟨hfree, hfull, hrun⟩ | ⟨e, heap', hrun, w', hu, hnew⟩
  · exact .inl ⟨hrun, not_room_of_full w hfree hfull⟩
  · exact .inr ⟨e, heap', hrun, w', by rw [hu.cell?_eq, if_pos rfl], .of_updates hu hnew⟩

theorem pair_grows (w : heap.WellFormed) {head tail : Handle} (hh : heap.isLive head = true)
    (ht : heap.isLive tail = true) :
    (pair head tail heap = (.error heap.exhaustion, heap) ∧ ¬ heap.Room 1) ∨
      ∃ e heap', pair head tail heap = (.ok e, heap') ∧ heap'.WellFormed ∧
        heap'.cell? e = some (.pair head tail) ∧ GrowsBy [e] heap heap' := by
  rw [pair_eq_allocate hh ht]
  refine allocate_grows w fun head' tail' heq => ?_
  cases heq
  exact ⟨hh, ht⟩

/-- What adds one cell where there is room, as an action that takes one. -/
theorem allocates_of_grows (w : heap.WellFormed) {action : HeapM κ Handle} {cell : Cell κ}
    (h : (action heap = (.error heap.exhaustion, heap) ∧ ¬ heap.Room 1) ∨
      ∃ e heap', action heap = (.ok e, heap') ∧ heap'.WellFormed ∧
        heap'.cell? e = some cell ∧ GrowsBy [e] heap heap') :
    Allocates 1 action heap fun heap' e => heap'.cell? e = some cell ∧ GrowsBy [e] heap heap' := by
  rcases h with ⟨hrun, hroom⟩ | ⟨e, heap', hrun, w', hcell, hgrows⟩
  · exact ⟨heap, w, .refl heap, .inr ⟨hrun, hroom⟩⟩
  · exact ⟨heap', w', hgrows.toExtends, .inl ⟨e, hrun, hgrows.live_eq w w', hcell, hgrows⟩⟩

theorem allocate_growsBy (w : heap.WellFormed) {cell : Cell κ} (hp : heap.PartsLive cell) :
    Allocates 1 (allocate cell) heap fun heap' e =>
      heap'.cell? e = some cell ∧ GrowsBy [e] heap heap' :=
  allocates_of_grows w (allocate_grows w hp)

theorem pair_growsBy (w : heap.WellFormed) {head tail : Handle} (hh : heap.isLive head = true)
    (ht : heap.isLive tail = true) :
    Allocates 1 (pair head tail) heap fun heap' e =>
      heap'.cell? e = some (.pair head tail) ∧ GrowsBy [e] heap heap' :=
  allocates_of_grows w (pair_grows w hh ht)

/-! ## What was there -/

/-- Nothing that was there has changed, and nothing that was there points to what is new. -/
structure Untouched (heap heap' : Heap κ) : Prop where
  isLive : ∀ e, heap.isLive e = true → heap'.isLive e = true
  inspect_eq : ∀ e, heap.isLive e = true → heap'.inspect e = heap.inspect e
  apart : ∀ e head tail, heap.isLive e = true → heap'.inspect e = .ok (.pair head tail) →
    ¬ IsNew heap heap' head ∧ ¬ IsNew heap heap' tail

namespace Extends

theorem cell?_eq (hext : Extends heap heap') (he : heap.isLive e = true) :
    heap'.cell? e = heap.cell? e := by
  obtain ⟨c, hc⟩ := isLive_iff.mp he
  rw [hc]
  exact hext.cell?_mono e c hc

theorem inspect_eq (hext : Extends heap heap') (w : heap.WellFormed) (w' : heap'.WellFormed)
    (he : ¬ IsNew heap heap' e) : heap'.inspect e = heap.inspect e := by
  refine inspect_eq_of_cell? hext.id_eq (w'.usable.trans w.usable.symm) ?_
  cases hlive : heap.isLive e with
  | true => exact hext.cell?_eq hlive
  | false =>
    have hdead : heap'.isLive e = false := by
      rw [← Bool.not_eq_true]
      exact fun hlive' => he ⟨hlive, hlive'⟩
    rw [isLive_eq_false_iff.mp hlive, isLive_eq_false_iff.mp hdead]

theorem not_isNew (he : heap.isLive e = true) : ¬ IsNew heap heap' e := by
  rintro ⟨hdead, -⟩
  cases he.symm.trans hdead

/-- **What was there is as it was and does not point to what is new**, since its parts are live. -/
theorem untouched (hext : Extends heap heap') (w : heap.WellFormed) (w' : heap'.WellFormed) :
    Untouched heap heap' := by
  refine ⟨fun e => hext.isLive, fun e he => hext.inspect_eq w w' (not_isNew he),
    fun e head tail he hpair => ?_⟩
  rw [hext.inspect_eq w w' (not_isNew he)] at hpair
  obtain ⟨hhead, htail⟩ := w.parts_of_pair (inspect_eq_ok_iff.mp hpair)
  exact ⟨not_isNew (isLive_iff.mpr hhead), not_isNew (isLive_iff.mpr htail)⟩

/-- More cells leave what was live as it is. -/
theorem cell?_eq_of_reach (hext : Extends heap heap') (w : heap.WellFormed)
    (hroots : ∀ e ∈ roots, heap.isLive e = true) (he : Reach heap.cell? roots e) :
    heap'.cell? e = heap.cell? e :=
  hext.cell?_eq (isLive_iff.mpr (w.exists_cell?_of_reach hroots he))

/-- More cells reach nothing more from what was live. -/
theorem reach_iff (hext : Extends heap heap') (w : heap.WellFormed)
    (hroots : ∀ e ∈ roots, heap.isLive e = true) (e : Handle) :
    Reach heap'.cell? roots e ↔ Reach heap.cell? roots e :=
  Reach.congr (fun _ hf => hext.cell?_eq_of_reach w hroots hf) e

/-- What is new is not reached from what was live. -/
theorem not_reach (hext : Extends heap heap') (w : heap.WellFormed)
    (hroots : ∀ e ∈ roots, heap.isLive e = true) (he : IsNew heap heap' e) :
    ¬ Reach heap'.cell? roots e := by
  intro hreach
  obtain ⟨c, hc⟩ := w.exists_cell?_of_reach hroots ((hext.reach_iff w hroots e).mp hreach)
  exact not_isNew (isLive_of_cell? hc) he

end Extends

/-! ## Collecting what is new -/

/-- A collection from values of before returns, frees every new cell, and leaves what a collection
from them would have left before. -/
def IsGarbage (heap heap' : Heap κ) : Prop :=
  ∀ roots, (∀ e ∈ roots, heap.isLive e = true) → ∃ freed heap'',
    collect roots heap' = (.ok ⟨heap''.live, freed⟩, heap'') ∧
      (∀ e, IsNew heap heap' e → heap''.isLive e = false) ∧
      ∀ e, heap''.isLive e = true ↔ heap.Kept roots e

/-- **What is new is garbage** to whoever holds only values of before. -/
theorem Extends.isGarbage (hext : Extends heap heap') (w : heap.WellFormed)
    (w' : heap'.WellFormed) : IsGarbage heap heap' := by
  intro roots hroots
  have hroots' : ∀ e ∈ roots, heap'.isLive e = true := fun e he => hext.isLive (hroots e he)
  obtain ⟨freed, heap'', hrun, -, hcollects, -⟩ := collect_spec w' hroots'
  have hkept : ∀ e, heap''.isLive e = true ↔ heap.Kept roots e := by
    intro e
    rw [hcollects.isLive_iff w' hroots', Kept, Kept, hext.reach_iff w hroots, nilHandle, nilHandle,
      hext.id_eq]
  refine ⟨freed, heap'', hrun, fun e he => ?_, hkept⟩
  rw [← Bool.not_eq_true, hkept, ← reaches_iff_kept w]
  intro hreaches
  exact not_isNew (isLive_iff.mpr (hreaches.exists_cell? w hroots)) he

end Heap

end ConsoleLisp
