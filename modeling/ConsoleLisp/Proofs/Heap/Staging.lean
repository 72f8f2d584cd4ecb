import ConsoleLisp.Proofs.Heap.Exactness

/-!
# Collecting in stages

A collection with some roots and then one with roots that the first ones keep come to the same as the
second alone. The sweep is looked at slot by slot: a slot is reclaimed once, by the first stage that
does not keep it, and then has nothing that could be reclaimed again. Only the order of the free list
tells the stages apart.

Results:
* **`CollectsTo.slots_eq`**: what a collection makes of a slot, by reachability.
* `CollectsTo.reaches_iff`: a collection does not touch what it keeps.
* `Consistent.free_perm`, `Consistent.live_congr`: the slots decide the counter, and the free list up
  to its order.
* **`collection_in_stages`**: two stages against one.
-/

namespace ConsoleLisp

/-- A slot that is reclaimed has nothing that could be reclaimed again. -/
theorem Slot.reclaimed_reclaimed {κ : Type} (s : Slot κ) : s.reclaimed.reclaimed = s.reclaimed := by
  rcases s with ⟨generation, _ | cell, handle⟩ <;> rfl

namespace Heap

variable {κ : Type} {heap heap' heap₁ heap₂ : Heap κ} {roots first : List Handle}
  {freed freed₁ freed₂ : Nat}

/-! ## A collection slot by slot -/

/-- A collection with these roots returns, frees so many values and leaves this heap. -/
structure CollectsTo (heap : Heap κ) (roots : List Handle) (freed : Nat) (heap' : Heap κ) :
    Prop where
  collect_eq : collect roots heap = (.ok ⟨heap'.live, freed⟩, heap')
  wellFormed : heap'.WellFormed
  collects : heap.Collects roots heap'
  freed_add : freed + heap'.live = heap.live

theorem exists_collectsTo (w : heap.WellFormed) (hr : ∀ e ∈ roots, heap.isLive e = true) :
    ∃ freed heap', CollectsTo heap roots freed heap' := by
  obtain ⟨freed, heap', hrun, w', hcollects, hsum⟩ := collect_spec w hr
  exact ⟨freed, heap', hrun, w', hcollects, hsum⟩

/-- **What a collection makes of a slot**: one whose value is reached is kept, any other is
reclaimed. -/
theorem CollectsTo.slots_eq (h : CollectsTo heap roots freed heap') (w : heap.WellFormed)
    (hr : ∀ e ∈ roots, heap.isLive e = true) (i : Nat) :
    (heap.Reaches roots (heap.handleAt i) → heap'.slots[i]? = heap.slots[i]?) ∧
      (¬ heap.Reaches roots (heap.handleAt i) →
        heap'.slots[i]? = heap.slots[i]?.map Slot.reclaimed) := by
  obtain rfl := congrArg Prod.snd ((Heap.collect_eq w hr).symm.trans h.collect_eq)
  rw [getElem?_sweep]
  cases hs : heap.slots[i]? with
  | none => simp
  | some s =>
    have hlt := (Array.getElem?_eq_some_iff.mp hs).1
    cases hcell : s.cell with
    | none =>
      have hsame : s.reclaimed = s := by rw [Slot.reclaimed, hcell]
      simp [hsame]
    | some c =>
      have hat : heap.cellAt? i = some c := by rw [cellAt?, hs, Option.bind_some, hcell]
      have hmarked := marked_iff_reaches w hr (Consistent.cell?_eq w.toConsistent hat)
      rw [← hmarked]
      constructor
      · intro hmark
        rw [if_neg fun h => h.2.2 hmark]
      · intro hmark
        rw [if_pos ⟨Nat.zero_le i, by omega, hmark⟩]

/-! ## The slots decide the rest -/

/-- The slots decide the free list up to its order. -/
theorem Consistent.free_perm (c : heap.Consistent) (c' : heap'.Consistent)
    (h : heap'.slots = heap.slots) : heap'.free.Perm heap.free := by
  refine (List.perm_ext_iff_of_nodup c'.free_nodup c.free_nodup).mpr fun i => ?_
  rw [c'.mem_free_iff, c.mem_free_iff, h]

theorem Consistent.live_congr (c : heap.Consistent) (c' : heap'.Consistent)
    (h : heap'.slots = heap.slots) : heap'.live = heap.live := by
  rw [c'.live_eq, c.live_eq]
  simp only [cellAt?, h]

/-! ## Two stages -/

/-- What roots reach that are kept is kept. -/
theorem Reaches.of_kept (w : heap.WellFormed) (hroots : ∀ e ∈ roots, heap.Kept first e) {e : Handle}
    (h : heap.Reaches roots e) : heap.Reaches first e := by
  refine h.mono (fun f hf => ?_) fun _ _ _ hc => hc
  rcases List.mem_cons.mp hf with rfl | hf
  · exact .root List.mem_cons_self
  · exact (reaches_iff_kept w f).mpr (hroots f hf)

/-- A collection does not touch what it keeps, and so what is reached from it. -/
theorem CollectsTo.reaches_iff (h : CollectsTo heap first freed₁ heap₁)
    (hsub : ∀ {e}, heap.Reaches roots e → heap.Reaches first e) (e : Handle) :
    heap₁.Reaches roots e ↔ heap.Reaches roots e := by
  unfold Reaches
  rw [nilHandle, h.collects.id_eq]
  exact Reach.congr (fun f hf => h.collects.cell?_eq f (hsub hf)) e

/-- **Two stages leave the slots of the second one alone.** By cases on what reaches a slot: both
roots, the first ones, or none. -/
theorem CollectsTo.slots_staged (h₁ : CollectsTo heap first freed₁ heap₁)
    (h₂ : CollectsTo heap₁ roots freed₂ heap₂) (h : CollectsTo heap roots freed heap')
    (w : heap.WellFormed) (hfirst : ∀ e ∈ first, heap.isLive e = true)
    (hr : ∀ e ∈ roots, heap.isLive e = true) (hr₁ : ∀ e ∈ roots, heap₁.isLive e = true)
    (hsub : ∀ {e}, heap.Reaches roots e → heap.Reaches first e) : heap₂.slots = heap'.slots := by
  refine Array.ext_getElem? fun i => ?_
  have hslot₁ := h₁.slots_eq w hfirst i
  have hslot₂ := h₂.slots_eq h₁.wellFormed hr₁ i
  have hslot := h.slots_eq w hr i
  by_cases hreach₁ : heap.Reaches first (heap.handleAt i)
  · have hkept := hslot₁.1 hreach₁
    have hhandle : heap₁.handleAt i = heap.handleAt i := by
      rw [handleAt, handleAt, generationAt, generationAt, hkept, h₁.collects.id_eq]
    rw [hhandle, h₁.reaches_iff hsub, hkept] at hslot₂
    by_cases hreach : heap.Reaches roots (heap.handleAt i)
    · rw [hslot₂.1 hreach, hslot.1 hreach]
    · rw [hslot₂.2 hreach, hslot.2 hreach]
  · have hreclaimed := hslot₁.2 hreach₁
    rw [hslot.2 fun hreach => hreach₁ (hsub hreach), ← hreclaimed]
    by_cases hreach₂ : heap₁.Reaches roots (heap₁.handleAt i)
    · exact hslot₂.1 hreach₂
    · rw [hslot₂.2 hreach₂, hreclaimed, Option.map_map]
      exact congrArg (Option.map · _) (funext Slot.reclaimed_reclaimed)

/-- Two collections, one after the other, and the second one alone. -/
structure Stages (heap : Heap κ) (first roots : List Handle) (freed₁ freed₂ freed : Nat)
    (heap₁ heap₂ heap' : Heap κ) : Prop where
  first_eq : collect first heap = (.ok ⟨heap₁.live, freed₁⟩, heap₁)
  second_eq : collect roots heap₁ = (.ok ⟨heap₂.live, freed₂⟩, heap₂)
  alone_eq : collect roots heap = (.ok ⟨heap'.live, freed⟩, heap')
  /-- A slot is its cell, its handle and its generation. -/
  slots_eq : heap₂.slots = heap'.slots
  live_eq : heap₂.live = heap'.live
  free_perm : heap₂.free.Perm heap'.free
  freed_eq : freed₁ + freed₂ = freed
  id_eq : heap₂.id = heap'.id
  maxSlots_eq : heap₂.maxSlots = heap'.maxSlots
  destroyed_eq : heap₂.destroyed = heap'.destroyed

/-- **A collection can be done in stages.** In every state of a heap in use, with live roots and then
with roots that are nil or reached from those: both collections return and leave the slots and the
counter that the second one alone leaves, a free list with the same slots in it, and what they free
adds up to what that one frees. A heap that has been destroyed refuses all three. -/
theorem collection_in_stages {id : Nat} {maxSlots : Number} {past : List (Exchange κ)}
    (h : Run id maxSlots past heap) (hfirst : ∀ e ∈ first, heap.isLive e = true)
    (hroots : ∀ e ∈ roots, heap.Kept first e) :
    (heap.destroyed = false → ∃ freed₁ freed₂ freed heap₁ heap₂ heap',
        Stages heap first roots freed₁ freed₂ freed heap₁ heap₂ heap') ∧
      (heap.destroyed = true → ∀ any : List Handle,
        collect any heap = (.error (.heap (.destroyed heap.id)), heap)) := by
  constructor
  · intro hd
    have w := h.wellFormed.2 hd
    have hsub : ∀ {e}, heap.Reaches roots e → heap.Reaches first e := Reaches.of_kept w hroots
    have hlive : ∀ e ∈ roots, heap.isLive e = true := fun e he =>
      isLive_iff.mpr (((reaches_iff_kept w e).mpr (hroots e he)).exists_cell? w hfirst)
    obtain ⟨freed₁, heap₁, h₁⟩ := exists_collectsTo w hfirst
    have hlive₁ : ∀ e ∈ roots, heap₁.isLive e = true := fun e he =>
      (h₁.collects.isLive_iff w hfirst e).mpr (hroots e he)
    obtain ⟨freed₂, heap₂, h₂⟩ := exists_collectsTo h₁.wellFormed hlive₁
    obtain ⟨freed, heap', h'⟩ := exists_collectsTo w hlive
    have hslots := h₁.slots_staged h₂ h' w hfirst hlive hlive₁ hsub
    have hcount := h'.wellFormed.live_congr h₂.wellFormed.toConsistent hslots
    have hsum₁ := h₁.freed_add
    have hsum₂ := h₂.freed_add
    have hsum := h'.freed_add
    exact ⟨freed₁, freed₂, freed, heap₁, heap₂, heap', {
      first_eq := h₁.collect_eq
      second_eq := h₂.collect_eq
      alone_eq := h'.collect_eq
      slots_eq := hslots
      live_eq := hcount
      free_perm := h'.wellFormed.free_perm h₂.wellFormed.toConsistent hslots
      freed_eq := by omega
      id_eq := h₂.collects.id_eq.trans (h₁.collects.id_eq.trans h'.collects.id_eq.symm)
      maxSlots_eq := h₂.collects.maxSlots_eq.trans
        (h₁.collects.maxSlots_eq.trans h'.collects.maxSlots_eq.symm)
      destroyed_eq := h₂.wellFormed.usable.trans h'.wellFormed.usable.symm }⟩
  · intro hd any
    exact Act.run_bind_error (by rw [view, checkUsable, if_pos hd])

/-- A pair that holds itself and a string, collected with the pair as a root and then with nil: the
stages free the string that is not held first and the others then, and one collection frees them in
the order of their slots. -/
theorem collection_in_stages_cyclic : ∃ (past : List (Exchange Unit)) (heap : Heap Unit),
    Run 1 Number.infinity past heap ∧
      heap.cellAt? 2 = some (.pair ⟨1, 2, 0⟩ ⟨1, 1, 0⟩) ∧ heap.cellAt? 3 = some (.string []) ∧
      ∃ freed₁ freed₂ freed heap₁ heap₂ heap',
        Stages heap [⟨1, 2, 0⟩] [⟨1, 0, 0⟩] freed₁ freed₂ freed heap₁ heap₂ heap' := by
  have hrun := (Run.created (@create_unbounded Unit 1)).performAll
    [.string [], .pair ⟨1, 0, 0⟩ ⟨1, 1, 0⟩, .setPart .head ⟨1, 2, 0⟩ ⟨1, 2, 0⟩, .string []]
  exact ⟨_, _, hrun, by decide +kernel, by decide +kernel,
    (collection_in_stages hrun (by decide +kernel)
      (List.forall_mem_singleton.mpr (.inl (by decide +kernel)))).1 (by decide +kernel)⟩

end Heap

end ConsoleLisp
