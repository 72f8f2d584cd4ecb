import ConsoleLisp.Proofs.Action
import ConsoleLisp.Proofs.Heap.Reachability

/-!
# What a collection does

The sweep is described slot by slot (`getElem?_sweep`), the collection through `cell?`: it keeps the
cells of the reachable handles and no others (`Collects`).

Results:
* `sweep_spec`: the sweep keeps slots, free list and counter in step.
* **`collect_spec`**: with live roots a collection returns and keeps exactly what is reachable.
* `collect_refused`: a root that is not live ends it before anything is changed.
* `collect_congr`: it depends on the set of reachable handles only.
* `collect_twice`: a second one with the same roots changes nothing.
-/

namespace ConsoleLisp

variable {κ : Type}

/-- A slot whose cell, if it has one, is reclaimed. -/
def Slot.reclaimed (s : Slot κ) : Slot κ :=
  match s.cell with
  | some _ => ⟨s.generation + 1, none, none⟩
  | none => s

namespace Heap

/-! ## Releasing a slot -/

theorem getElem?_release (slot : Nat) (heap : Heap κ) (i : Nat) :
    (heap.release slot).slots[i]? =
      if i = slot then heap.slots[i]?.map fun s => ⟨s.generation + 1, none, none⟩
      else heap.slots[i]? := by
  simp only [release, Array.getElem?_modify]
  by_cases hi : i = slot
  · rw [if_pos hi.symm, if_pos hi]
  · rw [if_neg (Ne.symm hi), if_neg hi]

theorem Consistent.live_pos {heap : Heap κ} (c : heap.Consistent) {i : Nat} {cell : Cell κ}
    (h : heap.cellAt? i = some cell) : 0 < heap.live := by
  obtain ⟨s, hs, -⟩ := Option.bind_eq_some_iff.mp h
  have hlt := (Array.getElem?_eq_some_iff.mp hs).1
  rw [c.live_eq, List.countP_pos_iff]
  exact ⟨i, List.mem_range.mpr hlt, by rw [h]; rfl⟩

theorem Consistent.release {heap : Heap κ} (c : heap.Consistent) {slot : Nat} {cell : Cell κ}
    (h : heap.cellAt? slot = some cell) : (heap.release slot).Consistent := by
  obtain ⟨s, hs, hc⟩ := Option.bind_eq_some_iff.mp h
  have hnot : slot ∉ heap.free := by
    intro hm
    obtain ⟨t, ht, hnone⟩ := (c.mem_free_iff slot).mp hm
    rw [hs] at ht
    cases ht
    rw [hc] at hnone
    cases hnone
  refine .of_live_add_free c.usable (fun i t ht => ?_) (List.nodup_cons.mpr ⟨hnot, c.free_nodup⟩)
    (fun i => ?_) ?_
  · rw [getElem?_release] at ht
    split at ht
    · obtain ⟨u, -, rfl⟩ := Option.map_eq_some_iff.mp ht
      rfl
    · exact c.handle_eq i t ht
  · rw [getElem?_release]
    show i ∈ slot :: heap.free ↔ _
    rw [List.mem_cons]
    by_cases hi : i = slot
    · simp [hi, hs]
    · simp [hi, c.mem_free_iff]
  · have hpos := c.live_pos h
    have hsum := c.live_add_free
    simp only [Heap.release, List.length_cons, Array.size_modify]
    omega

/-! ## The sweep -/

/-- **The sweep keeps slots, free list and counter in step**, and counts what it reclaims. -/
theorem sweep_spec (marks : Array Bool) (count slot freed : Nat) (heap : Heap κ)
    (c : heap.Consistent) :
    let r := sweep marks count slot freed heap
    r.2.Consistent ∧ r.2.id = heap.id ∧ r.2.maxSlots = heap.maxSlots ∧
      r.2.slots.size = heap.slots.size ∧ r.1 + r.2.live = freed + heap.live := by
  fun_induction sweep marks count slot freed heap with
  | case1 => exact ⟨c, rfl, rfl, rfl, rfl⟩
  | case2 count slot freed heap h ih =>
    obtain ⟨cell, hcell⟩ := Option.isSome_iff_exists.mp ((Bool.and_eq_true _ _ ▸ h).1)
    have hpos := c.live_pos hcell
    obtain ⟨hc, hid, hmax, hsize, hsum⟩ := ih (c.release hcell)
    refine ⟨hc, hid, hmax, by rw [hsize]; exact Array.size_modify, ?_⟩
    rw [hsum]
    simp only [Heap.release]
    omega
  | case3 count slot freed heap h ih => exact ih c

theorem range_succ_iff {i slot count : Nat} {p : Prop} (hi : i ≠ slot) :
    (slot + 1 ≤ i ∧ i < slot + 1 + count ∧ p) ↔ (slot ≤ i ∧ i < slot + (count + 1) ∧ p) := by
  constructor <;> rintro ⟨h1, h2, h3⟩ <;> exact ⟨by omega, by omega, h3⟩

/-- **The sweep slot by slot**: an unmarked slot in its range is reclaimed, any other is kept. -/
theorem getElem?_sweep (marks : Array Bool) (count slot freed : Nat) (heap : Heap κ) (i : Nat) :
    (sweep marks count slot freed heap).2.slots[i]? =
      if slot ≤ i ∧ i < slot + count ∧ marks[i]? ≠ some true then
        heap.slots[i]?.map Slot.reclaimed
      else heap.slots[i]? := by
  fun_induction sweep marks count slot freed heap with
  | case1 slot freed heap => rw [if_neg (by omega)]
  | case2 count slot freed heap h ih =>
    obtain ⟨hcell, hmark⟩ := (Bool.and_eq_true _ _ ▸ h : _ ∧ _)
    rw [ih, getElem?_release]
    by_cases hi : i = slot
    · have hne : marks[i]? ≠ some true := by
        rw [hi]
        intro hm
        simp [hm] at hmark
      rw [if_neg (by omega), if_pos hi, if_pos ⟨by omega, by omega, hne⟩]
      obtain ⟨cell, hcell⟩ := Option.isSome_iff_exists.mp hcell
      obtain ⟨s, hs, hc⟩ := Option.bind_eq_some_iff.mp hcell
      rw [hi, hs]
      simp [Slot.reclaimed, hc]
    · rw [if_neg hi]
      exact if_congr (range_succ_iff hi) rfl rfl
  | case3 count slot freed heap h ih =>
    rw [ih]
    by_cases hi : i = slot
    · rw [if_neg (by omega)]
      split
      · rename_i hc
        -- an unmarked slot that was not released had no cell
        have hnone : heap.cellAt? slot = none := by
          rw [← Option.not_isSome_iff_eq_none]
          intro hs
          refine h ?_
          rw [hi] at hc
          cases hm : marks[slot]? with
          | none => simp [hs]
          | some b =>
            cases b with
            | true => exact absurd hm hc.2.2
            | false => simp [hs]
        rw [hi]
        cases hs : heap.slots[slot]? with
        | none => rfl
        | some s =>
          have : s.cell = none := by simpa [cellAt?, hs] using hnone
          simp [Slot.reclaimed, this]
      · rfl
    · exact if_congr (range_succ_iff hi) rfl rfl

/-- A sweep that finds only marked cells changes nothing. -/
theorem sweep_eq_self (marks : Array Bool) (count slot freed : Nat) (heap : Heap κ)
    (h : ∀ i c, heap.cellAt? i = some c → marks[i]? = some true) :
    sweep marks count slot freed heap = (freed, heap) := by
  fun_induction sweep marks count slot freed heap with
  | case1 => rfl
  | case2 count slot freed heap hc _ =>
    obtain ⟨hcell, hmark⟩ := (Bool.and_eq_true _ _ ▸ hc : _ ∧ _)
    obtain ⟨cell, hcell⟩ := Option.isSome_iff_exists.mp hcell
    simp [h slot cell hcell] at hmark
  | case3 count slot freed heap _ ih => exact ih h

/-! ## The collection -/

variable {heap : Heap κ} {roots : List Handle}

theorem checkRoots_eq_ok (hr : ∀ e ∈ roots, heap.isLive e = true) :
    (roots.forM fun root => discard (view (inspect · root)) : HeapM κ PUnit) heap =
      (.ok ⟨⟩, heap) := by
  induction roots with
  | nil => rfl
  | cons e rest ih =>
    obtain ⟨c, hc⟩ := isLive_iff.mp (hr e List.mem_cons_self)
    have hview : (discard (view (inspect · e)) : HeapM κ PUnit) heap = (.ok ⟨⟩, heap) :=
      Act.run_map_ok (by rw [view, inspect_eq_ok_iff.mpr hc])
    rw [List.forM, Act.run_bind_ok hview]
    exact ih fun f hf => hr f (List.mem_cons_of_mem _ hf)

theorem checkRoots_eq_error (hr : ∃ e ∈ roots, heap.isLive e = false) :
    ∃ fault, (roots.forM fun root => discard (view (inspect · root)) : HeapM κ PUnit) heap =
      (.error fault, heap) := by
  induction roots with
  | nil => exact absurd hr (by simp)
  | cons e rest ih =>
    rw [List.forM]
    cases hin : heap.inspect e with
    | error fault =>
      refine ⟨fault, Act.run_bind_error ?_⟩
      exact Act.run_bind_error (by rw [view, hin])
    | ok c =>
      have hview : (discard (view (inspect · e)) : HeapM κ PUnit) heap = (.ok ⟨⟩, heap) :=
        Act.run_map_ok (by rw [view, hin])
      have hlive : heap.isLive e = true := isLive_of_cell? (inspect_eq_ok_iff.mp hin)
      rw [Act.run_bind_ok hview]
      obtain ⟨f, hf, hdead⟩ := hr
      rcases List.mem_cons.mp hf with rfl | hf
      · rw [hlive] at hdead
        cases hdead
      · exact ih ⟨f, hf, hdead⟩

/-- With live roots a collection is a sweep of what the marks leave out. -/
theorem collect_eq (w : heap.WellFormed) (hr : ∀ e ∈ roots, heap.isLive e = true) :
    collect roots heap =
      let r := heap.sweep (heap.reachableMarks roots) heap.slots.size 0 0
      (.ok ⟨r.2.live, r.1⟩, r.2) := by
  have husable : (view checkUsable : HeapM κ Unit) heap = (.ok (), heap) := by
    rw [view, w.checkUsable_eq]
  rw [collect, Act.run_bind_ok husable, Act.run_bind_ok (checkRoots_eq_ok hr)]

/-- **A root that is not live ends a collection before anything is changed.** -/
theorem collect_refused (w : heap.WellFormed) (hr : ∃ e ∈ roots, heap.isLive e = false) :
    ∃ fault, collect roots heap = (.error fault, heap) := by
  have husable : (view checkUsable : HeapM κ Unit) heap = (.ok (), heap) := by
    rw [view, w.checkUsable_eq]
  obtain ⟨fault, hfault⟩ := checkRoots_eq_error hr
  exact ⟨fault, by rw [collect, Act.run_bind_ok husable, Act.run_bind_error hfault]⟩

/-- What a collection with these roots makes of a heap. -/
structure Collects (heap : Heap κ) (roots : List Handle) (heap' : Heap κ) : Prop where
  id_eq : heap'.id = heap.id
  maxSlots_eq : heap'.maxSlots = heap.maxSlots
  size_eq : heap'.slots.size = heap.slots.size
  cell?_eq : ∀ e, heap.Reaches roots e → heap'.cell? e = heap.cell? e
  cell?_eq_none : ∀ e, ¬ heap.Reaches roots e → heap'.cell? e = none
  generationAt_le : ∀ i, heap.generationAt i ≤ heap'.generationAt i
  generationAt_lt : ∀ e c, heap.cell? e = some c → ¬ heap.Reaches roots e →
    heap.generationAt e.index < heap'.generationAt e.index

/-- The cells that the sweep of a collection leaves. -/
theorem swept_cell? (w : heap.WellFormed) (hr : ∀ e ∈ roots, heap.isLive e = true) {heap' : Heap κ}
    (hid : heap'.id = heap.id) (hd : heap'.destroyed = false)
    (hslots : ∀ i : Nat, heap'.slots[i]? = if (heap.reachableMarks roots)[i]? ≠ some true then
      heap.slots[i]?.map Slot.reclaimed else heap.slots[i]?) (e : Handle) :
    (heap.Reaches roots e → heap'.cell? e = heap.cell? e) ∧
      (¬ heap.Reaches roots e → heap'.cell? e = none) := by
  have hsame : (heap.reachableMarks roots)[e.index]? = some true →
      heap'.cell? e = heap.cell? e := fun hm =>
    cell?_congr hid (hd.trans w.usable.symm) (by rw [hslots, if_neg (not_not.mpr hm)])
  refine ⟨fun he => hsame (reachableMarks_complete w hr he), fun he => ?_⟩
  refine Option.eq_none_iff_forall_ne_some.mpr fun c hc => ?_
  by_cases hm : (heap.reachableMarks roots)[e.index]? = some true
  · rw [hsame hm] at hc
    exact he ((marked_iff_reaches w hr hc).mp hm)
  · obtain ⟨-, s, hs, hcell, -⟩ := cell?_eq_some_iff.mp hc
    rw [hslots, if_pos hm] at hs
    obtain ⟨t, -, rfl⟩ := Option.map_eq_some_iff.mp hs
    unfold Slot.reclaimed at hcell
    split at hcell
    · cases hcell
    · rename_i hnone
      rw [hnone] at hcell
      cases hcell

/-- **With live roots a collection returns and keeps exactly what is reachable.** -/
theorem collect_spec (w : heap.WellFormed) (hr : ∀ e ∈ roots, heap.isLive e = true) :
    ∃ freed heap', collect roots heap = (.ok ⟨heap'.live, freed⟩, heap') ∧ heap'.WellFormed ∧
      heap.Collects roots heap' ∧ freed + heap'.live = heap.live := by
  obtain ⟨hc, hid, hmax, hsize, hsum⟩ := sweep_spec (heap.reachableMarks roots) heap.slots.size 0 0
    heap w.toConsistent
  have hslots := getElem?_sweep (heap.reachableMarks roots) heap.slots.size 0 0 heap
  have hrun := collect_eq w hr
  generalize heap.sweep (heap.reachableMarks roots) heap.slots.size 0 0 = r at *
  obtain ⟨freed, heap'⟩ := r
  simp only at hc hid hmax hsize hsum hslots
  have hslots' : ∀ i : Nat, heap'.slots[i]? = if (heap.reachableMarks roots)[i]? ≠ some true then
      heap.slots[i]?.map Slot.reclaimed else heap.slots[i]? := by
    intro i
    rw [hslots]
    by_cases hi : i < heap.slots.size
    · exact if_congr ⟨fun h => h.2.2, fun h => ⟨Nat.zero_le _, by omega, h⟩⟩ rfl rfl
    · have hnone : heap.slots[i]? = none := Array.getElem?_eq_none (by omega)
      simp [hnone]
  have hkeep := fun e => (swept_cell? w hr hid hc.usable hslots' e).1
  have hdrop := fun e => (swept_cell? w hr hid hc.usable hslots' e).2
  refine ⟨freed, heap', hrun, ⟨hc, ?_, fun i head tail hcell => ?_⟩,
    ⟨hid, hmax, hsize, hkeep, hdrop, fun i => ?_, fun e c hcell he => ?_⟩, by omega⟩
  · have h0 : (heap.reachableMarks roots)[0]? = some true :=
      reachableMarks_complete w hr (e := heap.nilHandle) (.root List.mem_cons_self)
    rw [hslots', if_neg (not_not.mpr h0), w.nil_slot, nilHandle, nilHandle, hid]
  · have hpair := Consistent.cell?_eq hc hcell
    have hreach : heap.Reaches roots (heap'.handleAt i) := by
      by_contra hne
      rw [hdrop _ hne] at hpair
      cases hpair
    rw [hkeep _ hreach] at hpair
    obtain ⟨⟨c, hhead⟩, ⟨d, htail⟩⟩ := w.parts_of_pair hpair
    exact ⟨isLive_of_cell? ((hkeep _ (hreach.head hpair)).trans hhead),
      isLive_of_cell? ((hkeep _ (hreach.tail hpair)).trans htail)⟩
  · simp only [generationAt, hslots']
    split
    · cases heap.slots[i]? with
      | none => exact Nat.le_refl _
      | some s => rcases s with ⟨g, _ | c, h⟩ <;> simp [Slot.reclaimed]
    · exact Nat.le_refl _
  · have hm : (heap.reachableMarks roots)[e.index]? ≠ some true :=
      fun hm => he ((marked_iff_reaches w hr hcell).mp hm)
    obtain ⟨-, s, hs, hsc, -⟩ := cell?_eq_some_iff.mp hcell
    simp only [generationAt, hslots', if_pos hm, hs]
    simp [Slot.reclaimed, hsc]

/-! ## Collecting again -/

/-- Roots that reach the same handles give the same marks. -/
theorem reachableMarks_congr {roots' : List Handle} (w : heap.WellFormed)
    (hr : ∀ e ∈ roots, heap.isLive e = true) (hr' : ∀ e ∈ roots', heap.isLive e = true)
    (h : ∀ e, heap.Reaches roots e ↔ heap.Reaches roots' e) :
    heap.reachableMarks roots = heap.reachableMarks roots' := by
  have hmarks : ∀ i : Nat, (heap.reachableMarks roots)[i]? = some true ↔
      (heap.reachableMarks roots')[i]? = some true := by
    intro i
    rw [reachableMarks_iff w hr, reachableMarks_iff w hr']
    exact exists_congr fun e => and_congr_left fun _ => h e
  refine Array.ext (by rw [size_reachableMarks, size_reachableMarks]) fun i hi hi' => ?_
  have hat := hmarks i
  rw [Array.getElem?_eq_getElem hi, Array.getElem?_eq_getElem hi', Option.some_inj,
    Option.some_inj] at hat
  exact Bool.eq_iff_iff.mpr hat

/-- **A collection depends on the set of reachable handles only**, not on the order of the roots or
how often one is given. -/
theorem collect_congr {roots' : List Handle} (w : heap.WellFormed)
    (hr : ∀ e ∈ roots, heap.isLive e = true) (hr' : ∀ e ∈ roots', heap.isLive e = true)
    (h : ∀ e, heap.Reaches roots e ↔ heap.Reaches roots' e) :
    collect roots heap = collect roots' heap := by
  rw [collect_eq w hr, collect_eq w hr', reachableMarks_congr w hr hr' h]

theorem Collects.reaches_iff {heap' : Heap κ} (h : heap.Collects roots heap') (e : Handle) :
    heap'.Reaches roots e ↔ heap.Reaches roots e := by
  unfold Reaches
  rw [nilHandle, h.id_eq]
  exact Reach.congr (fun f hf => h.cell?_eq f hf) e

/-- A collection adds nothing. -/
theorem Collects.cell?_of_some {heap' : Heap κ} (h : heap.Collects roots heap') {e : Handle}
    {c : Cell κ} (hc : heap'.cell? e = some c) : heap.cell? e = some c := by
  by_cases he : heap.Reaches roots e
  · rw [← h.cell?_eq e he, hc]
  · cases (h.cell?_eq_none e he).symm.trans hc

/-- What the roots reach, nil aside, is kept. -/
theorem Collects.cell?_eq_of_reach {heap' : Heap κ} (h : heap.Collects roots heap') {e : Handle}
    (he : Reach heap.cell? roots e) : heap'.cell? e = heap.cell? e :=
  h.cell?_eq e (he.mono (fun _ hf => .root (List.mem_cons_of_mem _ hf)) fun _ _ _ hc => hc)

theorem Collects.reach_iff {heap' : Heap κ} (h : heap.Collects roots heap') (e : Handle) :
    Reach heap'.cell? roots e ↔ Reach heap.cell? roots e :=
  Reach.congr (fun _ hf => h.cell?_eq_of_reach hf) e

/-- **A collection whose roots reach all that is live** frees nothing and leaves the heap as it is,
the order of its free slots included. -/
theorem collect_eq_self (w : heap.WellFormed) (hr : ∀ e ∈ roots, heap.isLive e = true)
    (hall : ∀ e, heap.isLive e = true → heap.Reaches roots e) :
    collect roots heap = (.ok ⟨heap.live, 0⟩, heap) := by
  have hmarked : ∀ i c, heap.cellAt? i = some c →
      (heap.reachableMarks roots)[i]? = some true := fun i c hc =>
    reachableMarks_complete w hr (e := heap.handleAt i)
      (hall _ (isLive_of_cell? (Consistent.cell?_eq w.toConsistent hc)))
  rw [collect_eq w hr, sweep_eq_self _ _ _ _ _ hmarked]

/-- **A second collection with the same roots frees nothing and leaves the heap as it is.** -/
theorem collect_twice {heap' : Heap κ} (w' : heap'.WellFormed)
    (hr : ∀ e ∈ roots, heap.isLive e = true) (h : heap.Collects roots heap') :
    collect roots heap' = (.ok ⟨heap'.live, 0⟩, heap') := by
  refine collect_eq_self w' (fun e he => ?_) fun e he => (h.reaches_iff e).mpr ?_
  · obtain ⟨c, hc⟩ := isLive_iff.mp (hr e he)
    exact isLive_of_cell? ((h.cell?_eq e (.root (List.mem_cons_of_mem _ he))).trans hc)
  · obtain ⟨c, hc⟩ := isLive_iff.mp he
    by_contra hne
    cases (h.cell?_eq_none e hne).symm.trans hc

end Heap

end ConsoleLisp
