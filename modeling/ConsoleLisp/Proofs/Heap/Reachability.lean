import ConsoleLisp.Heap.Collection
import ConsoleLisp.Proofs.Heap.WellFormed

/-!
# Reachability and the marks of a collection

`Reach look roots` is reachability over the parts of pairs in any partial map from handles to cells,
and `Heap.Reaches` the instance for a heap, nil included among the roots. The mark loop works on
slots; its result is described by two facts that need no assumption on the heap: it stays inside
every set of slots closed under links (`mark_sound`), and it leaves no link from a marked slot to an
unmarked one (`mark_closed`).

Results:
* `Reaches.exists_cell?`: from live roots only live handles are reached.
* **`reachableMarks_iff`**: the marked slots are those of the reachable handles.
-/

namespace ConsoleLisp

variable {κ : Type}

/-- The native of a cell. -/
def Cell.native? : Cell κ → Option (Native κ)
  | .native procedure => some procedure
  | _ => none

/-! ## Reachability over handles -/

/-- What can be reached from the roots over the parts of the pairs that `look` shows. -/
inductive Reach (look : Handle → Option (Cell κ)) (roots : List Handle) : Handle → Prop
  | root {e : Handle} : e ∈ roots → Reach look roots e
  | head {e head tail : Handle} : Reach look roots e → look e = some (.pair head tail) →
      Reach look roots head
  | tail {e head tail : Handle} : Reach look roots e → look e = some (.pair head tail) →
      Reach look roots tail

namespace Reach

variable {look look' : Handle → Option (Cell κ)} {roots roots' : List Handle}

/-- More roots and a map that shows no less reach no less. -/
theorem mono (hr : ∀ e ∈ roots, Reach look' roots' e)
    (hl : ∀ e, Reach look roots e → ∀ c, look e = some c → look' e = some c) {e : Handle}
    (h : Reach look roots e) : Reach look' roots' e := by
  induction h with
  | root he => exact hr _ he
  | head he hc ih => exact ih.head (hl _ he _ hc)
  | tail he hc ih => exact ih.tail (hl _ he _ hc)

/-- The parts of what is reached are reached. -/
theorem parts {e : Handle} (h : Reach look roots e) {p : Handle × Handle}
    (hp : p ∈ (look e).bind Cell.pair?) : Reach look roots p.1 ∧ Reach look roots p.2 := by
  obtain ⟨c, hc, hpair⟩ := Option.bind_eq_some_iff.mp hp
  cases c with
  | pair head tail =>
    cases hpair
    exact ⟨h.head hc, h.tail hc⟩
  | nil | number | symbol | string | native => cases hpair

/-- What holds of the roots and goes over to parts holds of all that is reached. -/
theorem of_closed {P : Handle → Prop} (hr : ∀ e ∈ roots, P e)
    (hparts : ∀ e, P e → ∀ p ∈ (look e).bind Cell.pair?, P p.1 ∧ P p.2) {e : Handle}
    (h : Reach look roots e) : P e := by
  induction h with
  | root he => exact hr _ he
  | @head e head tail _ hc ih => exact (hparts e ih (head, tail) (by rw [hc]; rfl)).1
  | @tail e head tail _ hc ih => exact (hparts e ih (head, tail) (by rw [hc]; rfl)).2

/-- What is reached is reached from one of the roots. -/
theorem exists_root {e : Handle} (h : Reach look roots e) : ∃ f ∈ roots, Reach look [f] e := by
  induction h with
  | @root e he => exact ⟨e, he, .root List.mem_cons_self⟩
  | head _ hc ih =>
    obtain ⟨f, hf, hreach⟩ := ih
    exact ⟨f, hf, hreach.head hc⟩
  | tail _ hc ih =>
    obtain ⟨f, hf, hreach⟩ := ih
    exact ⟨f, hf, hreach.tail hc⟩

/-- Reachability looks at reachable cells only. -/
theorem congr (hl : ∀ e, Reach look roots e → look' e = look e) (e : Handle) :
    Reach look' roots e ↔ Reach look roots e := by
  constructor
  · intro h
    induction h with
    | root he => exact .root he
    | head _ hc ih => exact ih.head (hl _ ih ▸ hc)
    | tail _ hc ih => exact ih.tail (hl _ ih ▸ hc)
  · exact mono (fun _ he => .root he) fun e he c hc => (hl e he).trans hc

end Reach

namespace Heap

/-- What a collection with these roots has to keep. -/
def Reaches (heap : Heap κ) (roots : List Handle) (e : Handle) : Prop :=
  Reach heap.cell? (heap.nilHandle :: roots) e

variable {heap : Heap κ} {roots : List Handle}

/-- **From live roots only live handles are reached.** -/
theorem Reaches.exists_cell? (w : heap.WellFormed) (hr : ∀ e ∈ roots, heap.isLive e = true)
    {e : Handle} (h : heap.Reaches roots e) : ∃ c, heap.cell? e = some c := by
  induction h with
  | root he =>
    rcases List.mem_cons.mp he with rfl | he
    · exact ⟨_, w.cell?_nil⟩
    · exact isLive_iff.mp (hr _ he)
  | head _ hc _ => exact (w.parts_of_pair hc).1
  | tail _ hc _ => exact (w.parts_of_pair hc).2

/-- What is reached from live roots, without nil, is live. -/
theorem WellFormed.exists_cell?_of_reach (w : heap.WellFormed)
    (hroots : ∀ e ∈ roots, heap.isLive e = true) {e : Handle} (h : Reach heap.cell? roots e) :
    ∃ c, heap.cell? e = some c := by
  have hreaches : heap.Reaches roots e :=
    h.mono (fun _ hf => .root (List.mem_cons_of_mem _ hf)) fun _ _ _ hc => hc
  exact hreaches.exists_cell? w hroots

/-! ## The mark loop -/

theorem getElem?_mark_slot {marks : Array Bool} {slot : Nat} (h : marks[slot]? = some false)
    (i : Nat) :
    (marks.setIfInBounds slot true)[i]? = if i = slot then some true else marks[i]? := by
  have hlt := (Array.getElem?_eq_some_iff.mp h).1
  rw [Array.getElem?_setIfInBounds]
  by_cases hi : i = slot
  · rw [if_pos hi.symm, if_pos hlt, if_pos hi]
  · rw [if_neg (Ne.symm hi), if_neg hi]

theorem size_mark (heap : Heap κ) (work : List Nat) (marks : Array Bool) :
    (heap.mark work marks).size = marks.size := by
  fun_induction mark heap work marks with
  | case1 => rfl
  | case2 marks slot work h _ ih => rw [ih, Array.size_setIfInBounds]
  | case3 marks slot work h ih => exact ih

/-- A mark that is set stays set. -/
theorem mark_keeps (heap : Heap κ) (work : List Nat) (marks : Array Bool) {i : Nat}
    (hi : marks[i]? ≠ some false) : (heap.mark work marks)[i]? ≠ some false := by
  fun_induction mark heap work marks with
  | case1 => exact hi
  | case2 marks slot work h _ ih =>
    refine ih ?_
    rw [getElem?_mark_slot h]
    split
    · simp
    · exact hi
  | case3 marks slot work h ih => exact ih hi

/-- **Only what a closed set allows is marked.** -/
theorem mark_sound {P : Nat → Prop} (hP : ∀ i, P i → ∀ j ∈ heap.linksAt i, P j)
    (work : List Nat) (marks : Array Bool) (hw : ∀ i ∈ work, P i)
    (hm : ∀ i, marks[i]? = some true → P i) :
    ∀ i, (heap.mark work marks)[i]? = some true → P i := by
  fun_induction mark heap work marks with
  | case1 => exact hm
  | case2 marks slot work h _ ih =>
    have hslot : P slot := hw slot List.mem_cons_self
    refine ih (fun i hi => ?_) fun i hi => ?_
    · rcases List.mem_append.mp hi with hi | hi
      · exact hP slot hslot i hi
      · exact hw i (List.mem_cons_of_mem _ hi)
    · rw [getElem?_mark_slot h] at hi
      split at hi
      · rename_i his
        exact his ▸ hslot
      · exact hm i hi
  | case3 marks slot work h ih => exact ih (fun i hi => hw i (List.mem_cons_of_mem _ hi)) hm

/-- **When the work list has run dry, no link leads from a marked slot to an unmarked one.** The
invariant: every such link leads into the work list. -/
theorem mark_closed (heap : Heap κ) (work : List Nat) (marks : Array Bool)
    (hinv : ∀ i, marks[i]? = some true → ∀ j ∈ heap.linksAt i, marks[j]? = some false → j ∈ work) :
    (∀ i ∈ work, (heap.mark work marks)[i]? ≠ some false) ∧
      ∀ i, (heap.mark work marks)[i]? = some true →
        ∀ j ∈ heap.linksAt i, (heap.mark work marks)[j]? ≠ some false := by
  fun_induction mark heap work marks with
  | case1 marks =>
    exact ⟨fun i hi => absurd hi List.not_mem_nil,
      fun i hi j hj hf => absurd (hinv i hi j hj hf) List.not_mem_nil⟩
  | case2 marks slot work h _ ih =>
    have hinv' : ∀ i, (marks.setIfInBounds slot true)[i]? = some true → ∀ j ∈ heap.linksAt i,
        (marks.setIfInBounds slot true)[j]? = some false → j ∈ heap.linksAt slot ++ work := by
      intro i hi j hj hf
      rw [getElem?_mark_slot h] at hi hf
      split at hf
      · cases hf
      · rename_i hjs
        by_cases his : i = slot
        · exact List.mem_append_left _ (his ▸ hj)
        · rw [if_neg his] at hi
          rcases List.mem_cons.mp (hinv i hi j hj hf) with rfl | hjw
          · exact absurd rfl hjs
          · exact List.mem_append_right _ hjw
    obtain ⟨hwork, hclosed⟩ := ih hinv'
    refine ⟨fun i hi => ?_, hclosed⟩
    rcases List.mem_cons.mp hi with rfl | hi
    · exact mark_keeps heap _ _ (by rw [getElem?_mark_slot h, if_pos rfl]; simp)
    · exact hwork i (List.mem_append_right _ hi)
  | case3 marks slot work h ih =>
    have hinv' : ∀ i, marks[i]? = some true → ∀ j ∈ heap.linksAt i,
        marks[j]? = some false → j ∈ work := by
      intro i hi j hj hf
      rcases List.mem_cons.mp (hinv i hi j hj hf) with rfl | hjw
      · exact absurd hf h
      · exact hjw
    obtain ⟨hwork, hclosed⟩ := ih hinv'
    refine ⟨fun i hi => ?_, hclosed⟩
    rcases List.mem_cons.mp hi with rfl | hi
    · exact mark_keeps heap _ _ h
    · exact hwork i hi

/-! ## Marks and handles -/

theorem linksAt_eq {e : Handle} {c : Cell κ} (h : heap.cell? e = some c) :
    heap.linksAt e.index = c.links := by
  rw [linksAt, cell?_eq_cellAt? h]
  rfl

theorem size_reachableMarks (heap : Heap κ) (roots : List Handle) :
    (heap.reachableMarks roots).size = heap.slots.size := by
  rw [reachableMarks, size_mark, Array.size_replicate]

theorem reachableMarks_sound (w : heap.WellFormed) (hr : ∀ e ∈ roots, heap.isLive e = true)
    {i : Nat} (h : (heap.reachableMarks roots)[i]? = some true) :
    ∃ e, heap.Reaches roots e ∧ e.index = i := by
  refine mark_sound (P := fun i => ∃ e, heap.Reaches roots e ∧ e.index = i) ?_ _ _ ?_ ?_ i h
  · rintro _ ⟨e, he, rfl⟩ j hj
    obtain ⟨c, hc⟩ := he.exists_cell? w hr
    rw [linksAt_eq hc] at hj
    cases c with
    | pair head tail =>
      rcases List.mem_cons.mp hj with rfl | hj
      · exact ⟨head, he.head hc, rfl⟩
      · rw [List.mem_singleton.mp hj]
        exact ⟨tail, he.tail hc, rfl⟩
    | nil | number | symbol | string | native => exact absurd hj List.not_mem_nil
  · intro i hi
    rcases List.mem_cons.mp hi with rfl | hi
    · exact ⟨heap.nilHandle, .root List.mem_cons_self, rfl⟩
    · obtain ⟨e, he, rfl⟩ := List.mem_map.mp hi
      exact ⟨e, .root (List.mem_cons_of_mem _ he), rfl⟩
  · intro i hi
    rw [Array.getElem?_replicate] at hi
    split at hi <;> simp at hi

theorem reachableMarks_complete (w : heap.WellFormed) (hr : ∀ e ∈ roots, heap.isLive e = true)
    {e : Handle} (h : heap.Reaches roots e) :
    (heap.reachableMarks roots)[e.index]? = some true := by
  -- a slot in use is in bounds, so there "not unmarked" is "marked"
  have marked : ∀ {f : Handle} {c : Cell κ}, heap.cell? f = some c →
      (heap.reachableMarks roots)[f.index]? ≠ some false →
      (heap.reachableMarks roots)[f.index]? = some true := by
    intro f c hc hne
    have hlt : f.index < (heap.reachableMarks roots).size := by
      rw [size_reachableMarks]
      exact index_lt hc
    rw [Array.getElem?_eq_getElem hlt] at hne ⊢
    cases hb : (heap.reachableMarks roots)[f.index] with
    | true => rfl
    | false => exact absurd (congrArg some hb) hne
  obtain ⟨hwork, hclosed⟩ := mark_closed heap (0 :: roots.map Handle.index)
    (Array.replicate heap.slots.size false) (fun i hi => by
      rw [Array.getElem?_replicate] at hi
      split at hi <;> simp at hi)
  induction h with
  | root he =>
    rename_i e
    obtain ⟨c, hc⟩ := Reaches.exists_cell? w hr (.root he)
    refine marked hc (hwork _ ?_)
    rcases List.mem_cons.mp he with rfl | he
    · exact List.mem_cons_self
    · exact List.mem_cons_of_mem _ (List.mem_map_of_mem he)
  | head _ hc ih =>
    obtain ⟨_, hc'⟩ := (w.parts_of_pair hc).1
    exact marked hc' (hclosed _ ih _ (by rw [linksAt_eq hc]; exact List.mem_cons_self))
  | tail _ hc ih =>
    obtain ⟨_, hc'⟩ := (w.parts_of_pair hc).2
    refine marked hc' (hclosed _ ih _ ?_)
    rw [linksAt_eq hc]
    exact List.mem_cons_of_mem _ List.mem_cons_self

/-- **The marked slots are those of the reachable handles.** -/
theorem reachableMarks_iff (w : heap.WellFormed) (hr : ∀ e ∈ roots, heap.isLive e = true)
    (i : Nat) :
    (heap.reachableMarks roots)[i]? = some true ↔ ∃ e, heap.Reaches roots e ∧ e.index = i := by
  constructor
  · exact reachableMarks_sound w hr
  · rintro ⟨e, he, rfl⟩
    exact reachableMarks_complete w hr he

/-- A live handle is reachable when its slot is marked. -/
theorem marked_iff_reaches (w : heap.WellFormed) (hr : ∀ e ∈ roots, heap.isLive e = true)
    {e : Handle} {c : Cell κ} (hc : heap.cell? e = some c) :
    (heap.reachableMarks roots)[e.index]? = some true ↔ heap.Reaches roots e := by
  constructor
  · intro h
    obtain ⟨f, hf, hi⟩ := reachableMarks_sound w hr h
    obtain ⟨d, hd⟩ := hf.exists_cell? w hr
    exact eq_of_index_eq hd hc hi ▸ hf
  · exact reachableMarks_complete w hr

end Heap

end ConsoleLisp
