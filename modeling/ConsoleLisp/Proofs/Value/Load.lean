import ConsoleLisp.Heap.Lists
import ConsoleLisp.Proofs.Heap.Run
import ConsoleLisp.Proofs.Value.Denotation

/-!
# Loading data into a heap

A written expression is loaded as new cells, and how many it takes is the size of its tree in cells.
`Allocates n` says of an action that it takes `n` cells when there is room for them, changes none
that is there, and otherwise is refused by the full heap.

Results:
* `allocate_allocates`: an allocation takes one cell.
* `Allocates.bind`: a sequence takes what its parts take.
* **`load_allocates`**: a written expression is loaded as its tree, out of new cells and nil.
-/

namespace ConsoleLisp

/-- The cells that a tree takes: one for each pair and each atom but nil, of which a heap has one. -/
def Tree.cells {β : Type} : Tree β → Nat
  | nil => 0
  | pair head tail => head.cells + tail.cells + 1
  | _ => 1

namespace Heap

variable {κ α γ : Type}

/-- There is room for so many cells more. -/
def Room (heap : Heap κ) (n : Nat) : Prop :=
  ∀ limit, heap.capacity? = some limit → heap.live + n ≤ limit

/-- A heap without a bound has room for everything. -/
theorem room_of_infinity {heap : Heap κ} (h : heap.maxSlots = Number.infinity) (n : Nat) :
    heap.Room n := by
  have hcapacity : Number.ceil? Number.infinity = none := by decide +kernel
  intro limit hlimit
  rw [capacity?, h, hcapacity] at hlimit
  cases hlimit

/-- A heap that has all the cells of another one. -/
structure Extends (heap heap' : Heap κ) : Prop where
  id_eq : heap'.id = heap.id
  maxSlots_eq : heap'.maxSlots = heap.maxSlots
  cell?_mono : ∀ e c, heap.cell? e = some c → heap'.cell? e = some c

/-- The cells of a later heap that an earlier one does not have, and nil. -/
def fresh (heap heap' : Heap κ) (e : Handle) : Option (Cell κ) :=
  if heap.cell? e = none ∨ e = heap.nilHandle then heap'.cell? e else none

theorem Extends.refl (heap : Heap κ) : Extends heap heap := ⟨rfl, rfl, fun _ _ h => h⟩

theorem Extends.trans {heap heap' heap'' : Heap κ} (h : Extends heap heap')
    (h' : Extends heap' heap'') : Extends heap heap'' :=
  ⟨h'.id_eq.trans h.id_eq, h'.maxSlots_eq.trans h.maxSlots_eq,
    fun e c hc => h'.cell?_mono e c (h.cell?_mono e c hc)⟩

theorem fresh_eq_some_iff {heap heap' : Heap κ} {e : Handle} {c : Cell κ} :
    heap.fresh heap' e = some c ↔
      (heap.cell? e = none ∨ e = heap.nilHandle) ∧ heap'.cell? e = some c := by
  unfold fresh
  split <;> simp_all

theorem cell?_of_fresh {heap heap' : Heap κ} (e : Handle) (c : Cell κ)
    (h : heap.fresh heap' e = some c) : heap'.cell? e = some c :=
  (fresh_eq_some_iff.mp h).2

/-- The action takes `n` cells when there is room for them, and what it returns is as `P` says;
without the room it is refused. No cell that is there changes. -/
def Allocates (n : Nat) (action : HeapM κ α) (heap : Heap κ) (P : Heap κ → α → Prop) : Prop :=
  ∃ heap', heap'.WellFormed ∧ Extends heap heap' ∧
    ((∃ a, action heap = (.ok a, heap') ∧ heap'.live = heap.live + n ∧ P heap' a) ∨
      action heap = (.error (.heap (.exhausted heap.id heap.maxSlots)), heap') ∧ ¬ heap.Room n)

section Allocates

variable {heap : Heap κ} {n m : Nat} {P : Heap κ → α → Prop} {Q : Heap κ → γ → Prop}

theorem Allocates.pure {a : α} (w : heap.WellFormed) (h : P heap a) :
    Allocates 0 (pure a : HeapM κ α) heap P :=
  ⟨heap, w, .refl heap, .inl ⟨a, rfl, rfl, h⟩⟩

/-- **A sequence takes what its parts take.** -/
theorem Allocates.bind {x : HeapM κ α} {f : α → HeapM κ γ} (hx : Allocates n x heap P)
    (hf : ∀ a heap', heap'.WellFormed → Extends heap heap' → P heap' a →
      Allocates m (f a) heap' Q) :
    Allocates (n + m) (x >>= f) heap Q := by
  obtain ⟨heap', w', hext, ⟨a, hrun, hlive, ha⟩ | ⟨hrun, hroom⟩⟩ := hx
  · obtain ⟨heap'', w'', hext', ⟨b, hrun', hlive', hb⟩ | ⟨hrun', hroom⟩⟩ := hf a heap' w' hext ha
    · refine ⟨heap'', w'', hext.trans hext', .inl ⟨b, (Act.run_bind_ok hrun).trans hrun', ?_, hb⟩⟩
      omega
    · refine ⟨heap'', w'', hext.trans hext', .inr ⟨?_, fun h => hroom fun limit hlimit => ?_⟩⟩
      · rw [Act.run_bind_ok hrun, hrun', hext.id_eq, hext.maxSlots_eq]
      · have := h limit (by rwa [capacity?, hext.maxSlots_eq] at hlimit)
        omega
  · refine ⟨heap', w', hext, .inr ⟨Act.run_bind_error hrun, fun h => hroom fun limit hlimit => ?_⟩⟩
    have := h limit hlimit
    omega

theorem Allocates.imp {P' : Heap κ → α → Prop} {x : HeapM κ α} (hx : Allocates n x heap P)
    (h : ∀ a heap', Extends heap heap' → P heap' a → P' heap' a) : Allocates n x heap P' := by
  obtain ⟨heap', w', hext, ⟨a, hrun, hlive, ha⟩ | hrefused⟩ := hx
  · exact ⟨heap', w', hext, .inl ⟨a, hrun, hlive, h a heap' hext ha⟩⟩
  · exact ⟨heap', w', hext, .inr hrefused⟩

/-- With room for what it takes an action returns. -/
theorem Allocates.returns {x : HeapM κ α} (hx : Allocates n x heap P) (hroom : heap.Room n) :
    ∃ a heap', x heap = (.ok a, heap') ∧ heap'.WellFormed ∧ Extends heap heap' ∧ P heap' a := by
  obtain ⟨heap', w', hext, ⟨a, hrun, -, ha⟩ | ⟨-, hnot⟩⟩ := hx
  · exact ⟨a, heap', hrun, w', hext, ha⟩
  · exact absurd hroom hnot

/-- What an action that has returned took and gave. -/
theorem Allocates.of_ok {x : HeapM κ α} (hx : Allocates n x heap P) {a : α} {heap' : Heap κ}
    (h : x heap = (.ok a, heap')) :
    heap'.WellFormed ∧ Extends heap heap' ∧ heap'.live = heap.live + n ∧ P heap' a := by
  obtain ⟨heap'', w', hext, ⟨b, hrun, hlive, hb⟩ | ⟨hrun, -⟩⟩ := hx
  · cases hrun.symm.trans h
    exact ⟨w', hext, hlive, hb⟩
  · cases hrun.symm.trans h

/-! ## Single cells -/

theorem live_of_allocate {cell : Cell κ} {e : Handle} {heap' : Heap κ}
    (h : allocate cell heap = (.ok e, heap')) : heap'.live = heap.live + 1 := by
  unfold allocate at h
  split at h
  · cases h
  · split at h
    · cases h
      rfl
    · split at h
      · cases h
      · cases h
        rfl

/-- A heap that cannot take a cell is full: all its slots are in use. -/
theorem not_room_of_full (w : heap.WellFormed) (hfree : heap.free = [])
    (hfull : heap.isFull = true) : ¬ heap.Room 1 := by
  intro h
  have hsum := w.live_add_free
  rw [hfree, List.length_nil] at hsum
  unfold isFull at hfull
  cases hlimit : heap.capacity? with
  | none =>
    rw [hlimit] at hfull
    cases hfull
  | some limit =>
    rw [hlimit, Option.any_some, decide_eq_true_eq] at hfull
    have := h limit hlimit
    omega

/-- **An allocation takes one cell**, under a handle that was not live. -/
theorem allocate_allocates (w : heap.WellFormed) {cell : Cell κ} (hp : heap.PartsLive cell) :
    Allocates 1 (allocate cell) heap fun heap' e => heap.fresh heap' e = some cell := by
  rcases allocate_spec w hp with ⟨hfree, hfull, hrun⟩ | ⟨e, heap', hrun, w', hu, hnew⟩
  · exact ⟨heap, w, .refl heap, .inr ⟨hrun, not_room_of_full w hfree hfull⟩⟩
  · refine ⟨heap', w', ⟨hu.id_eq, hu.maxSlots_eq, fun f c hc => ?_⟩,
      .inl ⟨e, hrun, live_of_allocate hrun, ?_⟩⟩
    · rw [hu.cell?_eq, if_neg, hc]
      rintro rfl
      rw [hnew] at hc
      cases hc
    · exact fresh_eq_some_iff.mpr ⟨.inl hnew, by rw [hu.cell?_eq, if_pos rfl]⟩

theorem pair_allocates (w : heap.WellFormed) {head tail : Handle} (hh : heap.isLive head = true)
    (ht : heap.isLive tail = true) :
    Allocates 1 (pair head tail) heap fun heap' e =>
      heap.fresh heap' e = some (.pair head tail) := by
  have hparts : heap.PartsLive (.pair head tail) := by
    intro head' tail' heq
    cases heq
    exact ⟨hh, ht⟩
  obtain ⟨heap', w', hext, hrun⟩ := allocate_allocates w hparts
  rw [← pair_eq_allocate hh ht] at hrun
  exact ⟨heap', w', hext, hrun⟩

end Allocates

/-! ## Trees -/

section Trees

variable {heap heap' heap'' : Heap κ} {β : Type} {embed : β → κ} {e : Handle} {t : Tree β}

/-- A tree of new cells stays one when more cells are added. -/
theorem fresh_grow (h : Denotes embed (heap.fresh heap') e t) (hext : Extends heap' heap'') :
    Denotes embed (heap.fresh heap'') e t := by
  refine h.mono fun f c hc => ?_
  obtain ⟨hnew, hc⟩ := fresh_eq_some_iff.mp hc
  exact fresh_eq_some_iff.mpr ⟨hnew, hext.cell?_mono f c hc⟩

/-- What is new in a later heap is new in an earlier one. -/
theorem fresh_weaken (h : Denotes embed (heap'.fresh heap'') e t) (hext : Extends heap heap') :
    Denotes embed (heap.fresh heap'') e t := by
  refine h.mono fun f c hc => ?_
  obtain ⟨hnew, hc⟩ := fresh_eq_some_iff.mp hc
  refine fresh_eq_some_iff.mpr ⟨hnew.imp (fun hnone => ?_) fun hnil => ?_, hc⟩
  · refine Option.eq_none_iff_forall_ne_some.mpr fun d hd => ?_
    rw [hext.cell?_mono f d hd] at hnone
    cases hnone
  · rw [hnil, nilHandle, nilHandle, hext.id_eq]

theorem isLive_of_fresh (h : Denotes embed (heap.fresh heap') e t) : heap'.isLive e = true := by
  obtain ⟨c, hc⟩ := h.exists_look
  exact isLive_of_cell? (cell?_of_fresh e c hc)

theorem nil_allocates (embed : β → κ) (w : heap.WellFormed) :
    Allocates 0 Heap.nil heap fun heap' e => Denotes embed (heap.fresh heap') e .nil :=
  ⟨heap, w, .refl heap, .inl ⟨heap.nilHandle, nil_spec w, rfl,
    .atom (fresh_eq_some_iff.mpr ⟨.inr rfl, w.cell?_nil⟩) rfl⟩⟩

theorem atom_allocates (w : heap.WellFormed) {cell : Cell κ} (ha : t.atom? embed = some cell) :
    Allocates 1 (allocate cell) heap fun heap' e => Denotes embed (heap.fresh heap') e t := by
  have hp : heap.PartsLive cell := fun head tail h => absurd (h ▸ ha) Tree.atom?_ne_pair
  exact (allocate_allocates w hp).imp fun e heap' _ hc => .atom hc ha

/-- A pair of two trees of new cells. -/
theorem cons_allocates (w' : heap'.WellFormed) (hext : Extends heap heap') {head tail : Handle}
    {s t : Tree β} (hs : Denotes embed (heap.fresh heap') head s)
    (ht : Denotes embed (heap.fresh heap') tail t) :
    Allocates 1 (pair head tail) heap' fun heap'' e =>
      Denotes embed (heap.fresh heap'') e (s.pair t) := by
  refine (pair_allocates w' (isLive_of_fresh hs) (isLive_of_fresh ht)).imp fun e heap'' hext' hc =>
    .pair ?_ (fresh_grow hs hext') (fresh_grow ht hext')
  obtain ⟨hnew, hc⟩ := fresh_eq_some_iff.mp hc
  refine fresh_eq_some_iff.mpr ⟨.inl ?_, hc⟩
  -- the new handle is not that of nil: its cell is a pair
  rcases hnew with hnone | rfl
  · refine Option.eq_none_iff_forall_ne_some.mpr fun d hd => ?_
    rw [hext.cell?_mono e d hd] at hnone
    cases hnone
  · rw [hext'.cell?_mono _ _ w'.cell?_nil] at hc
    cases hc

/-- The pairs of a list of trees of new cells. -/
theorem listOnto_allocates (w' : heap'.WellFormed) (hext : Extends heap heap')
    {items : List Handle} {trees : List (Tree β)} {tail : Handle}
    (hitems : DenoteAll embed (heap.fresh heap') items trees)
    (ht : Denotes embed (heap.fresh heap') tail t) :
    Allocates items.length (listOnto items tail) heap' fun heap'' e =>
      Denotes embed (heap.fresh heap'') e (trees.foldr .pair t) := by
  induction hitems with
  | nil => exact .pure w' ht
  | cons hd _ ih =>
    rw [listOnto, List.foldrM_cons]
    refine ih.bind fun list heap'' w'' hext' hlist => ?_
    exact cons_allocates w'' (hext.trans hext') (fresh_grow hd hext') hlist

theorem list_allocates (w' : heap'.WellFormed) (hext : Extends heap heap') {items : List Handle}
    {trees : List (Tree β)} (hitems : DenoteAll embed (heap.fresh heap') items trees) :
    Allocates items.length (Heap.list items) heap' fun heap'' e =>
      Denotes embed (heap.fresh heap'') e (.ofList trees) := by
  rw [← Nat.zero_add items.length]
  refine (nil_allocates embed w').bind fun nil heap'' w'' hext' hnil => ?_
  exact listOnto_allocates w'' (hext.trans hext') (hitems.imp fun _ _ hd => fresh_grow hd hext')
    (fresh_weaken hnil hext)

/-- **A written expression is loaded as its tree**, out of new cells and nil. -/
theorem load_allocates (datum : Datum) (w : heap.WellFormed) :
    Allocates (datum.toTree : Tree β).cells (load datum) heap fun heap' e =>
      Denotes embed (heap.fresh heap') e datum.toTree := by
  induction datum generalizing heap with
  | nil => exact nil_allocates embed w
  | number | symbol | string => exact atom_allocates w rfl
  | quoted datum ih =>
    have hcells : ((Datum.quoted datum).toTree : Tree β).cells =
        (datum.toTree : Tree β).cells + 3 := by
      simp only [Datum.toTree, Tree.ofList, List.foldr_cons, List.foldr_nil, Tree.cells]
      omega
    rw [hcells]
    refine (ih w).bind fun quoted heap₁ w₁ hext₁ hq => ?_
    have hword : Allocates 1 (allocate (.symbol (text "quote"))) heap₁ fun heap' e =>
        Denotes embed (heap₁.fresh heap') e (.symbol (text "quote")) := atom_allocates w₁ rfl
    refine hword.bind (m := 2) fun word heap₂ w₂ hext₂ hw => ?_
    have hext := hext₁.trans hext₂
    exact list_allocates w₂ hext (.cons (fresh_weaken hw hext₁) (.cons (fresh_grow hq hext₂) .nil))
  | cons head tail ihh iht =>
    rw [Datum.toTree, Tree.cells, Nat.add_assoc]
    refine (ihh w).bind fun h heap₁ w₁ hext₁ hh => ?_
    refine (iht w₁).bind fun t heap₂ w₂ hext₂ ht => ?_
    exact cons_allocates w₂ (hext₁.trans hext₂) (fresh_grow hh hext₂) (fresh_weaken ht hext₁)

end Trees

end Heap

end ConsoleLisp
