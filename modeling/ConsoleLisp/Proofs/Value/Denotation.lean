import ConsoleLisp.Heap.Lists
import ConsoleLisp.Proofs.Heap.Reachability
import ConsoleLisp.Proofs.Value.Tree

/-!
# What a handle denotes

`Denotes embed look e t` says that the handle `e` has the tree `t` in a partial map `look` from
handles to cells; `embed` takes the actions of the tree's natives to those of the heap. Only handles
from which no cycle can be reached denote a tree.

Results:
* `Denotes.mono`: a map that shows more denotes no less.
* `Denotes.size_eq`: all trees of a handle have the same size, so a handle does not occur in the
  parts of its own tree.
* **`Denotes.spine_lt`**: the pairs along the tails are fewer than the slots of the heap.
-/

namespace ConsoleLisp

variable {κ β : Type}

/-- The handle has the tree. -/
inductive Denotes (embed : β → κ) (look : Handle → Option (Cell κ)) : Handle → Tree β → Prop
  | atom {e : Handle} {t : Tree β} {c : Cell κ} : look e = some c → t.atom? embed = some c →
      Denotes embed look e t
  | pair {e head tail : Handle} {s t : Tree β} : look e = some (.pair head tail) →
      Denotes embed look head s → Denotes embed look tail t → Denotes embed look e (.pair s t)

/-- Handles that denote trees, one each. -/
abbrev DenoteAll (embed : β → κ) (look : Handle → Option (Cell κ)) :
    List Handle → List (Tree β) → Prop :=
  List.Forall₂ (Denotes embed look)

theorem Tree.atom?_ne_pair {embed : β → κ} {t : Tree β} {head tail : Handle} :
    t.atom? embed ≠ some (.pair head tail) := by
  cases t <;> simp [Tree.atom?]

theorem Tree.size_of_atom? {embed : β → κ} {t : Tree β} {c : Cell κ}
    (h : t.atom? embed = some c) : t.size = 0 := by
  cases t <;> first | rfl | cases h

theorem Tree.spine_of_atom? {embed : β → κ} {t : Tree β} {c : Cell κ}
    (h : t.atom? embed = some c) : t.spine = 0 := by
  cases t <;> first | rfl | cases h

namespace Denotes

variable {embed : β → κ} {look look' : Handle → Option (Cell κ)} {e : Handle} {t : Tree β}

/-- **A map that shows more denotes no less.** -/
theorem mono (hl : ∀ e c, look e = some c → look' e = some c) (h : Denotes embed look e t) :
    Denotes embed look' e t := by
  induction h with
  | atom hc ha => exact .atom (hl _ _ hc) ha
  | pair hc _ _ ihh iht => exact .pair (hl _ _ hc) ihh iht

theorem exists_look (h : Denotes embed look e t) : ∃ c, look e = some c := by
  cases h with
  | atom hc => exact ⟨_, hc⟩
  | pair hc => exact ⟨_, hc⟩

/-- What denotes an atom is the cell of the atom. -/
theorem look_of_atom? {c : Cell κ} (h : Denotes embed look e t) (ha : t.atom? embed = some c) :
    look e = some c := by
  cases h with
  | atom hc ha' => exact hc.trans (ha'.symm.trans ha)
  | pair => cases ha

/-- All trees of a handle have the same size. -/
theorem size_eq {u : Tree β} (h : Denotes embed look e t) (h' : Denotes embed look e u) :
    t.size = u.size := by
  induction h generalizing u with
  | atom hc ha =>
    cases h' with
    | atom hc' ha' => rw [Tree.size_of_atom? ha, Tree.size_of_atom? ha']
    | pair hc' =>
      cases hc.symm.trans hc'
      exact absurd ha Tree.atom?_ne_pair
  | pair hc _ _ ihh iht =>
    cases h' with
    | atom hc' ha' =>
      cases hc.symm.trans hc'
      exact absurd ha' Tree.atom?_ne_pair
    | pair hc' hh' ht' =>
      cases hc.symm.trans hc'
      rw [Tree.size, Tree.size, ihh hh', iht ht']

/-- They have as many pairs along the tails. -/
theorem spine_eq {u : Tree β} (h : Denotes embed look e t) (h' : Denotes embed look e u) :
    t.spine = u.spine := by
  induction h generalizing u with
  | atom hc ha =>
    cases h' with
    | atom hc' ha' => rw [Tree.spine_of_atom? ha, Tree.spine_of_atom? ha']
    | pair hc' =>
      cases hc.symm.trans hc'
      exact absurd ha Tree.atom?_ne_pair
  | pair hc _ _ _ iht =>
    cases h' with
    | atom hc' ha' =>
      cases hc.symm.trans hc'
      exact absurd ha' Tree.atom?_ne_pair
    | pair hc' _ ht' =>
      cases hc.symm.trans hc'
      exact congrArg (· + 1) (iht ht')

variable {heap : Heap κ}

/-- **The pairs along the tails are fewer than the slots of the heap**, so a walk with that much
fuel comes to an end. -/
theorem spine_lt (hl : ∀ e c, look e = some c → heap.cell? e = some c)
    (h : Denotes embed look e t) : t.spine < heap.slots.size := by
  refine Heap.lt_size_of_descent
    (P := fun n e => ∃ t, Denotes embed look e t ∧ t.spine = n)
    ?unique ?next ?live ⟨t, h, rfl⟩
  case unique =>
    rintro _ _ e ⟨t, h, rfl⟩ ⟨u, h', rfl⟩
    exact h.spine_eq h'
  case next =>
    rintro n e ⟨t, h, hspine⟩
    cases h with
    | atom _ ha =>
      rw [Tree.spine_of_atom? ha] at hspine
      cases hspine
    | pair _ _ ht => exact ⟨_, _, ht, Nat.succ.inj hspine⟩
  case live =>
    rintro n e ⟨t, h, -⟩
    obtain ⟨c, hc⟩ := h.exists_look
    exact ⟨c, hl e c hc⟩

/-! ## Reading values back -/

theorem inspect_eq (hl : ∀ e c, look e = some c → heap.cell? e = some c) {c : Cell κ}
    (hc : look e = some c) : heap.inspect e = .ok c :=
  Heap.inspect_eq_ok_iff.mpr (hl e c hc)

end Denotes

end ConsoleLisp
