import ConsoleLisp.Proofs.Heap.Additions
import ConsoleLisp.Proofs.Refinement.Environment

/-!
# Heaps that only grow, but for one frame

`OnlyAdds heap scope sets heap'` says that all cells of `heap` are in `heap'` as they were, except
that the pair of the scope points to a frame with the bindings `sets` in front of the one that it
had. Adding cells keeps this, and so does a binding, which is one more of `sets`.

Results:
* `OnlyAdds.isLive`: what was live is live.
* `OnlyAdds.grow`: adding cells.
* **`OnlyAdds.bind`**: a binding, when it is made and when the heap is full.
-/

namespace ConsoleLisp

namespace Heap

variable {κ : Type}

/-- The list of bindings from `front` on is the one from `old` on with bindings in front, each of a
symbol to a live value. The pair of the root is not part of it. -/
inductive Prepended (heap : Heap κ) (root : Handle) :
    List (Handle × Handle) → Handle → Handle → Prop
  | nil {frame : Handle} : Prepended heap root [] frame frame
  | cons {front binding rest old symbol value : Handle} {name : Text}
      {sets : List (Handle × Handle)} : heap.visible root front = some (.pair binding rest) →
      heap.visible root binding = some (.pair symbol value) →
      heap.cell? symbol = some (.symbol name) → heap.isLive value = true →
      Prepended heap root sets rest old → Prepended heap root ((symbol, value) :: sets) front old

/-- The later heap has all cells as they were, except that the frame of the scope has bindings, the
newest in front, before those that it had. -/
structure OnlyAdds (heap : Heap κ) (scope : Scope) (sets : List (Handle × Handle))
    (heap' : Heap κ) : Prop where
  wellFormed : heap'.WellFormed
  grows : Grows scope.chain heap heap'
  natives : ∀ e native, heap'.cell? e = some (.native native) →
    heap.cell? e = some (.native native)
  frame : ∃ old new parent, heap.cell? scope.chain = some (.pair old parent) ∧
    heap'.cell? scope.chain = some (.pair new parent) ∧
    Prepended heap' scope.chain sets new old

variable {heap heap' heap'' : Heap κ} {root : Handle} {scope : Scope}
  {sets : List (Handle × Handle)}

theorem Grows.isLive (hg : Grows root heap heap') (hroot : heap'.isLive root = true) {e : Handle}
    (he : heap.isLive e = true) : heap'.isLive e = true := by
  by_cases heq : e = root
  · rw [heq]
    exact hroot
  · obtain ⟨c, hc⟩ := isLive_iff.mp he
    exact isLive_of_cell? (hg.cell?_mono e c heq hc)

theorem Extends.grows (h : Extends heap heap') (root : Handle) : Grows root heap heap' :=
  ⟨h.id_eq, h.maxSlots_eq, fun e c _ => h.cell?_mono e c⟩

/-- A list of bindings stays as it is while the heap grows. -/
theorem Prepended.grow {new old frame parent : Handle} (h : Prepended heap root sets new old)
    (hg : Grows root heap heap') (hroot : heap.cell? root = some (.pair frame parent))
    (hroot' : heap'.isLive root = true) : Prepended heap' root sets new old := by
  induction h with
  | nil => exact .nil
  | cons hfront hbinding hsymbol hvalue _ ih =>
    refine .cons (hg.visible_mono hfront) (hg.visible_mono hbinding)
      (hg.cell?_mono _ _ ?_ hsymbol) (hg.isLive hroot' hvalue) ih
    rintro rfl
    cases hsymbol.symm.trans hroot

namespace OnlyAdds

theorem refl (w : heap.WellFormed) {frame parent : Handle}
    (hscope : heap.cell? scope.chain = some (.pair frame parent)) : OnlyAdds heap scope [] heap :=
  ⟨w, .refl _ heap, fun _ _ hc => hc, frame, frame, parent, hscope, hscope, .nil⟩

theorem exists_pair (h : OnlyAdds heap scope sets heap') :
    ∃ frame parent, heap'.cell? scope.chain = some (.pair frame parent) :=
  let ⟨_, frame, parent, _, hscope, _⟩ := h.frame
  ⟨frame, parent, hscope⟩

theorem scope_isLive (h : OnlyAdds heap scope sets heap') : heap'.isLive scope.chain = true := by
  obtain ⟨_, _, hscope⟩ := h.exists_pair
  exact isLive_of_cell? hscope

/-- What was live is live. -/
theorem isLive (h : OnlyAdds heap scope sets heap') {e : Handle} (he : heap.isLive e = true) :
    heap'.isLive e = true :=
  h.grows.isLive h.scope_isLive he

theorem exhaustion_eq (h : OnlyAdds heap scope sets heap') :
    heap'.exhaustion = heap.exhaustion := by
  rw [exhaustion, exhaustion, h.grows.id_eq, h.grows.maxSlots_eq]

/-- Cells are added. -/
theorem grow (h : OnlyAdds heap scope sets heap') (w : heap''.WellFormed)
    (hadds : Adds heap' heap'') : OnlyAdds heap scope sets heap'' := by
  have hg := hadds.toExtends.grows scope.chain
  obtain ⟨old, new, parent, hscope, hscope', hfront⟩ := h.frame
  have hscope'' := hadds.cell?_mono _ _ hscope'
  exact ⟨w, h.grows.trans hg, fun e native hc => h.natives e native (hadds.natives e native hc),
    old, new, parent, hscope, hscope'', hfront.grow hg hscope' (isLive_of_cell? hscope'')⟩

/-- **A binding is one more in front of the frame**, or the heap is full and none is there. -/
theorem bind (h : OnlyAdds heap scope sets heap') {symbol value : Handle} {name : Text}
    (hs : heap'.cell? symbol = some (.symbol name)) (hv : heap'.isLive value = true) :
    ∃ heap'', Grows scope.chain heap' heap'' ∧
      (scope.bind symbol value heap' = (.error heap.exhaustion, heap'') ∧
          OnlyAdds heap scope sets heap'' ∨
        scope.bind symbol value heap' = (.ok (), heap'') ∧
          OnlyAdds heap scope ((symbol, value) :: sets) heap'') := by
  obtain ⟨old, new, parent, hscope, hscope', hfront⟩ := h.frame
  obtain ⟨heap₁, w₁, hadds, hrun | ⟨binding, front, heap'', hrun, w'', hbnew, hb, hfnew, hf, hu⟩⟩ :=
    bind_spec h.wellFormed hs hscope' hv
  · rw [h.exhaustion_eq] at hrun
    exact ⟨heap₁, hadds.toExtends.grows _, .inl ⟨hrun, h.grow w₁ hadds⟩⟩
  · -- the two new pairs are not that of the scope, the one cell that is replaced
    have hne : ∀ e, heap'.cell? e = none → e ≠ scope.chain := by
      rintro e he rfl
      cases he.symm.trans hscope'
    have hsame : ∀ e, e ≠ scope.chain → heap''.cell? e = heap₁.cell? e := fun e he =>
      (hu.cell?_eq e).trans (if_neg he)
    have hgrows : Grows scope.chain heap' heap'' :=
      ⟨hu.id_eq.trans hadds.id_eq, hu.maxSlots_eq.trans hadds.maxSlots_eq,
        fun e c he hc => (hsame e he).trans (hadds.cell?_mono e c hc)⟩
    have hroot : heap''.cell? scope.chain = some (.pair front parent) :=
      (hu.cell?_eq _).trans (if_pos rfl)
    have hlive := isLive_of_cell? hroot
    refine ⟨heap'', hgrows, .inr ⟨hrun, w'', h.grows.trans hgrows, fun e native hc => ?_,
      old, front, parent, hscope, hroot, ?_⟩⟩
    · have he : e ≠ scope.chain := by
        rintro rfl
        cases hc.symm.trans hroot
      rw [hsame e he] at hc
      exact h.natives e native (hadds.natives e native hc)
    · refine .cons (visible_eq_some_iff.mpr ⟨hne front hfnew, (hsame _ (hne front hfnew)).trans hf⟩)
        (visible_eq_some_iff.mpr ⟨hne binding hbnew, (hsame _ (hne binding hbnew)).trans hb⟩)
        (hgrows.cell?_mono _ _ ?_ hs) (hgrows.isLive hlive hv) (hfront.grow hgrows hscope' hlive)
      rintro rfl
      cases hs.symm.trans hscope'

end OnlyAdds

end Heap

end ConsoleLisp
