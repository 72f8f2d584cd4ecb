import ConsoleLisp.Proofs.Heap.Exactness
import ConsoleLisp.Proofs.Heap.Looking
import ConsoleLisp.Proofs.Value.Print
import Mathlib.Order.RelIso.Set

/-!
# Values without cycles

A value unfolds to a tree when no pair that can be reached from it contains itself. Parts may be
shared: the same handle then stands in several places of the tree, and is printed in each.

Results:
* **`exists_unfolds_iff`**: the live handles with a tree are those from which no cycle is reached.
* `Denotes.unique`: there is one such tree.
* `Tree.render_eq_unelided`: lists that are not nested too deep are printed in full.
* **`format_of_acyclic`**: what is printed for a value without cycles.
-/

namespace ConsoleLisp

/-! ## Trees -/

namespace Tree

variable {β : Type}

mutual

/-- The text of a tree with all its lists. -/
def unelided : Tree β → Text
  | pair head tail => unit '(' :: (head.unelided ++ (tail.unelidedTail ++ [unit ')']))
  | t => t.atomText

/-- The text between the first item of a list and its end. -/
def unelidedTail : Tree β → Text
  | nil => []
  | pair head tail => unit ' ' :: (head.unelided ++ tail.unelidedTail)
  | t => text " . " ++ t.atomText

end

/-- Below a depth that is not exceeded nothing is elided. The pairs of one list have one depth, so
the tail of a list is taken together with the list. -/
theorem render_and_renderTail_eq (t : Tree β) :
    (∀ depth, t.nesting ≤ depth → t.render depth = t.unelided) ∧
    ∀ depth, t.nesting ≤ depth + 1 → t.renderTail depth = t.unelidedTail := by
  induction t with
  | nil | number | symbol | string | native =>
    exact ⟨fun depth _ => by rw [render, unelided] <;> nofun,
      fun depth _ => by rw [renderTail, unelidedTail] <;> nofun⟩
  | pair head tail ihhead ihtail =>
    constructor
    · intro depth hdepth
      rw [nesting] at hdepth
      obtain ⟨depth, rfl⟩ : ∃ d, depth = d + 1 := ⟨depth - 1, by omega⟩
      rw [render, unelided, ihhead.1 depth (by omega), ihtail.2 depth (by omega)]
    · intro depth hdepth
      rw [nesting] at hdepth
      rw [renderTail, unelidedTail, ihhead.1 depth (by omega), ihtail.2 depth (by omega)]

/-- **Lists that are not nested too deep are printed in full.** -/
theorem render_eq_unelided {t : Tree β} {depth : Nat} (h : t.nesting ≤ depth) :
    t.render depth = t.unelided :=
  t.render_and_renderTail_eq.1 depth h

end Tree

/-! ## The tree of a handle -/

variable {κ : Type} {heap : Heap κ} {e : Handle}

theorem Tree.eq_of_atom? {t u : Tree κ} {c : Cell κ} (ht : t.atom? id = some c)
    (hu : u.atom? id = some c) : t = u := by
  rcases t with _ | _ | _ | _ | ⟨name, action⟩ | _ <;> cases ht <;>
    rcases u with _ | _ | _ | _ | ⟨name', action'⟩ | _ <;> cases hu <;> rfl

/-- The tree of a handle whose natives act as those of the heap. -/
abbrev Unfolds (heap : Heap κ) (e : Handle) (t : Tree κ) : Prop := Denotes id heap.cell? e t

/-- **A handle has one tree.** -/
theorem Denotes.unique {look : Handle → Option (Cell κ)} {t u : Tree κ}
    (ht : Denotes id look e t) (hu : Denotes id look e u) : t = u := by
  induction ht generalizing u with
  | @atom e t c hc ha =>
    cases hu with
    | @atom _ u d hd hb =>
      cases hc.symm.trans hd
      exact Tree.eq_of_atom? ha hb
    | pair hd =>
      cases hc.symm.trans hd
      exact absurd ha Tree.atom?_ne_pair
  | pair hc _ _ ihh iht =>
    cases hu with
    | atom hd hb =>
      cases hc.symm.trans hd
      exact absurd hb Tree.atom?_ne_pair
    | pair hd hh ht =>
      cases hc.symm.trans hd
      rw [ihh hh, iht ht]

namespace Heap

/-- The first handle is a part of the second, a pair. -/
def PartOf (heap : Heap κ) (part e : Handle) : Prop :=
  ∃ head tail, heap.cell? e = some (.pair head tail) ∧ (part = head ∨ part = tail)

/-- No pair that is reached is a part of its own parts. -/
def AcyclicBelow (heap : Heap κ) (e : Handle) : Prop :=
  ∀ f, Reach heap.cell? [e] f → ¬ Relation.TransGen heap.PartOf f f

theorem PartOf.reach {roots : List Handle} {part f : Handle} (h : heap.PartOf part f)
    (hf : Reach heap.cell? roots f) : Reach heap.cell? roots part := by
  obtain ⟨head, tail, hc, rfl | rfl⟩ := h
  · exact hf.head hc
  · exact hf.tail hc

/-- Where no cycle is reached, taking parts comes to an end: what is reached is finite. -/
theorem WellFormed.acc_partOf (w : heap.WellFormed) (he : heap.isLive e = true)
    (hacyclic : heap.AcyclicBelow e) : Acc heap.PartOf e := by
  have hreached : {f | Reach heap.cell? [e] f}.Finite := by
    refine (finite_isLive w.toConsistent).subset fun f hf => ?_
    refine isLive_iff.mpr (w.exists_cell?_of_reach (fun g hg => ?_) hf)
    rw [List.mem_singleton.mp hg]
    exact he
  have : Finite {f // Reach heap.cell? [e] f} := hreached
  have hcycles : ∀ {f g}, Relation.TransGen (Subrel heap.PartOf (Reach heap.cell? [e])) f g →
      Relation.TransGen heap.PartOf f.1 g.1 := by
    intro f g h
    exact h.lift Subtype.val fun _ _ hpart => hpart
  have : Std.Irrefl (Relation.TransGen (Subrel heap.PartOf (Reach heap.cell? [e]))) :=
    ⟨fun f hf => hacyclic f.1 f.2 (hcycles hf)⟩
  have hwf := Finite.wellFounded_of_trans_of_irrefl
    (Relation.TransGen (Subrel heap.PartOf (Reach heap.cell? [e])))
  have hacc : ∀ f : {f // Reach heap.cell? [e] f}, Acc heap.PartOf f.1 := by
    intro f
    induction f using hwf.induction with
    | h f ih => exact ⟨_, fun part hpart => ih ⟨part, hpart.reach f.2⟩ (.single hpart)⟩
  exact hacc ⟨e, .root List.mem_cons_self⟩

/-- A live value of which taking parts comes to an end has a tree. -/
theorem WellFormed.exists_unfolds (w : heap.WellFormed)
    (hacc : Acc heap.PartOf e) (he : heap.isLive e = true) :
    ∃ t : Tree κ, Unfolds heap e t := by
  induction hacc with
  | intro e _ ih =>
    obtain ⟨c, hc⟩ := isLive_iff.mp he
    cases c with
    | nil => exact ⟨.nil, .atom hc rfl⟩
    | number value => exact ⟨.number value, .atom hc rfl⟩
    | symbol name => exact ⟨.symbol name, .atom hc rfl⟩
    | string value => exact ⟨.string value, .atom hc rfl⟩
    | native procedure => exact ⟨.native procedure, .atom hc rfl⟩
    | pair head tail =>
      obtain ⟨hhead, htail⟩ := w.parts_isLive hc
      obtain ⟨s, hs⟩ := ih head ⟨head, tail, hc, .inl rfl⟩ hhead
      obtain ⟨t, ht⟩ := ih tail ⟨head, tail, hc, .inr rfl⟩ htail
      exact ⟨.pair s t, .pair hc hs ht⟩

/-- The parts of what has a tree have smaller trees. -/
theorem PartOf.unfolds {part : Handle} {t : Tree κ} (h : heap.PartOf part e)
    (ht : Unfolds heap e t) : ∃ u, Unfolds heap part u ∧ u.size < t.size := by
  obtain ⟨head, tail, hc, hpart⟩ := h
  cases ht with
  | atom hc' ha =>
    cases hc.symm.trans hc'
    exact absurd ha Tree.atom?_ne_pair
  | pair hc' hhead htail =>
    cases hc.symm.trans hc'
    rw [Tree.size]
    rcases hpart with rfl | rfl
    · exact ⟨_, hhead, by omega⟩
    · exact ⟨_, htail, by omega⟩

/-- What has a tree does not contain itself: its parts have smaller trees. -/
theorem not_transGen_of_unfolds {t : Tree κ} (ht : Unfolds heap e t) :
    ¬ Relation.TransGen heap.PartOf e e := by
  intro hcycle
  have hsmaller : ∀ {f : Handle}, Relation.TransGen heap.PartOf f e →
      ∃ u, Unfolds heap f u ∧ u.size < t.size := by
    intro f hf
    induction hf using Relation.TransGen.head_induction_on with
    | single hpart => exact hpart.unfolds ht
    | head hpart _ ih =>
      obtain ⟨u, hu, hlt⟩ := ih
      obtain ⟨v, hv, hlt'⟩ := hpart.unfolds hu
      exact ⟨v, hv, Nat.lt_trans hlt' hlt⟩
  obtain ⟨u, hu, hlt⟩ := hsmaller hcycle
  exact Nat.ne_of_lt hlt (hu.size_eq ht)

/-- **The live handles with a tree are those from which no cycle is reached.** -/
theorem exists_unfolds_iff (w : heap.WellFormed) (he : heap.isLive e = true) :
    (∃ t : Tree κ, Unfolds heap e t) ↔ heap.AcyclicBelow e := by
  constructor
  · rintro ⟨t, ht⟩ f hf
    have hunfolds : ∃ u : Tree κ, Unfolds heap f u := by
      induction hf with
      | root hroot =>
        rw [List.mem_singleton.mp hroot]
        exact ⟨t, ht⟩
      | head _ hc ih =>
        obtain ⟨u, hu⟩ := ih
        obtain ⟨v, hv, -⟩ := PartOf.unfolds ⟨_, _, hc, .inl rfl⟩ hu
        exact ⟨v, hv⟩
      | tail _ hc ih =>
        obtain ⟨u, hu⟩ := ih
        obtain ⟨v, hv, -⟩ := PartOf.unfolds ⟨_, _, hc, .inr rfl⟩ hu
        exact ⟨v, hv⟩
    obtain ⟨u, hu⟩ := hunfolds
    exact not_transGen_of_unfolds hu
  · exact fun hacyclic => w.exists_unfolds (w.acc_partOf he hacyclic) he

/-! ## Printing -/

end Heap

/-- A text that is not cut. -/
def PrintLimit.Admits : PrintLimit → Text → Prop
  | .unlimited, _ => True
  | .atMost units, t => t.length ≤ units
  | .belowZero _, _ => False

theorem PrintLimit.Admits.toText_emit {limit : PrintLimit} {t : Text} (h : limit.Admits t) :
    ((Writer.empty limit).emit t).toText = t := by
  cases limit with
  | unlimited => exact Writer.toText_emit_unlimited t
  | atMost units => exact (Writer.toText_emit_atMost units t).trans (if_pos h)
  | belowZero units => exact h.elim

theorem PrintLimit.Admits.isRegular {limit : PrintLimit} {t : Text} (h : limit.Admits t) :
    (Writer.empty limit).IsRegular := by
  rintro units heq
  cases heq
  exact h

namespace Heap

/-- **What is printed for a value without cycles** under a limit that the text does not exceed is
the rendering of the one tree that the value unfolds to, shared parts once for each occurrence. The
marker stands for the lists that have `maxPrintDepth` others around them, so where lists are not
nested deeper there is none. -/
theorem format_of_acyclic (w : heap.WellFormed) (he : heap.isLive e = true)
    (hacyclic : heap.AcyclicBelow e) :
    ∃ t : Tree κ, (∀ u : Tree κ, Unfolds heap e u ↔ u = t) ∧
      (∀ limit : PrintLimit, limit.Admits (t.render maxPrintDepth) →
        heap.formatWithin limit e = .ok (t.render maxPrintDepth)) ∧
      (t.nesting ≤ maxPrintDepth → t.render maxPrintDepth = t.unelided) := by
  obtain ⟨t, ht⟩ := (exists_unfolds_iff w he).mpr hacyclic
  refine ⟨t, fun u => ⟨fun hu => hu.unique ht, ?_⟩, fun limit hlimit => ?_, Tree.render_eq_unelided⟩
  · rintro rfl
    exact ht
  · have hwrite : heap.write maxPrintDepth [] e (.empty limit) =
        .ok ((Writer.empty limit).emit (t.render maxPrintDepth)) :=
      write_spec (fun _ _ hc => hc) maxPrintDepth ht (.nil t) hlimit.isRegular
    rw [formatWithin, hwrite]
    exact congrArg Except.ok hlimit.toText_emit

/-- A heap with the list `(s s . b)` where `s` is `(a)`. -/
@[irreducible] def sharing : Heap Unit :=
  (performAll [.symbol (text "a"), .pair ⟨0, 1, 0⟩ ⟨0, 0, 0⟩, .symbol (text "b"),
    .pair ⟨0, 2, 0⟩ ⟨0, 3, 0⟩, .pair ⟨0, 2, 0⟩ ⟨0, 4, 0⟩]
    ([], ⟨0, Number.infinity, #[⟨0, some .nil, some ⟨0, 0, 0⟩⟩], [], 1, false⟩)).2

theorem sharing_wellFormed : sharing.WellFormed := by
  unfold sharing
  exact ((Run.created (create_unbounded 0)).performAll _).wellFormed.2 (by decide +kernel)

/-- Parts stand in earlier slots. -/
theorem sharing_partOf {part f : Handle} (h : sharing.PartOf part f) : part.index < f.index := by
  have hslots : ∀ i < 6, ∀ p ∈ (sharing.cellAt? i).bind Cell.pair?,
      p.1.index < i ∧ p.2.index < i := by decide +kernel
  obtain ⟨head, tail, hc, hpart⟩ := h
  have hsize : sharing.slots.size = 6 := by decide +kernel
  have hlt : f.index < 6 := hsize ▸ index_lt hc
  have hparts := hslots f.index hlt (head, tail) (by rw [cell?_eq_cellAt? hc]; rfl)
  rcases hpart with rfl | rfl
  · exact hparts.1
  · exact hparts.2

/-- A list with a shared item and an end that is no nil. -/
theorem format_of_acyclic_sharing : sharing.isLive ⟨0, 5, 0⟩ = true ∧
    sharing.AcyclicBelow ⟨0, 5, 0⟩ ∧
    sharing.formatWithin .unlimited ⟨0, 5, 0⟩ = .ok (text "((a) (a) . b)") := by
  have hlive : sharing.isLive ⟨0, 5, 0⟩ = true := by decide +kernel
  have hacyclic : sharing.AcyclicBelow ⟨0, 5, 0⟩ := by
    intro f _ hcycle
    have hless := hcycle.lift (p := (· < ·)) Handle.index fun _ _ => sharing_partOf
    rw [Relation.transGen_eq_self] at hless
    exact Nat.lt_irrefl _ hless
  refine ⟨hlive, hacyclic, ?_⟩
  obtain ⟨t, ht, hformat, -⟩ := format_of_acyclic sharing_wellFormed hlive hacyclic
  have hshared : Unfolds sharing ⟨0, 2, 0⟩ (.pair (.symbol (text "a")) .nil) :=
    .pair (by decide +kernel : sharing.cell? ⟨0, 2, 0⟩ = some (.pair ⟨0, 1, 0⟩ ⟨0, 0, 0⟩))
      (.atom (by decide +kernel) rfl) (.atom (by decide +kernel) rfl)
  have hlist := Denotes.pair
    (by decide +kernel : sharing.cell? ⟨0, 5, 0⟩ = some (.pair ⟨0, 2, 0⟩ ⟨0, 4, 0⟩)) hshared
    (.pair (by decide +kernel : sharing.cell? ⟨0, 4, 0⟩ = some (.pair ⟨0, 2, 0⟩ ⟨0, 3, 0⟩)) hshared
      (.atom (t := .symbol (text "b")) (by decide +kernel) rfl))
  obtain rfl := (ht _).mp hlist
  rw [hformat .unlimited trivial]
  decide +kernel

end Heap

end ConsoleLisp
