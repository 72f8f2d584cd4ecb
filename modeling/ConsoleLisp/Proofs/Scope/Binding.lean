import ConsoleLisp.Proofs.Scope.Seek

/-!
# Bindings are all or nothing

A binding looks at its symbol, its scope and its value, allocates two pairs and only then changes
the pair of the scope. When it is refused before the change, by what it looks at or by a heap
without room, the heap has all its cells as they were, and perhaps the pair that was to be the
binding, which nothing points to.

Results:
* `GrowsBy.leavesAsWas`: what a growing heap keeps for whoever holds values of before.
* `bind_of_room`: the two pairs and the change, or the lack of room.
* **`bind_is_atomic`**: a binding that returns has changed its scope and nothing else; one that does
  not has changed nothing.
-/

namespace ConsoleLisp

namespace Heap

variable {κ : Type} {heap heap' : Heap κ} {scope : Scope} {symbol value binding front : Handle}

/-- The binding was made: the scope has it, in a new pair, in front of the frame that it had. -/
structure BindsInFront (heap : Heap κ) (scope : Scope) (symbol value binding front : Handle)
    (heap' : Heap κ) : Prop where
  /-- Two pairs were allocated. -/
  isNew_iff : ∀ e, IsNew heap heap' e ↔ e = binding ∨ e = front
  distinct : binding ≠ front
  live_eq : heap'.live = heap.live + 2
  binding_eq : heap'.inspect binding = .ok (.pair symbol value)
  /-- The frame is the binding followed by the old one, and the chain behind it is the same. -/
  scope_eq : ∃ frame parent, heap.inspect scope.chain = .ok (.pair frame parent) ∧
    heap'.inspect front = .ok (.pair binding frame) ∧
    heap'.inspect scope.chain = .ok (.pair front parent)
  /-- Every other cell is as it was. -/
  inspect_eq : ∀ e, heap.isLive e = true → e ≠ scope.chain → heap'.inspect e = heap.inspect e

/-- Nothing was changed, and at most one cell is new, which cannot be reached. -/
structure LeavesAsWas (heap heap' : Heap κ) : Prop extends Untouched heap heap' where
  leftover : ∃ cells, GrowsBy cells heap heap' ∧ cells.length ≤ 1
  /-- From values of before nothing new is reached, so that a collection frees it. -/
  unreachable : ∀ roots, (∀ e ∈ roots, heap.isLive e = true) → ∀ e, IsNew heap heap' e →
    ¬ Reach heap'.cell? roots e
  garbage : IsGarbage heap heap'
  /-- Lookups answer as before, faults included. -/
  lookupName_eq : ∀ (scope : Scope) name, ¬ IsNew heap heap' scope.chain →
    heap'.lookupName scope name = heap.lookupName scope name
  lookup_eq : ∀ (scope : Scope) symbol, ¬ IsNew heap heap' scope.chain →
    ¬ IsNew heap heap' symbol → heap'.lookup scope symbol = heap.lookup scope symbol

theorem GrowsBy.leavesAsWas {cells : List Handle} (h : GrowsBy cells heap heap')
    (hlength : cells.length ≤ 1) (w : heap.WellFormed) (w' : heap'.WellFormed) :
    LeavesAsWas heap heap' :=
  { h.toExtends.untouched w w' with
    leftover := ⟨cells, h, hlength⟩
    unreachable := fun _ hroots _ he => h.toExtends.not_reach w hroots he
    garbage := h.toExtends.isGarbage w w'
    lookupName_eq := fun _ name hscope => h.toExtends.lookupName_eq w w' hscope name
    lookup_eq := fun _ _ hscope hsymbol => h.toExtends.lookup_eq w w' hscope hsymbol }

/-- With two new pairs, the change of the scope makes the binding. -/
theorem GrowsBy.bindsInFront {heap₂ : Heap κ} {frame parent : Handle}
    (h : GrowsBy [binding, front] heap heap₂) (w : heap.WellFormed) (w₂ : heap₂.WellFormed)
    (w' : heap'.WellFormed) (hchain : heap.cell? scope.chain = some (.pair frame parent))
    (hbinding : heap₂.cell? binding = some (.pair symbol value))
    (hfront : heap₂.cell? front = some (.pair binding frame))
    (hu : heap₂.Updates scope.chain (.pair front parent) heap') :
    BindsInFront heap scope symbol value binding front heap' := by
  have hlive := isLive_of_cell? hchain
  have hnew : ∀ e ∈ [binding, front], e ≠ scope.chain := by
    rintro e he rfl
    exact Extends.not_isNew hlive ((h.mem_iff _).mp he)
  have hsame : ∀ e, heap'.isLive e = heap₂.isLive e := hu.isLive_eq (h.toExtends.isLive hlive)
  have hother : ∀ e, e ≠ scope.chain → heap'.inspect e = heap₂.inspect e := fun e he =>
    inspect_eq_of_cell? hu.id_eq (w'.usable.trans w₂.usable.symm)
      ((hu.cell?_eq e).trans (if_neg he))
  have hbinding' := hother binding (hnew _ (by simp))
  have hfront' := hother front (hnew _ (by simp))
  refine ⟨fun e => ?_, ?_, ?_, ?_, ⟨frame, parent, inspect_eq_ok_iff.mpr hchain, ?_, ?_⟩,
    fun e he hne => ?_⟩
  · have hmem := h.mem_iff e
    rw [IsNew, hsame, ← IsNew, ← hmem]
    simp
  · have hnodup := h.nodup
    simpa using hnodup
  · rw [hu.live_eq (h.toExtends.isLive hlive) w₂ w', h.live_eq w w₂]
    rfl
  · rw [hbinding', inspect_eq_ok_iff, hbinding]
  · rw [hfront', inspect_eq_ok_iff, hfront]
  · rw [inspect_eq_ok_iff, hu.cell?_eq, if_pos rfl]
  · rw [hother e hne]
    exact h.toExtends.inspect_eq w w₂ (Extends.not_isNew he)

/-- What is bound is bound when there is room for two cells; else the heap keeps at most one. -/
theorem bind_of_room (w : heap.WellFormed) {name : Text} {frame parent : Handle}
    (hs : heap.cell? symbol = some (.symbol name))
    (hchain : heap.cell? scope.chain = some (.pair frame parent))
    (hv : heap.isLive value = true) :
    (∃ binding front heap', scope.bind symbol value heap = (.ok (), heap') ∧
        BindsInFront heap scope symbol value binding front heap') ∨
      ¬ heap.Room 2 ∧ ∃ heap', scope.bind symbol value heap = (.error heap.exhaustion, heap') ∧
        LeavesAsWas heap heap' := by
  rw [bind_eq hs hchain]
  rcases pair_grows w (isLive_of_cell? hs) hv with
    ⟨hrun, hroom⟩ | ⟨binding, heap₁, hrun₁, w₁, hbinding, hgrows₁⟩
  · refine .inr ⟨fun h => hroom fun limit hlimit => ?_, heap, Act.run_bind_error hrun,
      (GrowsBy.refl heap).leavesAsWas (Nat.zero_le 1) w w⟩
    have hle := h limit hlimit
    omega
  have hframe := hgrows₁.toExtends.isLive (isLive_iff.mpr (w.parts_of_pair hchain).1)
  rw [Act.run_bind_ok hrun₁]
  rcases pair_grows w₁ (isLive_of_cell? hbinding) hframe with
    ⟨hrun, hroom⟩ | ⟨front, heap₂, hrun₂, w₂, hfront, hgrows₂⟩
  · refine .inr ⟨fun h => hroom fun limit hlimit => ?_, heap₁, ?_,
      hgrows₁.leavesAsWas (Nat.le_refl 1) w w₁⟩
    · have hle := h limit (by rwa [capacity?, hgrows₁.maxSlots_eq] at hlimit)
      have hlive : heap₁.live = heap.live + 1 := hgrows₁.live_eq w w₁
      omega
    · rw [Act.run_bind_error hrun, hgrows₁.toExtends.exhaustion_eq]
  · have hgrows := hgrows₁.trans hgrows₂
    have hchain₂ := hgrows.cell?_mono _ _ hchain
    have hlive := isLive_of_cell? hfront
    obtain ⟨w', hu⟩ := overwrite_spec w₂ hchain₂ (partsLive_replacePart w₂ hchain₂ hlive .head)
    refine .inl ⟨binding, front, _, ?_, hgrows.bindsInFront w w₂ w' hchain
      (hgrows₂.cell?_mono _ _ hbinding) hfront hu⟩
    rw [Act.run_bind_ok hrun₂]
    exact setPart_eq_overwrite hchain₂ hlive

/-- **A binding is all or nothing.** Whatever the handles and the bound of the heap: a binding that
returns has allocated two pairs and changed the head of the scope's pair and nothing else, and the
local frame is the binding followed by the old frame. One that does not return was refused for its
symbol, its scope or its value, or for want of room for two cells; then all that was there is as it
was, every lookup answers as before, and at most one cell is left over, which cannot be reached. -/
theorem bind_is_atomic (w : heap.WellFormed) (scope : Scope) (symbol value : Handle) :
    (∃ binding front heap', scope.bind symbol value heap = (.ok (), heap') ∧
        BindsInFront heap scope symbol value binding front heap') ∨
      ∃ fault heap', scope.bind symbol value heap = (.error fault, heap') ∧
        (BindRefusal heap scope symbol value fault ∧ heap' = heap ∨
          fault = heap.exhaustion ∧ ¬ heap.Room 2) ∧ LeavesAsWas heap heap' := by
  rcases bind_refused heap scope symbol value with
    ⟨fault, hrefusal, hrun⟩ | ⟨name, frame, parent, hs, hchain, hv⟩
  · exact .inr ⟨fault, heap, hrun, .inl ⟨hrefusal, rfl⟩,
      (GrowsBy.refl heap).leavesAsWas (Nat.zero_le 1) w w⟩
  · refine (bind_of_room w hs hchain hv).imp_right ?_
    rintro ⟨hroom, heap', hrun, hleaves⟩
    exact ⟨_, heap', hrun, .inr ⟨rfl, hroom⟩, hleaves⟩

/-- A new heap with a bound of four slots. -/
def fourSlots : Heap Unit :=
  ⟨1, Number.ofNat 4, #[⟨0, some .nil, some ⟨1, 0, 0⟩⟩], [], 1, false⟩

theorem create_fourSlots : (create 1 (Number.ofNat 4) : Except Fault (Heap Unit)) = .ok fourSlots :=
  if_pos (by decide +kernel)

/-- The four slots, of which an empty scope and a symbol have taken two. -/
def crowded : Heap Unit :=
  (performAll [.pair ⟨1, 0, 0⟩ ⟨1, 0, 0⟩, .symbol []] ([], fourSlots)).2

/-- There is room for the first pair of a binding and not for the second. -/
theorem bind_is_atomic_crowded : crowded.WellFormed ∧
    ∃ heap', Scope.bind ⟨⟨1, 1, 0⟩⟩ ⟨1, 2, 0⟩ ⟨1, 0, 0⟩ crowded =
      (.error (.heap (.exhausted 1 (Number.ofNat 4))), heap') ∧ LeavesAsWas crowded heap' := by
  have w : crowded.WellFormed := ((Run.created create_fourSlots).performAll
    [.pair ⟨1, 0, 0⟩ ⟨1, 0, 0⟩, .symbol []]).wellFormed.2 (by decide +kernel)
  have hrefused : (Scope.bind ⟨⟨1, 1, 0⟩⟩ ⟨1, 2, 0⟩ ⟨1, 0, 0⟩ crowded).1 =
      .error (.heap (.exhausted 1 (Number.ofNat 4))) := by decide +kernel
  refine ⟨w, ?_⟩
  rcases bind_is_atomic w ⟨⟨1, 1, 0⟩⟩ ⟨1, 2, 0⟩ ⟨1, 0, 0⟩ with
    ⟨_, _, _, hrun, -⟩ | ⟨fault, heap', hrun, -, hleaves⟩
  · rw [hrun] at hrefused
    cases hrefused
  · rw [hrun] at hrefused
    cases hrefused
    exact ⟨heap', hrun, hleaves⟩

end Heap

end ConsoleLisp
