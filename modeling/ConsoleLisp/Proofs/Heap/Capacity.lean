import ConsoleLisp.Proofs.Heap.Growth
import ConsoleLisp.Proofs.Heap.History
import ConsoleLisp.Proofs.Number.Count

/-!
# Capacity

A heap is created with a bound on its slots, which may be any number from 1 on. An allocation looks
at the free list and at the length of the arena, never at the number of live values. That it is
refused exactly when the live values reach the bound is an invariant of runs: the live and the free
slots are all slots, and the slots never outgrow the bound rounded up.

Results:
* **`Run.within`**: the slots of a heap stay within the bound that it was created with.
* `WellFormed.full_iff`: an allocation finds no slot exactly when the live values reach the bound.
* `Run.slot_lt`: every handle that was issued names a slot within the bound.
* `Run.live_since`: the live values since a collection are the survivors and the allocations.
* **`capacity_is_kept`**: capacity is neither lost nor exceeded.
-/

namespace ConsoleLisp

namespace Heap

variable {κ α γ : Type} {maxSlots : Number} {heap heap' : Heap κ}

/-! ## The bound on the slots -/

theorem isFull_iff : heap.isFull = true ↔ Number.AtMost heap.maxSlots heap.slots.size := by
  unfold isFull capacity?
  exact Number.ceil?_any_iff

/-- The slots of a heap are within its bound, rounded up. -/
structure Within (maxSlots : Number) (heap : Heap κ) : Prop where
  maxSlots_eq : heap.maxSlots = maxSlots
  size_le : ∀ limit, Number.ceil? maxSlots = some limit → heap.slots.size ≤ limit

/-- The action leaves the slots within the bound, however it ends. -/
def StaysWithin (maxSlots : Number) (action : HeapM κ α) : Prop :=
  ∀ heap, Within maxSlots heap → Within maxSlots (action heap).2

namespace StaysWithin

theorem bind {x : HeapM κ α} {f : α → HeapM κ γ} (hx : StaysWithin maxSlots x)
    (hf : ∀ a, StaysWithin maxSlots (f a)) : StaysWithin maxSlots (x >>= f) := by
  intro heap h
  have hstep := hx heap h
  rw [Act.run_bind]
  rcases hrun : x heap with ⟨_ | a, heap'⟩
  · rw [hrun] at hstep
    exact hstep
  · rw [hrun] at hstep
    exact hf a heap' hstep

theorem pure (a : α) : StaysWithin maxSlots (pure a : HeapM κ α) := fun _ h => h

theorem map {x : HeapM κ α} (f : α → γ) (hx : StaysWithin maxSlots x) :
    StaysWithin maxSlots (f <$> x) :=
  hx.bind fun a => .pure (f a)

theorem view (look : Heap κ → Except Fault α) : StaysWithin maxSlots (view look) := fun _ h => h

theorem nil : StaysWithin maxSlots (nil : HeapM κ Handle) :=
  (view _).bind fun _ => fun _ h => h

/-- A slot is added where the heap is not full. -/
theorem allocate (cell : Cell κ) : StaysWithin maxSlots (allocate cell) := by
  intro heap h
  unfold Heap.allocate
  split
  · exact h
  split
  · exact ⟨h.maxSlots_eq, fun limit hlimit => by simpa using h.size_le limit hlimit⟩
  split
  · exact h
  · rename_i hfull
    refine ⟨h.maxSlots_eq, fun limit hlimit => ?_⟩
    have hroom : ¬ limit ≤ heap.slots.size := by
      intro hle
      refine hfull (isFull_iff.mpr ?_)
      rw [h.maxSlots_eq]
      exact (Number.ceil?_eq_some_iff.mp hlimit).1.mono hle
    simp only [Array.size_push]
    omega

theorem pair (head tail : Handle) : StaysWithin maxSlots (pair head tail : HeapM κ Handle) :=
  (view _).bind fun _ => (view _).bind fun _ => allocate _

theorem setPart (part : PairPart) (e value : Handle) :
    StaysWithin maxSlots (setPart part e value : HeapM κ Unit) := by
  refine (view _).bind fun cell => ?_
  cases cell with
  | pair head tail =>
    refine (view _).bind fun _ => fun heap h => ⟨h.maxSlots_eq, fun limit hlimit => ?_⟩
    have hsize := h.size_le limit hlimit
    simpa [Act.run_modify, overwrite] using hsize
  | nil | number | symbol | string | native => exact fun _ h => h

theorem sweep (marks : Array Bool) (count slot freed : Nat) (h : Within maxSlots heap) :
    Within maxSlots (sweep marks count slot freed heap).2 := by
  fun_induction Heap.sweep marks count slot freed heap with
  | case1 => exact h
  | case2 count slot freed heap _ ih =>
    exact ih ⟨h.maxSlots_eq, fun limit hlimit => by simpa [release] using h.size_le limit hlimit⟩
  | case3 count slot freed heap _ ih => exact ih h

theorem collect (roots : List Handle) :
    StaysWithin maxSlots (collect roots : HeapM κ Collected) := by
  have hroots : StaysWithin maxSlots
      (roots.forM fun root => discard (Heap.view (inspect · root)) : HeapM κ PUnit) := by
    induction roots with
    | nil => exact .pure _
    | cons root rest ih => exact ((view _).map _).bind fun _ => ih
  exact (view _).bind fun _ => hroots.bind fun _ => fun _ h => sweep _ _ _ _ h

theorem perform (request : Request κ) : StaysWithin maxSlots request.perform := by
  cases request with
  | nil => exact nil.map _
  | number | symbol | string | native => exact (allocate _).map _
  | pair head tail => exact (pair head tail).map _
  | setPart part e value => exact (setPart part e value).map _
  | collect roots => exact (collect roots).map _
  | destroy => exact fun heap h => ⟨h.maxSlots_eq, fun _ _ => Nat.zero_le _⟩

end StaysWithin

/-- A new heap has one slot, and a bound is at least 1. -/
theorem create_within {id : Nat} (h : create id maxSlots = .ok heap) : Within maxSlots heap := by
  have hone : Number.isAtLeastOne maxSlots = true := by
    by_contra hnot
    unfold create at h
    rw [if_neg hnot] at h
    cases h
  cases create_eq_ok h
  exact ⟨rfl, fun limit hlimit => (Number.ceil?_eq_some_iff.mp hlimit).1.pos hone⟩

/-- **The slots of a heap stay within the bound that it was created with.** -/
theorem Run.within {id : Nat} {past : List (Exchange κ)} (h : Run id maxSlots past heap) :
    Within maxSlots heap := by
  induction h with
  | created h => exact create_within h
  | @performed _ heap heap' request answer _ hstep ih =>
    have hkept := StaysWithin.perform request heap ih
    rwa [hstep] at hkept

/-! ## When an allocation is refused -/

/-- **An allocation finds no slot exactly when the live values reach the bound.** -/
theorem WellFormed.full_iff (w : heap.WellFormed) (h : Within maxSlots heap) :
    heap.free = [] ∧ heap.isFull = true ↔ Number.AtMost maxSlots heap.live := by
  have hsum := w.live_add_free
  rw [isFull_iff, h.maxSlots_eq]
  constructor
  · rintro ⟨hfree, hfull⟩
    rw [hfree, List.length_nil, Nat.add_zero] at hsum
    rwa [hsum]
  · intro hlive
    refine ⟨?_, hlive.mono (by omega)⟩
    cases hlimit : Number.ceil? maxSlots with
    | none => exact absurd hlive (Number.ceil?_eq_none_iff.mp hlimit _)
    | some limit =>
      have hle := (Number.ceil?_eq_some_iff.mp hlimit).2 _ hlive
      have hsize := h.size_le limit hlimit
      exact List.eq_nil_of_length_eq_zero (by omega)

/-- The request asks for an allocation, and its arguments are live. -/
def Request.IsAllocation (heap : Heap κ) (request : Request κ) : Prop :=
  ∃ cell, request.cell? = some cell ∧ heap.PartsLive cell

theorem Request.perform_eq_allocate {request : Request κ} {cell : Cell κ}
    (hc : request.cell? = some cell) (hp : heap.PartsLive cell) :
    request.perform heap = (Answer.handle <$> allocate cell : HeapM κ Answer) heap := by
  cases request with
  | nil | setPart | collect | destroy => cases hc
  | number | symbol | string | native =>
    cases hc
    rfl
  | pair head tail =>
    cases hc
    obtain ⟨hh, ht⟩ := hp head tail rfl
    exact Act.run_map_congr (pair_eq_allocate hh ht)

/-- With live arguments an allocation is refused by a bound that is reached, and by nothing else. -/
theorem perform_allocation (w : heap.WellFormed) (h : Within maxSlots heap) {request : Request κ}
    (hrequest : request.IsAllocation heap) :
    (Number.AtMost maxSlots heap.live ∧ request.perform heap = (.error heap.exhaustion, heap)) ∨
      (¬ Number.AtMost maxSlots heap.live ∧
        ∃ e heap', request.perform heap = (.ok (.handle e), heap')) := by
  obtain ⟨cell, hc, hp⟩ := hrequest
  rw [Request.perform_eq_allocate hc hp, ← w.full_iff h]
  rcases allocate_spec w hp with ⟨hfree, hfull, hrun⟩ | ⟨e, heap', hrun, -⟩
  · exact .inl ⟨⟨hfree, hfull⟩, Act.run_map_error hrun⟩
  · refine .inr ⟨?_, e, heap', Act.run_map_ok hrun⟩
    rintro ⟨hfree, hfull⟩
    unfold allocate at hrun
    rw [if_neg (by rw [w.usable]; exact Bool.false_ne_true), hfree, hfull, if_pos rfl] at hrun
    cases hrun

/-! ## The slots ever used -/

/-- What was issued is live at once. -/
theorem Effect.live_of_issuedBy {request : Request κ} {answer : Except Fault Answer}
    (h : Effect heap request answer heap') {e : Handle} (he : issuedBy (request, answer) = some e) :
    ∃ c, heap'.cell? e = some c := by
  cases h with
  | refused | nil | replaced | collected | destroyed => cases he
  | @allocated _ cell f _ hc _ hu =>
    cases (issuedBy_of_cell? hc).symm.trans he
    exact ⟨cell, by rw [hu.cell?_eq, if_pos rfl]⟩

/-- **Every handle that was issued names a slot within the bound.** -/
theorem Run.slot_lt {id : Nat} {past : List (Exchange κ)} (h : Run id maxSlots past heap)
    {limit : Nat} (hlimit : Number.ceil? maxSlots = some limit) :
    ∀ e ∈ issued id past, ∃ i < limit, e.slot = i := by
  induction h with
  | created h =>
    rintro e he
    rw [List.mem_singleton.mp he]
    have hsize := (create_within h).size_le limit hlimit
    cases create_eq_ok h
    exact ⟨0, hsize, rfl⟩
  | @performed past heap heap' request answer hrun hstep ih =>
    cases hissued : issuedBy (request, answer) with
    | none =>
      rw [issued_cons_none hissued]
      exact ih
    | some f =>
      rw [issued_cons_of_issuedBy hissued]
      refine List.forall_mem_cons.mpr ⟨?_, ih⟩
      cases hd : heap.destroyed with
      | true =>
        rcases perform_destroyed hd request with ⟨fault, hfault⟩ | rfl
        · cases hstep.symm.trans hfault
          cases hissued
        · cases hstep
          cases hissued
      | false =>
        have heffect := perform_effect (hrun.wellFormed.2 hd) request
        rw [hstep] at heffect
        obtain ⟨c, hc⟩ := heffect.live_of_issuedBy hissued
        have hsize := (hrun.performed hstep).within.size_le limit hlimit
        exact ⟨f.index, Nat.lt_of_lt_of_le (index_lt hc) hsize, (Ledger.generation_eq hc).2.1⟩

/-- The slots that handles were ever issued for. -/
def slotsUsed (id : Nat) (past : List (Exchange κ)) : Finset Int :=
  ((issued id past).map Handle.slot).toFinset

theorem Run.card_slotsUsed_le {id : Nat} {past : List (Exchange κ)}
    (h : Run id maxSlots past heap) {limit : Nat} (hlimit : Number.ceil? maxSlots = some limit) :
    (slotsUsed id past).card ≤ limit := by
  have hsub : slotsUsed id past ⊆ (Finset.range limit).image Int.ofNat := by
    intro slot hslot
    obtain ⟨e, he, rfl⟩ := List.mem_map.mp (List.mem_toFinset.mp hslot)
    obtain ⟨i, hi, heq⟩ := h.slot_lt hlimit e he
    exact Finset.mem_image.mpr ⟨i, Finset.mem_range.mpr hi, heq.symm⟩
  calc (slotsUsed id past).card
      ≤ ((Finset.range limit).image Int.ofNat).card := Finset.card_le_card hsub
    _ ≤ (Finset.range limit).card := Finset.card_image_le
    _ = limit := Finset.card_range limit

/-! ## Since a collection -/

/-- The exchange is a collection that was made. -/
def IsCollection : Exchange κ → Prop
  | (.collect _, .ok _) => True
  | _ => False

theorem not_isCollection_of_cell? {request : Request κ} {cell : Cell κ}
    (hc : request.cell? = some cell) (answer : Except Fault Answer) :
    ¬ IsCollection (request, answer) := by
  cases request with
  | nil | setPart | collect | destroy => cases hc
  | number | symbol | string | pair | native => exact not_false

/-- How many allocations were made. -/
def allocations (past : List (Exchange κ)) : Nat := past.countP fun x => (issuedBy x).isSome

/-- The counter after an exchange that neither collects nor destroys. -/
theorem Effect.live_eq {request : Request κ} {answer : Except Fault Answer} (w : heap.WellFormed)
    (h : Effect heap request answer heap') (hd : heap'.destroyed = false)
    (hx : ¬ IsCollection (request, answer)) :
    heap'.live = heap.live + if (issuedBy (request, answer)).isSome then 1 else 0 := by
  cases h with
  | refused | nil => rfl
  | allocated hc hnew hu w' =>
    rw [issuedBy_of_cell? hc]
    exact (GrowsBy.of_updates hu hnew).live_eq w w'
  | replaced hc hu w' => exact hu.live_eq (isLive_of_cell? hc) w w'
  | collected => exact absurd trivial hx
  | destroyed => cases hd

/-- A collection reports how many values it leaves. -/
theorem collected_live {roots : List Handle} {stats : Collected}
    (h : (Request.collect roots).perform heap = (.ok (.collected stats), heap')) :
    stats.live = heap'.live := by
  obtain ⟨collected, heap₁, hrun, hanswer⟩ := Act.exists_of_run_bind (x := Heap.collect roots) h
  cases hanswer
  obtain ⟨_, heap₂, -, hrest⟩ := Act.exists_of_run_bind hrun
  obtain ⟨_, heap₃, -, hsweep⟩ := Act.exists_of_run_bind hrest
  cases hsweep
  rfl

/-- **The live values since a collection are the survivors and the allocations.** By induction on
what was asked since. -/
theorem Run.live_since {id : Nat} {later before : List (Exchange κ)} {roots : List Handle}
    {stats : Collected}
    (h : Run id maxSlots (later ++ (.collect roots, .ok (.collected stats)) :: before) heap)
    (hd : heap.destroyed = false) (hlater : ∀ x ∈ later, ¬ IsCollection x) :
    heap.live = stats.live + allocations later := by
  induction later generalizing heap with
  | nil =>
    cases h with
    | performed _ hstep => exact (collected_live hstep).symm
  | cons x later ih =>
    cases h with
    | @performed _ between _ request answer hrun hstep =>
      have hbetween : between.destroyed = false := by
        rw [← Bool.not_eq_true, hrun.destroyed_iff]
        intro hdestroy
        have hdestroyed := (hrun.performed hstep).destroyed_iff.mpr (List.mem_cons_of_mem _ hdestroy)
        cases hd.symm.trans hdestroyed
      have w := hrun.wellFormed.2 hbetween
      have heffect := perform_effect w request
      rw [hstep] at heffect
      obtain ⟨hx, hrest⟩ := List.forall_mem_cons.mp hlater
      rw [heffect.live_eq w hd hx, ih hrun hbetween hrest, allocations, allocations,
        List.countP_cons, Nat.add_assoc]

/-- The room that the survivors of a collection leave, `later` having been asked since. -/
structure LeavesRoom (maxSlots : Number) (survivors : Nat) (later : List (Exchange κ))
    (heap : Heap κ) : Prop where
  live_eq : heap.live = survivors + allocations later
  /-- With a bound, no more than the difference to the survivors are allocated, and the next
  allocation returns until they are. -/
  bounded : ∀ limit, Number.ceil? maxSlots = some limit →
    allocations later ≤ limit - survivors ∧
      ∀ request : Request κ, request.IsAllocation heap →
        ((∃ e heap', request.perform heap = (.ok (.handle e), heap')) ↔
          allocations later < limit - survivors)
  /-- Without a bound, every allocation returns. -/
  unbounded : Number.ceil? maxSlots = none → ∀ request : Request κ, request.IsAllocation heap →
    ∃ e heap', request.perform heap = (.ok (.handle e), heap')

/-- The request asks for a value that is no pair. -/
def Request.IsAtom (request : Request κ) : Prop :=
  ∃ cell, request.cell? = some cell ∧ cell.pair? = none

theorem Request.IsAtom.isAllocation {request : Request κ} (h : request.IsAtom) (heap : Heap κ) :
    request.IsAllocation heap := by
  obtain ⟨cell, hc, hatom⟩ := h
  exact ⟨cell, hc, partsLive_atom hatom⟩

/-- An allocation that returns takes one. -/
theorem live_of_returns (w : heap.WellFormed) {request : Request κ} {e : Handle}
    (hrequest : request.IsAllocation heap)
    (hrun : request.perform heap = (.ok (.handle e), heap')) :
    heap'.destroyed = false ∧ heap'.live = heap.live + 1 ∧
      issuedBy (request, .ok (.handle e)) = some e := by
  obtain ⟨cell, hc, -⟩ := hrequest
  have hissued : issuedBy (request, .ok (.handle e)) = some e := issuedBy_of_cell? hc
  have heffect : Effect heap request (.ok (.handle e)) heap' := by
    have heffect := perform_effect w request
    rwa [hrun] at heffect
  have husable : heap'.destroyed = false := by
    refine heffect.usable w ?_
    rintro rfl
    cases hc
  have hlive := heffect.live_eq w husable (not_isCollection_of_cell? hc _)
  rw [hissued] at hlive
  exact ⟨husable, hlive, hissued⟩

/-- **Of values asked for one after another, as many are allocated as the bound allows.** By
induction on the requests. -/
theorem Run.allocations_performAll {id : Nat} {past : List (Exchange κ)}
    (h : Run id maxSlots past heap) (hd : heap.destroyed = false) {requests : List (Request κ)}
    (hrequests : ∀ request ∈ requests, request.IsAtom) :
    allocations (Heap.performAll requests (past, heap)).1 = allocations past +
      match Number.ceil? maxSlots with
      | some limit => min requests.length (limit - heap.live)
      | none => requests.length := by
  induction requests generalizing past heap with
  | nil => cases Number.ceil? maxSlots <;> simp [Heap.performAll]
  | cons request rest ih =>
    have w := h.wellFormed.2 hd
    obtain ⟨hrequest, hrest⟩ := List.forall_mem_cons.mp hrequests
    have hvalid := hrequest.isAllocation heap
    rw [Heap.performAll]
    rcases perform_allocation w h.within hvalid with ⟨hfull, hrun⟩ | ⟨hroom, e, heap', hrun⟩
    · rw [hrun]
      refine (ih (h.performed hrun) hd hrest).trans ?_
      cases hlimit : Number.ceil? maxSlots with
      | none => exact absurd hfull (Number.ceil?_eq_none_iff.mp hlimit _)
      | some limit =>
        have hle := (Number.ceil?_eq_some_iff.mp hlimit).2 _ hfull
        simp [allocations, issuedBy, Nat.sub_eq_zero_of_le hle]
    · obtain ⟨husable, hlive, hissued⟩ := live_of_returns w hvalid hrun
      rw [hrun]
      refine (ih (h.performed hrun) husable hrest).trans ?_
      rw [hlive, allocations, List.countP_cons, hissued, ← allocations]
      cases hlimit : Number.ceil? maxSlots with
      | none =>
        simp only [List.length_cons, Option.isSome_some, if_true]
        omega
      | some limit =>
        have hlt : ¬ limit ≤ heap.live :=
          fun hle => hroom ((Number.ceil?_eq_some_iff.mp hlimit).1.mono hle)
        simp only [List.length_cons, Option.isSome_some, if_true]
        omega

/-- What is kept of the capacity of a heap, whatever was asked of it. -/
structure KeepsCapacity (id : Nat) (maxSlots : Number) (past : List (Exchange κ)) (heap : Heap κ) :
    Prop where
  /-- An allocation with live arguments is refused for want of room exactly when the live values
  reach the bound. -/
  exhausted_iff : ∀ request : Request κ, request.IsAllocation heap →
    ((request.perform heap).1 = .error (.heap (.exhausted id maxSlots)) ↔
      Number.AtMost maxSlots heap.live)
  /-- Else it returns. -/
  returns : ∀ request : Request κ, request.IsAllocation heap → ¬ Number.AtMost maxSlots heap.live →
    ∃ e heap', request.perform heap = (.ok (.handle e), heap')
  /-- Of values asked for one after another, as many are allocated as the bound allows. -/
  allocations_eq : ∀ requests : List (Request κ), (∀ request ∈ requests, request.IsAtom) →
    allocations (performAll requests (past, heap)).1 = allocations past +
      match Number.ceil? maxSlots with
      | some limit => min requests.length (limit - heap.live)
      | none => requests.length
  /-- No more slots were ever used, and the arena has no more, than the bound rounded up. -/
  slots_le : ∀ limit, Number.ceil? maxSlots = some limit →
    (slotsUsed id past).card ≤ limit ∧ heap.slots.size ≤ limit
  /-- A collection gives back what its survivors do not take. -/
  since_collection : ∀ later before roots stats,
    past = later ++ (.collect roots, .ok (.collected stats)) :: before →
    (∀ x ∈ later, ¬ IsCollection x) → LeavesRoom maxSlots stats.live later heap

theorem Run.leavesRoom {id : Nat} {later before : List (Exchange κ)} {roots : List Handle}
    {stats : Collected}
    (h : Run id maxSlots (later ++ (.collect roots, .ok (.collected stats)) :: before) heap)
    (hd : heap.destroyed = false) (hlater : ∀ x ∈ later, ¬ IsCollection x) :
    LeavesRoom maxSlots stats.live later heap := by
  have w := h.wellFormed.2 hd
  have hlive := h.live_since hd hlater
  refine ⟨hlive, fun limit hlimit => ?_, fun hnone request hrequest => ?_⟩
  · obtain ⟨hatMost, hleast⟩ := Number.ceil?_eq_some_iff.mp hlimit
    have hsum := w.live_add_free
    have hsize := h.within.size_le limit hlimit
    refine ⟨by omega, fun request hrequest => ?_⟩
    rcases perform_allocation w h.within hrequest with ⟨hfull, hrun⟩ | ⟨hroom, hreturns⟩
    · have hle := hleast _ hfull
      refine iff_of_false ?_ (by omega)
      rintro ⟨e, heap', hrun'⟩
      cases hrun.symm.trans hrun'
    · refine iff_of_true hreturns ?_
      have hlt : ¬ limit ≤ heap.live := fun hle => hroom (hatMost.mono hle)
      omega
  · rcases perform_allocation w h.within hrequest with ⟨hfull, -⟩ | ⟨-, hreturns⟩
    · exact absurd hfull (Number.ceil?_eq_none_iff.mp hnone _)
    · exact hreturns

/-- **Capacity is neither lost nor exceeded.** In every state of a heap in use, an allocation with
live arguments is refused exactly when the live values reach the bound that the heap was created
with, whatever number it is; the slots ever used are no more than the bound rounded up; and after a
collection with `L` survivors exactly the rounded bound less `L` allocations return before the next
one, any number of them when there is no bound. -/
theorem capacity_is_kept {id : Nat} {past : List (Exchange κ)} (h : Run id maxSlots past heap)
    (hd : heap.destroyed = false) : KeepsCapacity id maxSlots past heap := by
  have w := h.wellFormed.2 hd
  have hexhaustion : heap.exhaustion = .heap (.exhausted id maxSlots) := by
    rw [exhaustion, h.wellFormed.1, h.within.maxSlots_eq]
  refine ⟨fun request hrequest => ?_, fun request hrequest hroom => ?_,
    fun requests => h.allocations_performAll hd,
    fun limit hlimit => ⟨h.card_slotsUsed_le hlimit, h.within.size_le limit hlimit⟩, ?_⟩
  · rcases perform_allocation w h.within hrequest with ⟨hfull, hrun⟩ | ⟨hroom, e, heap', hrun⟩
    · rw [hrun, hexhaustion]
      exact iff_of_true rfl hfull
    · rw [hrun]
      exact iff_of_false (fun h => by cases h) hroom
  · rcases perform_allocation w h.within hrequest with ⟨hfull, -⟩ | ⟨-, hreturns⟩
    · exact absurd hfull hroom
    · exact hreturns
  · rintro later before roots stats rfl hlater
    exact h.leavesRoom hd hlater

/-- A new heap that is asked for two slots and a half has three. -/
theorem create_fractional (id : Nat) :
    (create id (Number.ofDecimal false 25 (-1)) : Except Fault (Heap κ)) =
      .ok ⟨id, Number.ofDecimal false 25 (-1), #[⟨0, some .nil, some ⟨id, 0, 0⟩⟩], [], 1, false⟩ :=
  if_pos (by decide +kernel)

/-- A heap with a bound of two slots and a half: of a string that a collection frees, two values in
its place and one too many. -/
theorem capacity_is_kept_fractional : ∃ (past : List (Exchange Unit)) (heap : Heap Unit),
    Run 1 (Number.ofDecimal false 25 (-1)) past heap ∧
      past.map Prod.fst = [.string [], .symbol [], .string [], .collect [], .string []] ∧
      Number.ceil? (Number.ofDecimal false 25 (-1)) = some 3 ∧
      KeepsCapacity 1 (Number.ofDecimal false 25 (-1)) past heap := by
  have hrun := (Run.created (@create_fractional Unit 1)).performAll
    [.string [], .collect [], .string [], .symbol [], .string []]
  refine ⟨_, _, hrun, requests_performAll .., by decide +kernel, capacity_is_kept hrun ?_⟩
  rw [← Bool.not_eq_true, hrun.destroyed_iff, requests_performAll]
  simp

end Heap

end ConsoleLisp
