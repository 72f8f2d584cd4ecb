import ConsoleLisp.Proofs.Heap.Collection

/-!
# Runs of a heap

A `Request` is a public operation with its arguments, and `Run` is the relation between what a heap
was asked and answered since it was created and the heap it is now. Arguments are arbitrary, so
requests that are refused belong to a run like any other.

Results:
* **`perform_effect`**: a request is refused and changes nothing, or has one of five effects.
* **`Run.wellFormed`**: a heap in use is well formed, with the identity it was created with.
* `Run.destroyed_iff`: it is in use until it is asked to be destroyed.
* `representation_invariant`: the same, written out.
-/

namespace ConsoleLisp

namespace Heap

variable {κ : Type}

/-! ## Requests -/

/-- A public operation of a heap with its arguments. -/
inductive Request (κ : Type)
  | nil
  | number (value : Number)
  | symbol (name : Text)
  | string (value : Text)
  | pair (head tail : Handle)
  | native (procedure : Native κ)
  | setPart (part : PairPart) (e value : Handle)
  | collect (roots : List Handle)
  | destroy

/-- What a request gives. -/
inductive Answer
  | handle (e : Handle)
  | done
  | collected (stats : Collected)
  | freed (count : Nat)

namespace Request

/-- The cell that a request allocates. -/
def cell? : Request κ → Option (Cell κ)
  | number value => some (.number value)
  | symbol name => some (.symbol name)
  | string value => some (.string value)
  | pair head tail => some (.pair head tail)
  | native procedure => some (.native procedure)
  | nil | setPart .. | collect _ | destroy => none

/-- The operation. -/
def perform : Request κ → HeapM κ Answer
  | nil => Answer.handle <$> Heap.nil
  | number value => Answer.handle <$> allocate (.number value)
  | symbol name => Answer.handle <$> allocate (.symbol name)
  | string value => Answer.handle <$> allocate (.string value)
  | pair head tail => Answer.handle <$> Heap.pair head tail
  | native procedure => Answer.handle <$> allocate (.native procedure)
  | setPart part e value => (fun _ => Answer.done) <$> Heap.setPart part e value
  | collect roots => Answer.collected <$> Heap.collect roots
  | destroy => fun heap => (.ok (.freed heap.destroy.1), heap.destroy.2)

end Request

/-- A request and what it was answered. -/
abbrev Exchange (κ : Type) := Request κ × Except Fault Answer

/-- The heap that a sequence of requests makes of a new one; the latest exchange is in front. -/
inductive Run (id : Nat) (maxSlots : Number) : List (Exchange κ) → Heap κ → Prop
  | created {heap : Heap κ} : create id maxSlots = .ok heap → Run id maxSlots [] heap
  | performed {past : List (Exchange κ)} {heap heap' : Heap κ} {request : Request κ}
      {answer : Except Fault Answer} : Run id maxSlots past heap →
      request.perform heap = (answer, heap') → Run id maxSlots ((request, answer) :: past) heap'

/-! ## What a request does -/

/-- The effects that a request has on a heap in use. -/
inductive Effect (heap : Heap κ) : Request κ → Except Fault Answer → Heap κ → Prop
  | refused {request : Request κ} (fault : Fault) : Effect heap request (.error fault) heap
  | nil : Effect heap .nil (.ok (.handle heap.nilHandle)) heap
  | allocated {request : Request κ} {cell : Cell κ} {e : Handle} {heap' : Heap κ} :
      request.cell? = some cell → heap.cell? e = none → heap.Updates e cell heap' →
      heap'.WellFormed → Effect heap request (.ok (.handle e)) heap'
  | replaced {part : PairPart} {e value head tail : Handle} {heap' : Heap κ} :
      heap.cell? e = some (.pair head tail) →
      heap.Updates e (replacePart part value head tail) heap' → heap'.WellFormed →
      Effect heap (.setPart part e value) (.ok .done) heap'
  | collected {roots : List Handle} {stats : Collected} {heap' : Heap κ} :
      (∀ e ∈ roots, heap.isLive e = true) → heap.Collects roots heap' → heap'.WellFormed →
      Effect heap (.collect roots) (.ok (.collected stats)) heap'
  | destroyed : Effect heap .destroy (.ok (.freed heap.live)) heap.destroy.2

section Effects

variable {heap : Heap κ}

theorem view_inspect_eq {e : Handle} {c : Cell κ} (h : heap.cell? e = some c) :
    (view (inspect · e) : HeapM κ (Cell κ)) heap = (.ok c, heap) := by
  rw [view, inspect_eq_ok_iff.mpr h]

theorem nil_spec (w : heap.WellFormed) :
    (nil : HeapM κ Handle) heap = (.ok heap.nilHandle, heap) := by
  have husable : (view checkUsable : HeapM κ Unit) heap = (.ok (), heap) := by
    rw [view, w.checkUsable_eq]
  rw [nil, Act.run_bind_ok husable]
  rfl

/-- **A pair is allocated when both parts are live.** -/
theorem pair_eq_allocate {head tail : Handle} (hh : heap.isLive head = true)
    (ht : heap.isLive tail = true) : pair head tail heap = allocate (.pair head tail) heap := by
  obtain ⟨c, hc⟩ := isLive_iff.mp hh
  obtain ⟨d, hd⟩ := isLive_iff.mp ht
  rw [pair, Act.run_bind_ok (view_inspect_eq hc), Act.run_bind_ok (view_inspect_eq hd)]

/-- Looking at a handle is refused or gives its cell; the heap stays as it is. -/
theorem view_inspect_cases (heap : Heap κ) (e : Handle) :
    (∃ fault, (view (inspect · e) : HeapM κ (Cell κ)) heap = (.error fault, heap)) ∨
      ∃ c, heap.cell? e = some c ∧
        (view (inspect · e) : HeapM κ (Cell κ)) heap = (.ok c, heap) := by
  cases h : heap.inspect e with
  | error fault => exact Or.inl ⟨fault, by rw [view, h]⟩
  | ok c => exact Or.inr ⟨c, inspect_eq_ok_iff.mp h, by rw [view, h]⟩

theorem pair_cases (heap : Heap κ) (head tail : Handle) :
    (∃ fault, pair head tail heap = (.error fault, heap)) ∨
      (heap.isLive head = true ∧ heap.isLive tail = true) := by
  rcases view_inspect_cases heap head with ⟨fault, hf⟩ | ⟨c, hc, hh⟩
  · exact Or.inl ⟨fault, by rw [pair, Act.run_bind_error hf]⟩
  rcases view_inspect_cases heap tail with ⟨fault, hf⟩ | ⟨d, hd, -⟩
  · exact Or.inl ⟨fault, by rw [pair, Act.run_bind_ok hh, Act.run_bind_error hf]⟩
  · exact Or.inr ⟨isLive_of_cell? hc, isLive_of_cell? hd⟩

/-- A part of a pair is replaced by a live value. -/
theorem setPart_eq_overwrite {part : PairPart} {e value head tail : Handle}
    (hc : heap.cell? e = some (.pair head tail)) (hv : heap.isLive value = true) :
    setPart part e value heap =
      (.ok (), overwrite e.index (replacePart part value head tail) heap) := by
  obtain ⟨d, hd⟩ := isLive_iff.mp hv
  rw [setPart, Act.run_bind_ok (view_inspect_eq hc)]
  exact Act.run_bind_ok (view_inspect_eq hd)

theorem partsLive_replacePart (w : heap.WellFormed) {e value head tail : Handle}
    (hc : heap.cell? e = some (.pair head tail)) (hv : heap.isLive value = true)
    (part : PairPart) : heap.PartsLive (replacePart part value head tail) := by
  obtain ⟨hhead, htail⟩ := w.parts_live e.index head tail (cell?_eq_cellAt? hc)
  intro head' tail' heq
  cases part with
  | head =>
    cases heq
    exact ⟨hv, htail⟩
  | tail =>
    cases heq
    exact ⟨hhead, hv⟩

/-- **A part is replaced when the handle names a pair and the new value is live**; else nothing
happens. -/
theorem setPart_spec (w : heap.WellFormed) (part : PairPart) (e value : Handle) :
    (∃ fault, setPart part e value heap = (.error fault, heap)) ∨
      ∃ head tail heap', heap.cell? e = some (.pair head tail) ∧
        setPart part e value heap = (.ok (), heap') ∧ heap'.WellFormed ∧
        heap.Updates e (replacePart part value head tail) heap' := by
  rcases view_inspect_cases heap e with ⟨fault, hf⟩ | ⟨c, hc, he⟩
  · exact Or.inl ⟨fault, by rw [setPart, Act.run_bind_error hf]⟩
  cases c with
  | pair head tail =>
    rcases view_inspect_cases heap value with ⟨fault, hf⟩ | ⟨d, hd, -⟩
    · refine Or.inl ⟨fault, ?_⟩
      rw [setPart, Act.run_bind_ok he]
      exact Act.run_bind_error hf
    · have hv := isLive_of_cell? hd
      obtain ⟨w', hu⟩ := overwrite_spec w hc (partsLive_replacePart w hc hv part)
      exact Or.inr ⟨head, tail, _, hc, setPart_eq_overwrite hc hv, w', hu⟩
  | nil | number | symbol | string | native =>
    exact Or.inl ⟨_, (Act.run_bind_ok he).trans (Act.run_throw _ _)⟩

/-- An allocation as an effect of the request that asks for it. -/
theorem allocate_effect (w : heap.WellFormed) {request : Request κ} {cell : Cell κ}
    (hc : request.cell? = some cell) (hp : heap.PartsLive cell) :
    Effect heap request ((Answer.handle <$> allocate cell : HeapM κ Answer) heap).1
      ((Answer.handle <$> allocate cell : HeapM κ Answer) heap).2 := by
  rcases allocate_spec w hp with ⟨-, -, hrun⟩ | ⟨e, heap', hrun, w', hu, hnew⟩
  · rw [Act.run_map_error hrun]
    exact .refused _
  · rw [Act.run_map_ok hrun]
    exact .allocated hc hnew hu w'

theorem partsLive_atom {cell : Cell κ} (h : cell.pair? = none) : heap.PartsLive cell := by
  rintro head tail rfl
  cases h

/-- **A request to a heap in use is refused and changes nothing, or has the effect it is for.** -/
theorem perform_effect (w : heap.WellFormed) (request : Request κ) :
    Effect heap request (request.perform heap).1 (request.perform heap).2 := by
  cases request with
  | nil =>
    rw [Request.perform, Act.run_map_ok (nil_spec w)]
    exact .nil
  | number | symbol | string | native => exact allocate_effect w rfl (partsLive_atom rfl)
  | pair head tail =>
    rw [Request.perform]
    rcases pair_cases heap head tail with ⟨fault, hf⟩ | ⟨hh, ht⟩
    · rw [Act.run_map_error hf]
      exact .refused _
    · have heq : (Answer.handle <$> pair head tail : HeapM κ Answer) heap =
          (Answer.handle <$> allocate (.pair head tail) : HeapM κ Answer) heap :=
        Act.run_map_congr (pair_eq_allocate hh ht)
      rw [heq]
      refine allocate_effect w rfl fun _ _ h => ?_
      cases h
      exact ⟨hh, ht⟩
  | setPart part e value =>
    rw [Request.perform]
    rcases setPart_spec w part e value with ⟨fault, hf⟩ | ⟨head, tail, heap', hc, hrun, w', hu⟩
    · rw [Act.run_map_error hf]
      exact .refused _
    · rw [Act.run_map_ok hrun]
      exact .replaced hc hu w'
  | collect roots =>
    rw [Request.perform]
    by_cases hr : ∀ e ∈ roots, heap.isLive e = true
    · obtain ⟨freed, heap', hrun, w', hcollects, -⟩ := collect_spec w hr
      rw [Act.run_map_ok hrun]
      exact .collected hr hcollects w'
    · obtain ⟨fault, hf⟩ := collect_refused w (by simpa using hr)
      rw [Act.run_map_error hf]
      exact .refused _
  | destroy => exact .destroyed

end Effects

/-- An effect leaves the heap well formed, unless it is the last. -/
theorem Effect.wellFormed {heap heap' : Heap κ} {request : Request κ}
    {answer : Except Fault Answer} (w : heap.WellFormed) (h : Effect heap request answer heap') :
    heap'.id = heap.id ∧ (heap'.destroyed = false → heap'.WellFormed) := by
  cases h with
  | refused => exact ⟨rfl, fun _ => w⟩
  | nil => exact ⟨rfl, fun _ => w⟩
  | allocated _ _ hu w' => exact ⟨hu.id_eq, fun _ => w'⟩
  | replaced _ hu w' => exact ⟨hu.id_eq, fun _ => w'⟩
  | collected _ hc w' => exact ⟨hc.id_eq, fun _ => w'⟩
  | destroyed => exact ⟨rfl, fun hd => absurd hd (by simp [destroy])⟩

/-- Only one request destroys a heap. -/
theorem Effect.usable {heap heap' : Heap κ} {request : Request κ} {answer : Except Fault Answer}
    (w : heap.WellFormed) (h : Effect heap request answer heap') (hne : request ≠ .destroy) :
    heap'.destroyed = false := by
  cases h with
  | refused | nil => exact w.usable
  | allocated _ _ _ w' => exact w'.usable
  | replaced _ _ w' => exact w'.usable
  | collected _ _ w' => exact w'.usable
  | destroyed => exact absurd rfl hne

/-! ## Runs -/

/-- **A destroyed heap refuses everything** but being destroyed again. -/
theorem perform_of_destroyed {heap : Heap κ} (hd : heap.destroyed = true) {request : Request κ}
    (hne : request ≠ .destroy) :
    request.perform heap = (.error (.heap (.destroyed heap.id)), heap) := by
  have hinspect : ∀ e, (view (inspect · e) : HeapM κ (Cell κ)) heap =
      (.error (.heap (.destroyed heap.id)), heap) := by
    intro e
    rw [view, inspect_eq, if_pos hd]
  have husable : (view checkUsable : HeapM κ Unit) heap =
      (.error (.heap (.destroyed heap.id)), heap) := by
    rw [view, checkUsable, if_pos hd]
  have hallocate : ∀ cell, allocate cell heap = (.error (.heap (.destroyed heap.id)), heap) := by
    intro cell
    rw [allocate, if_pos hd]
  cases request with
  | nil => exact Act.run_map_error (Act.run_bind_error husable)
  | number | symbol | string | native => exact Act.run_map_error (hallocate _)
  | pair head tail => exact Act.run_map_error (Act.run_bind_error (hinspect head))
  | setPart part e value => exact Act.run_map_error (Act.run_bind_error (hinspect e))
  | collect roots => exact Act.run_map_error (Act.run_bind_error husable)
  | destroy => exact absurd rfl hne

theorem perform_destroyed {heap : Heap κ} (hd : heap.destroyed = true) (request : Request κ) :
    (∃ fault, request.perform heap = (.error fault, heap)) ∨ request = .destroy := by
  by_cases hrequest : request = .destroy
  · exact .inr hrequest
  · exact .inl ⟨_, perform_of_destroyed hd hrequest⟩

theorem create_eq_ok {id : Nat} {maxSlots : Number} {heap : Heap κ}
    (h : create id maxSlots = .ok heap) :
    heap = ⟨id, maxSlots, #[⟨0, some .nil, some ⟨id, 0, 0⟩⟩], [], 1, false⟩ := by
  unfold create at h
  split at h
  · exact (Except.ok.inj h).symm
  · cases h

/-- A heap without a bound. -/
theorem create_unbounded (id : Nat) : (create id Number.infinity : Except Fault (Heap κ)) =
    .ok ⟨id, Number.infinity, #[⟨0, some .nil, some ⟨id, 0, 0⟩⟩], [], 1, false⟩ :=
  if_pos (by decide +kernel)

/-- **A new heap is well formed.** -/
theorem create_wellFormed {id : Nat} {maxSlots : Number} {heap : Heap κ}
    (h : create id maxSlots = .ok heap) : heap.WellFormed := by
  cases create_eq_ok h
  refine ⟨⟨rfl, fun i s hs => ?_, List.nodup_nil, fun i => ?_, rfl⟩, rfl, fun i _ _ hc => ?_⟩
  · cases i with
    | zero =>
      cases hs
      rfl
    | succ i => simp at hs
  · cases i <;> simp
  · cases i with
    | zero => cases hc
    | succ i => simp [cellAt?] at hc

/-- A new heap holds its nil and nothing else. -/
theorem eq_nilHandle_of_create {id : Nat} {maxSlots : Number} {heap : Heap κ}
    (h : create id maxSlots = .ok heap) {e : Handle} {c : Cell κ} (hc : heap.cell? e = some c) :
    e = heap.nilHandle := by
  cases create_eq_ok h
  obtain ⟨-, s, hs, -, he⟩ := cell?_eq_some_iff.mp hc
  rw [he]
  cases hi : e.index with
  | zero =>
    rw [hi] at hs
    cases hs
    rfl
  | succ i => simp [hi] at hs

namespace Run

variable {id : Nat} {maxSlots : Number} {past : List (Exchange κ)} {heap : Heap κ}

/-- **A heap in use is well formed, with the identity it was created with.** By induction on the
run; a destroyed heap stays destroyed, so the invariant is only ever asked of a heap in use. -/
theorem wellFormed (h : Run id maxSlots past heap) :
    heap.id = id ∧ (heap.destroyed = false → heap.WellFormed) := by
  induction h with
  | created h =>
    refine ⟨?_, fun _ => create_wellFormed h⟩
    cases create_eq_ok h
    rfl
  | @performed _ heap heap' request answer _ hstep ih =>
    obtain ⟨hid, hw⟩ := ih
    cases hd : heap.destroyed with
    | true =>
      rcases perform_destroyed hd request with ⟨fault, hrun⟩ | rfl
      · cases hstep.symm.trans hrun
        exact ⟨hid, hw⟩
      · cases hstep
        exact ⟨hid, fun hf => absurd hf (by simp [destroy])⟩
    | false =>
      have heffect := perform_effect (hw hd) request
      rw [hstep] at heffect
      obtain ⟨hid', hw'⟩ := heffect.wellFormed (hw hd)
      exact ⟨hid'.trans hid, hw'⟩

/-- **A heap is destroyed when it was asked to be**, and then for good. -/
theorem destroyed_iff (h : Run id maxSlots past heap) :
    heap.destroyed = true ↔ .destroy ∈ past.map Prod.fst := by
  induction h with
  | created h =>
    cases create_eq_ok h
    simp
  | @performed past heap heap' request answer hrun hstep ih =>
    rw [List.map_cons, List.mem_cons, ← ih]
    by_cases hrequest : request = .destroy
    · subst hrequest
      cases hstep
      simp [destroy]
    · have hkept : heap'.destroyed = heap.destroyed := by
        cases hd : heap.destroyed with
        | true =>
          rcases perform_destroyed hd request with ⟨fault, hfault⟩ | hdestroy
          · cases hstep.symm.trans hfault
            exact hd
          · exact absurd hdestroy hrequest
        | false =>
          have heffect := perform_effect (hrun.wellFormed.2 hd) request
          rw [hstep] at heffect
          exact heffect.usable (hrun.wellFormed.2 hd) hrequest
      rw [hkept]
      simp [Ne.symm hrequest]

end Run

/-- Requests made one after another, each added to the past with its answer. -/
def performAll : List (Request κ) → List (Exchange κ) × Heap κ → List (Exchange κ) × Heap κ
  | [], state => state
  | request :: rest, (past, heap) =>
    let (answer, heap) := request.perform heap
    performAll rest ((request, answer) :: past, heap)

theorem Run.performAll {id : Nat} {maxSlots : Number} (requests : List (Request κ))
    {past : List (Exchange κ)} {heap : Heap κ} (h : Run id maxSlots past heap) :
    Run id maxSlots (Heap.performAll requests (past, heap)).1
      (Heap.performAll requests (past, heap)).2 := by
  induction requests generalizing past heap with
  | nil => exact h
  | cons request rest ih => exact ih (h.performed rfl)

theorem requests_performAll (requests : List (Request κ)) (past : List (Exchange κ))
    (heap : Heap κ) : (performAll requests (past, heap)).1.map Prod.fst =
      requests.reverse ++ past.map Prod.fst := by
  induction requests generalizing past heap with
  | nil => rfl
  | cons request rest ih =>
    refine (ih _ _).trans ?_
    rw [List.reverse_cons, List.append_assoc]
    rfl

/-- **Representation invariant.** Whatever a heap was asked, refusals included, as long as it is in
use its slots, handles, free list and counter agree, slot 0 holds the first nil, and no pair points
outside the live allocations. -/
theorem representation_invariant {id : Nat} {maxSlots : Number} {past : List (Exchange κ)}
    {heap : Heap κ} (h : Run id maxSlots past heap) (hd : heap.destroyed = false) :
    heap.WellFormed ∧ heap.slots[0]? = some ⟨0, some .nil, some ⟨id, 0, 0⟩⟩ := by
  obtain ⟨hid, hw⟩ := h.wellFormed
  refine ⟨hw hd, ?_⟩
  rw [(hw hd).nil_slot, nilHandle, hid]

/-- The invariant of a heap with a pair that is its own tail, after a refused request. -/
theorem representation_invariant_cyclic : ∃ (past : List (Exchange Unit)) (heap : Heap Unit),
    Run 1 Number.infinity past heap ∧ heap.cellAt? 1 = some (.pair ⟨1, 0, 0⟩ ⟨1, 1, 0⟩) ∧
      heap.WellFormed ∧ heap.slots[0]? = some ⟨0, some .nil, some ⟨1, 0, 0⟩⟩ := by
  have hrun := (Run.created (@create_unbounded Unit 1)).performAll
    [.pair ⟨1, 0, 0⟩ ⟨1, 0, 0⟩, .setPart .tail ⟨1, 1, 0⟩ ⟨1, 1, 0⟩, .pair ⟨1, 2, 0⟩ ⟨1, 0, 0⟩]
  exact ⟨_, _, hrun, by decide +kernel, representation_invariant hrun (by decide +kernel)⟩

end Heap

end ConsoleLisp
