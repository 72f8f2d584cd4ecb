import ConsoleLisp.Proofs.Evaluation.Program

/-!
# What becomes of an application

An application is refused by the depth limit, refused by the step limit, or goes on one application
deeper. There is one equation for each of the three.

Results:
* `Store.run_onHeap`: an action on the heap of a store.
* `Session.run_look`, `Session.run_note`, `Session.run_deeper`: steps of a session.
* **`dispatch_of_tooDeep`**, **`dispatch_of_overBudget`**, **`dispatch_of_admitted`**.
* `run_evaluate`, `run_evaluate_error`: an evaluation from outside.
-/

namespace ConsoleLisp

variable {κ ω ν α : Type}

namespace Store

variable {store : Store κ ω ν} {heap : Heap κ}

theorem run_onHeap {action : HeapM κ α} {a : α} (h : action store.heap = (.ok a, heap)) :
    (onHeap action : StoreM κ ω ν α) store = (.ok a, { store with heap := heap }) := by
  show (fun r : Except Fault α × Heap κ => (r.1, { store with heap := r.2 }))
    (action store.heap) = _
  rw [h]

theorem run_onHeap_error {action : HeapM κ α} {fault : Fault}
    (h : action store.heap = (.error fault, heap)) :
    (onHeap action : StoreM κ ω ν α) store = (.error fault, { store with heap := heap }) := by
  show (fun r : Except Fault α × Heap κ => (r.1, { store with heap := r.2 }))
    (action store.heap) = _
  rw [h]

end Store

namespace Session

variable {m m' : Machine κ ω ν}

theorem run_look {f : Heap κ → Except Fault α} {a : α} (h : f m.store.heap = .ok a) :
    (look f : Session κ ω ν α) m = (.ok a, m) := by
  show (f m.store.heap, m) = _
  rw [h]

theorem run_look_error {f : Heap κ → Except Fault α} {fault : Fault}
    (h : f m.store.heap = .error fault) :
    (look f : Session κ ω ν α) m = (.error fault, m) := by
  show (f m.store.heap, m) = _
  rw [h]

theorem run_note (host : Host κ ω ν) (event : Event) :
    note host event m = (.ok ⟨⟩, { m with store := m.store.note host event }) := rfl

/-- The counter is raised for the body and lowered behind it. -/
theorem run_deeper {body : Session κ ω ν α} {result : Except Fault α}
    (h : body { m with depth := m.depth + 1 } = (result, m')) :
    deeper body m = (result, { m' with depth := m'.depth - 1 }) := by
  show (fun r : Except Fault α × Machine κ ω ν => (r.1, { r.2 with depth := r.2.depth - 1 }))
    (body { m with depth := m.depth + 1 }) = _
  rw [h]

end Session

section Dispatch

variable {host : Host κ ω ν} {limits : Limits} {ev : Scope → Handle → Session κ ω ν Outcome}
  {scope : Scope} {form head args : Handle} {m : Machine κ ω ν}

/-- An application that the depth limit refuses fails with its own form and is not counted. -/
theorem dispatch_of_tooDeep (h : limits.depth.any (· ≤ m.depth) = true) :
    dispatch host limits ev scope form head args m =
      (.ok (.error ⟨form, .depthExceeded⟩),
        { m with store := m.store.note host (.application form m.depth .tooDeep) }) := by
  rw [dispatch, Act.run_bind_ok (Act.run_get m), if_pos h, Act.run_bind_ok (Session.run_note _ _)]
  rfl

/-- An application past the step limit is counted and fails with its own form. -/
theorem dispatch_of_overBudget (hdepth : limits.depth.any (· ≤ m.depth) = false)
    (h : limits.steps.any (· < m.steps + 1) = true) :
    dispatch host limits ev scope form head args m =
      (.ok (.error ⟨form, .limitExceeded⟩),
        ⟨m.store.note host (.application form m.depth .overBudget), m.steps + 1, m.depth⟩) := by
  rw [dispatch, Act.run_bind_ok (Act.run_get m), if_neg (Bool.eq_false_iff.mp hdepth)]
  refine @Session.run_deeper κ ω ν _ m ⟨m.store.note host _, m.steps + 1, m.depth + 1⟩ _ _ ?_
  rw [Act.run_bind_ok (Act.run_modify _ _), Act.run_bind_ok (Act.run_get _), if_pos h,
    Act.run_bind_ok (Session.run_note _ _)]
  rfl

/-- An application that both limits admit is counted and goes on one application deeper. -/
theorem dispatch_of_admitted (hdepth : limits.depth.any (· ≤ m.depth) = false)
    (h : limits.steps.any (· < m.steps + 1) = false) {result : Except Fault Outcome}
    {m' : Machine κ ω ν}
    (hrun : applyForm host ev scope head args
      ⟨m.store.note host (.application form m.depth .admitted), m.steps + 1, m.depth + 1⟩ =
        (result, m')) :
    dispatch host limits ev scope form head args m =
      (result, { m' with depth := m'.depth - 1 }) := by
  rw [dispatch, Act.run_bind_ok (Act.run_get m), if_neg (Bool.eq_false_iff.mp hdepth)]
  refine Session.run_deeper ?_
  rw [Act.run_bind_ok (Act.run_modify _ _), Act.run_bind_ok (Act.run_get _),
    if_neg (Bool.eq_false_iff.mp h), Act.run_bind_ok (Session.run_note _ _)]
  exact hrun

end Dispatch

/-! ## Whole evaluations -/

section Evaluate

variable {host : Host κ ω ν} {limits : Limits} {store : Store κ ω ν} {scope : Scope} {e : Handle}
  {m : Machine κ ω ν}

/-- An evaluation runs in a session of its own and notes a failure. -/
theorem run_evaluate {outcome : Outcome}
    (h : evaluateWith host limits limits.nesting scope e ⟨store, 0, 0⟩ = (.ok outcome, m)) :
    evaluate host limits scope e store = (.ok outcome, match outcome with
      | .ok _ => m.store
      | .error failure => m.store.note host (.failed failure)) := by
  have hbody : (fun r : Except Fault Outcome × Machine κ ω ν => (r.1, r.2.store))
      (evaluateWith host limits limits.nesting scope e ⟨store, 0, 0⟩) = (.ok outcome, m.store) := by
    rw [h]
  refine (Act.run_bind_ok hbody).trans ?_
  cases outcome <;> rfl

/-- A fault ends the session, and nothing is noted of it. -/
theorem run_evaluate_error {fault : Fault}
    (h : evaluateWith host limits limits.nesting scope e ⟨store, 0, 0⟩ = (.error fault, m)) :
    evaluate host limits scope e store = (.error fault, m.store) := by
  have hbody : (fun r : Except Fault Outcome × Machine κ ω ν => (r.1, r.2.store))
      (evaluateWith host limits limits.nesting scope e ⟨store, 0, 0⟩) =
        (.error fault, m.store) := by
    rw [h]
  exact Act.run_bind_error hbody

end Evaluate

end ConsoleLisp
