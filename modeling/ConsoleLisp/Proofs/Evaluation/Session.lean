import ConsoleLisp.Proofs.Evaluation.Budget
import ConsoleLisp.Proofs.Evaluation.Conduct

/-!
# Whole sessions

A session starts with both counters at zero and an empty journal of moments. `Session.Watched` ties
its watched run to what the session does for its host: the same result, and the store that the
watched machine shows.

Results:
* **`Session.exists_watched`**: every session has a watched run.
* `Session.Watched.store_eq`: what a session leaves, but for its journal.
-/

namespace ConsoleLisp

variable {κ ω ν : Type}

/-- The watched run of a session, which ends with a result and a machine. -/
structure Session.Watched (host : Host κ ω ν) (limits : Limits) (scope : Scope) (e : Handle)
    (store : Store κ ω ν) (result : Except Fault Outcome) (w : Machine κ ω (Moment κ)) : Prop where
  run_eq : watchedEvaluate host limits limits.nesting scope e store.watched = (result, w)
  /-- The evaluator does what the watched run shows. -/
  shown_eq : evaluateWith host limits limits.nesting scope e ⟨store, 0, 0⟩ =
    (result, w.shown host store.journal)

namespace Session

variable {host : Host κ ω ν} {limits : Limits} {scope : Scope} {e : Handle} {store : Store κ ω ν}
  {result : Except Fault Outcome} {w : Machine κ ω (Moment κ)}

/-- **Every session has a watched run.** -/
theorem exists_watched (host : Host κ ω ν) (limits : Limits) (scope : Scope) (e : Handle)
    (store : Store κ ω ν) : ∃ result w, Watched host limits scope e store result w :=
  ⟨_, _, rfl, evaluateWith_mirrors host store.journal limits limits.nesting scope e store.watched⟩

namespace Watched

theorem result_eq (h : Watched host limits scope e store result w) :
    (evaluate host limits scope e store).1 = result :=
  evaluate_fst h.shown_eq

/-- What a session leaves in the store of its host. -/
theorem store_eq (h : Watched host limits scope e store result w) :
    (evaluate host limits scope e store).2.heap = w.store.heap ∧
      (evaluate host limits scope e store).2.world = w.store.world ∧
      (evaluate host limits scope e store).2.log = w.store.log := by
  have hshown := h.shown_eq
  rcases result with fault | _ | _
  · rw [run_evaluate_error hshown]
    exact ⟨rfl, rfl, rfl⟩
  · rw [run_evaluate hshown]
    exact ⟨rfl, rfl, rfl⟩
  · rw [run_evaluate hshown]
    exact ⟨rfl, rfl, rfl⟩

end Watched

end Session

end ConsoleLisp
