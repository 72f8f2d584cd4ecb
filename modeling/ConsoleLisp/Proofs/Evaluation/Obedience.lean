import Mathlib.Logic.IsEmpty.Basic
import ConsoleLisp.Proofs.Evaluation.Parts

/-!
# Natives that pass failures on

A native gets the outcome of an evaluation back even when that is a failure, and may do with it
what it likes. One that is `Obedient` ends with every such failure at once. The condition is on the
programs alone, so it says nothing of the evaluator that runs them.

Results:
* `Obedient.bind`: a sequence is obedient when its parts are.
* `Obedient.of_made`: so is what is put together from the parts of natives.
* **`Builtin.obedient`**, **`LevelAction.applyForceTo_obedient`**: every native of a console is.
-/

namespace ConsoleLisp

variable {κ χ ω ν σ α β : Type}

/-- The program ends with the failure of any evaluation that it asks for. -/
def Program.Obedient : Program κ ω (Except Failure α) → Prop
  | .done _ | .fault _ => True
  | .heap _ next => ∀ answer, (next answer).Obedient
  | .world _ next => ∀ answer, (next answer).Obedient
  | .evaluate _ _ next => (∀ failure, next (.ok (.error failure)) = .done (.error failure)) ∧
      ∀ answer, (next answer).Obedient
  | .steps next => ∀ count, (next count).Obedient
  | .log _ next => next.Obedient

namespace Procedure

/-- The procedure ends with the failure of any evaluation that it asks for. -/
def Obedient (p : Procedure κ ω α) : Prop := p.run.Obedient

namespace Obedient

theorem pure (a : α) : Obedient (pure a : Procedure κ ω α) := trivial

theorem throw (failure : Failure) : Obedient (throw failure : Procedure κ ω α) := trivial

theorem evaluate (scope : Scope) (e : Handle) :
    Obedient (evaluate scope e : Procedure κ ω Handle) := by
  refine ⟨fun _ => rfl, fun answer => ?_⟩
  cases answer <;> trivial

theorem onHeap (action : HeapM κ α) : Obedient (onHeap action : Procedure κ ω α) := by
  intro answer
  cases answer <;> trivial

theorem onWorld (action : StateM ω α) : Obedient (onWorld action : Procedure κ ω α) :=
  fun _ => trivial

theorem log (level : LogLevel) (message : Text) :
    Obedient (log level message : Procedure κ ω Unit) := trivial

/-- **A sequence is obedient when its parts are**: what a failure of the first part ends is not
gone on with. -/
theorem bind {p : Procedure κ ω α} {f : α → Procedure κ ω β} (hp : Obedient p)
    (hf : ∀ a, Obedient (f a)) : Obedient (p >>= f) := by
  suffices h : ∀ q : Program κ ω (Except Failure α), q.Obedient →
      (q.bind (ExceptT.bindCont f)).Obedient from h p.run hp
  intro q hq
  induction q with
  | done result =>
    cases result with
    | ok a => exact hf a
    | error failure => trivial
  | fault => trivial
  | heap action next ih | world action next ih => exact fun answer => ih answer (hq answer)
  | evaluate scope e next ih =>
    refine ⟨fun failure => ?_, fun answer => ih answer (hq.2 answer)⟩
    show (next _).bind _ = _
    rw [hq.1 failure]
    rfl
  | steps next ih => exact fun count => ih count (hq count)
  | log entry next ih => exact ih hq

/-- What natives are made of is obedient, whichever parts they use. -/
theorem of_made {evaluates acts : Prop} {p : Procedure κ ω α} (h : Made evaluates acts p) :
    Obedient p := by
  induction h with
  | pure a => exact .pure a
  | throw failure => exact .throw failure
  | onHeap action => exact .onHeap action
  | onWorld action => exact .onWorld action
  | evaluate scope e => exact .evaluate scope e
  | log level message => exact .log level message
  | bind _ _ ihp ihf => exact ihp.bind ihf

end Obedient

end Procedure

/-- **The built-in procedures pass on every failure** of an argument. -/
theorem Builtin.obedient (b : Builtin) (scope : Scope) (args : Handle) :
    Procedure.Obedient (b.procedure scope args : Procedure κ ω Handle) :=
  .of_made (b.made scope args)

/-- The action on a level evaluates nothing. -/
theorem LevelAction.applyForceTo_obedient (args : Handle) :
    Procedure.Obedient (applyForceTo args : Procedure κ (Stage σ) Handle) :=
  .of_made (applyForceTo_made args)

/-- Every native of the host passes on the failures of what it evaluates. -/
def Host.IsObedient (host : Host κ ω ν) : Prop :=
  ∀ action scope args, Procedure.Obedient (host.procedure action scope args)

/-- A host with the built-in natives and the action on a level, and none of its own. -/
theorem Host.isObedient_withBuiltins [IsEmpty χ]
    (custom : χ → Scope → Handle → Procedure (Action (LevelAction χ)) (Stage σ) Handle)
    (observe : Event → Heap (Action (LevelAction χ)) → List ν) :
    (Host.withBuiltins (LevelAction.procedure custom) observe).IsObedient
  | .builtin b, scope, args => b.obedient scope args
  | .custom .applyForce, _, args => LevelAction.applyForceTo_obedient args
  | .custom (.host action), _, _ => isEmptyElim action

end ConsoleLisp
