import ConsoleLisp.Level.Natives
import ConsoleLisp.Proofs.Evaluation.Program

/-!
# What natives are made of

The natives of a console are put together from few parts: actions on the heap, evaluations,
messages, and for the one that reaches the level actions on the world. `Procedure.Made` says so of a
procedure, and which of these parts it may use. A property that the parts have and that sequencing
keeps is then one of every such native, by induction.

Results:
* `Made.within`: the program of such a procedure evaluates and acts on the world only if it may.
* **`Builtin.made`**: built-in procedures leave the world alone.
* **`LevelAction.applyForceTo_made`**: the action on a level evaluates nothing.
-/

namespace ConsoleLisp

variable {κ ω σ α β : Type}

namespace Program

/-- The program evaluates, and acts on the world, only if it may. -/
def Within (evaluates acts : Prop) : Program κ ω α → Prop
  | .done _ | .fault _ => True
  | .heap _ next => ∀ answer, (next answer).Within evaluates acts
  | .world _ next => acts ∧ ∀ answer, (next answer).Within evaluates acts
  | .evaluate _ _ next => evaluates ∧ ∀ answer, (next answer).Within evaluates acts
  | .steps next => ∀ count, (next count).Within evaluates acts
  | .log _ next => next.Within evaluates acts

theorem within_true (p : Program κ ω α) : p.Within True True := by
  induction p with
  | done | fault => trivial
  | heap action next ih => exact ih
  | world action next ih => exact ⟨trivial, ih⟩
  | evaluate scope e next ih => exact ⟨trivial, ih⟩
  | steps next ih => exact ih
  | log entry next ih => exact ih

theorem Within.bind {evaluates acts : Prop} {p : Program κ ω α} {f : α → Program κ ω β}
    (hp : p.Within evaluates acts) (hf : ∀ a, (f a).Within evaluates acts) :
    (p.bind f).Within evaluates acts := by
  induction p with
  | done result => exact hf result
  | fault => trivial
  | heap action next ih => exact fun answer => ih answer (hp answer)
  | world action next ih => exact ⟨hp.1, fun answer => ih answer (hp.2 answer)⟩
  | evaluate scope e next ih => exact ⟨hp.1, fun answer => ih answer (hp.2 answer)⟩
  | steps next ih => exact fun count => ih count (hp count)
  | log entry next ih => exact ih hp

end Program

namespace Procedure

/-- The procedure is put together from parts; it evaluates and acts on the world only if it may. -/
inductive Made (evaluates acts : Prop) : {α : Type} → Procedure κ ω α → Prop
  | pure {α : Type} (a : α) : Made evaluates acts (pure a)
  | throw {α : Type} (failure : Failure) : Made evaluates acts (throw failure : Procedure κ ω α)
  | onHeap {α : Type} (action : HeapM κ α) : Made evaluates acts (onHeap action)
  | onWorld {α : Type} (action : StateM ω α) : acts → Made evaluates acts (onWorld action)
  | evaluate (scope : Scope) (e : Handle) : evaluates → Made evaluates acts (evaluate scope e)
  | log (level : LogLevel) (message : Text) : Made evaluates acts (log level message)
  | bind {α β : Type} {p : Procedure κ ω α} {f : α → Procedure κ ω β} : Made evaluates acts p →
      (∀ a, Made evaluates acts (f a)) → Made evaluates acts (p >>= f)

namespace Made

variable {evaluates acts : Prop}

theorem fail (payload : Handle) (code : FailureCode) :
    Made evaluates acts (fail payload code : Procedure κ ω α) := .throw _

theorem look (f : Heap κ → Except Fault α) :
    Made evaluates acts (look f : Procedure κ ω α) := .onHeap _

theorem arguments (args : Handle) (arity : Arity) :
    Made evaluates acts (arguments args arity : Procedure κ ω (List Handle)) := by
  refine (look _).bind fun result => ?_
  cases result with
  | ok items => exact .pure items
  | error failure => exact .throw failure

theorem evaluateAll (h : evaluates) (scope : Scope) (items : List Handle) :
    Made evaluates acts (evaluateAll scope items : Procedure κ ω (List Handle)) := by
  induction items with
  | nil => exact .pure []
  | cons e rest ih => exact (evaluate scope e h).bind fun _ => ih.bind fun _ => .pure _

theorem mapM {f : α → Procedure κ ω β} (hf : ∀ a, Made evaluates acts (f a)) (items : List α) :
    Made evaluates acts (items.mapM f) := by
  induction items with
  | nil => exact .pure []
  | cons a rest ih =>
    rw [List.mapM_cons]
    exact (hf a).bind fun _ => ih.bind fun _ => .pure _

/-- The programs of procedures use no other parts. -/
theorem within {p : Procedure κ ω α} (h : Made evaluates acts p) :
    p.run.Within evaluates acts := by
  induction h with
  | pure | throw | log => trivial
  | onHeap =>
    intro answer
    cases answer <;> trivial
  | onWorld action hacts => exact ⟨hacts, fun _ => trivial⟩
  | evaluate scope e hevaluates =>
    refine ⟨hevaluates, fun answer => ?_⟩
    cases answer <;> trivial
  | bind _ _ ihp ihf =>
    refine Program.Within.bind ihp fun result => ?_
    cases result with
    | ok a => exact ihf a
    | error failure => trivial

end Made

end Procedure

namespace Builtin

open Procedure

theorem numbers_made (items : List (Handle × Handle)) :
    Made True False (numbers items : Procedure κ ω (List Number)) := by
  induction items with
  | nil => exact .pure []
  | cons item rest ih =>
    refine (Made.look _).bind fun cell => ?_
    generalize cell.number? = number
    cases number with
    | none => exact .fail _ _
    | some n => exact ih.bind fun _ => .pure _

theorem evaluateSequence_made (scope : Scope) (last : Handle) (items : List Handle) :
    Made True False (evaluateSequence scope last items : Procedure κ ω Handle) := by
  induction items generalizing last with
  | nil => exact .pure last
  | cons e rest ih => exact (Made.evaluate scope e trivial).bind ih

/-- **The built-in procedures** leave the world alone. -/
theorem made (b : Builtin) (scope : Scope) (args : Handle) :
    Made True False (b.procedure scope args : Procedure κ ω Handle) := by
  have evaluateAll := @Made.evaluateAll κ ω True False trivial scope
  cases b with
  | quote =>
    refine (Made.arguments _ _).bind fun items => ?_
    split
    · exact .pure _
    · exact .fail _ _
  | list => exact (Made.arguments _ _).bind fun items => (evaluateAll items).bind fun _ => .onHeap _
  | cons =>
    refine (Made.arguments _ _).bind fun items => (evaluateAll items).bind fun values => ?_
    split
    · exact .onHeap _
    · exact .fail _ _
  | part which =>
    refine (Made.arguments _ _).bind fun items => ?_
    split
    · refine (Made.evaluate scope _ trivial).bind fun value => (Made.look _).bind fun cell => ?_
      split
      · exact .pure _
      · exact .fail _ _
    · exact .fail _ _
  | arithmetic operation =>
    exact (Made.arguments _ _).bind fun items => (evaluateAll items).bind fun _ =>
      (numbers_made _).bind fun _ => .onHeap _
  | begin =>
    exact (Made.arguments _ _).bind fun items =>
      (Made.onHeap _).bind fun _ => evaluateSequence_made scope _ items
  | set =>
    refine (Made.arguments _ _).bind fun items => ?_
    split
    · refine (Made.look _).bind fun symbol => ?_
      split
      · exact .fail _ _
      · exact (Made.evaluate scope _ trivial).bind fun _ => (Made.onHeap _).bind fun _ => .pure _
    · exact .fail _ _
  | print =>
    exact (Made.arguments _ _).bind fun items => (evaluateAll items).bind fun values =>
      (Made.mapM (fun _ => .look _) values).bind fun _ => (Made.log _ _).bind fun _ => .onHeap _

end Builtin

namespace LevelAction

open Procedure

/-- **The action on a level** evaluates nothing. -/
theorem applyForceTo_made (args : Handle) :
    Made False True (applyForceTo args : Procedure κ (Stage σ) Handle) := by
  refine (Made.arguments _ _).bind fun items => ?_
  split
  · refine (Made.look _).bind fun id => (Made.look _).bind fun force => ?_
    split
    · refine (Made.onWorld _ trivial).bind fun stage => ?_
      split
      · exact (Made.log _ _).bind fun _ => .onHeap _
      · exact (Made.onWorld _ trivial).bind fun _ => (Made.log _ _).bind fun _ => .onHeap _
    · exact .fail _ _
  · exact .fail _ _

end LevelAction

end ConsoleLisp
