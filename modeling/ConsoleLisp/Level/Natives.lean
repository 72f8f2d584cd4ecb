import ConsoleLisp.Builtin
import ConsoleLisp.Level.Basic

/-!
# Script access to a level

* `(rect-apply-force ID (FX FY))` takes its arguments as syntax: a symbol or string and a list of
  two numbers. An id that no rectangle has is reported on the log and is no failure.
* `LevelAction` adds this action to those of a host, and `Stage` the level to the host's own world.
-/

namespace ConsoleLisp

/-- An action on a level, or one of the host. -/
inductive LevelAction (χ : Type)
  | applyForce
  | host (action : χ)
  deriving DecidableEq

/-- A level and what else the host keeps. -/
structure Stage (σ : Type) where
  level : Level
  host : σ

namespace LevelAction

open Procedure

variable {κ χ σ : Type}

/-- A rectangle in a log message. -/
def mention (id : Text) : Text := unit '\x60' :: id ++ [unit '\x60']

/-- The force written as a list of two numbers. -/
def forceOf (heap : Heap κ) (e : Handle) : Except Fault (Option Vec) := do
  match ← heap.listItems e with
  | some [x, y] =>
    let x ← heap.inspect x
    let y ← heap.inspect y
    match x.number?, y.number? with
    | some x, some y => return some ⟨x, y⟩
    | _, _ => return none
  | _ => return none

/-- Add to the force on a rectangle of the level. -/
def applyForceTo (args : Handle) : Procedure κ (Stage σ) Handle := do
  match ← arguments args (.exactly 2) with
  | [id, force] =>
    let id := (← look (·.inspect id)).atomText?
    let force ← look (forceOf · force)
    match id, force with
    | some id, some force =>
      match (← onWorld get).level.rect? id with
      | none => log .warn (text "Couldn't find rigid_rect " ++ mention id)
      | some _ =>
        onWorld (modify fun stage => { stage with level := stage.level.applyForce id force })
        log .info (text "Applying force (" ++ Number.toText force.x ++ text ", "
          ++ Number.toText force.y ++ text ") to " ++ mention id)
      onHeap Heap.nil
    | _, _ => fail args .typeError
  | _ => fail args .arity

/-- The natives that a console binds. -/
def natives : NativeSet (Action (LevelAction χ)) :=
  let name := NativeSet.qualifiedName (text "rect") (text "apply-force")
  [(name, ⟨name, .custom .applyForce⟩)]

/-- What the actions do, given what those of the host do. -/
def procedure (host : χ → Scope → Handle → Procedure κ (Stage σ) Handle) :
    LevelAction χ → Scope → Handle → Procedure κ (Stage σ) Handle
  | applyForce, _, args => applyForceTo args
  | .host action, scope, args => host action scope args

end LevelAction

end ConsoleLisp
