import ConsoleLisp.Level.Natives
import ConsoleLisp.Proofs.Evaluation.Program
import ConsoleLisp.Proofs.Heap.Looking
import ConsoleLisp.Proofs.Heap.Run
import ConsoleLisp.Proofs.Heap.Walks

/-!
# Calls of the action on a level

The arguments of `rect-apply-force` are read as syntax. `IsForceCall` says which argument lists are
right, and `Answers` what the action then does: it succeeds with nil, changes the force on one
rectangle or warns that there is none, and writes one message. Any other argument list is the
payload of a failure, and then the level and the log stay as they are.

Results:
* `forceCall?_eq_some_iff`: the reading of an argument list.
* `Level.rect?_applyForce_self`, `Level.rect?_applyForce_of_ne`: a force changes one rectangle only.
* **`applyForceTo_answers`**: what a call does, whatever the machine.
-/

namespace ConsoleLisp

open Heap

variable {κ σ ν : Type} {heap : Heap κ} {args e : Handle} {id : Text} {force : Vec}

/-! ## Argument lists -/

namespace Heap

/-- A proper list of two numbers. -/
def IsVec (heap : Heap κ) (e : Handle) (v : Vec) : Prop :=
  ∃ x y, Items heap e [x, y] ∧ heap.cell? x = some (.number v.x) ∧ heap.cell? y = some (.number v.y)

/-- A proper list of a symbol or string and a proper list of two numbers. -/
def IsForceCall (heap : Heap κ) (args : Handle) (id : Text) (force : Vec) : Prop :=
  ∃ name vec, Items heap args [name, vec] ∧
    (heap.cell? name = some (.symbol id) ∨ heap.cell? name = some (.string id)) ∧
    heap.IsVec vec force

/-- The id and the force that an argument list gives, if it is right. -/
def forceCall? (heap : Heap κ) (args : Handle) : Option (Text × Vec) :=
  match heap.listItems args with
  | .ok (some [name, vec]) =>
    match (heap.cell? name).bind Cell.atomText?, LevelAction.forceOf heap vec with
    | some id, .ok (some force) => some (id, force)
    | _, _ => none
  | _ => none

theorem forceOf_eq_some_iff :
    LevelAction.forceOf heap e = .ok (some force) ↔ heap.IsVec e force := by
  constructor
  · intro h
    obtain ⟨items, hitems, h⟩ := exists_of_except_bind h
    split at h
    · rename_i x y
      obtain ⟨c, hc, h⟩ := exists_of_except_bind h
      obtain ⟨d, hd, h⟩ := exists_of_except_bind h
      refine ⟨x, y, listItems_eq_some_iff.mp hitems, ?_, ?_⟩
      · rw [inspect_eq_ok_iff.mp hc]
        cases c <;> cases d <;> cases h
        rfl
      · rw [inspect_eq_ok_iff.mp hd]
        cases c <;> cases d <;> cases h
        rfl
    · cases h
  · rintro ⟨x, y, hitems, hx, hy⟩
    rw [LevelAction.forceOf, listItems_eq_some_iff.mpr hitems]
    simp only [bind, Except.bind, inspect_eq_ok_iff.mpr hx, inspect_eq_ok_iff.mpr hy]
    rfl

/-- **Reading an argument list.** -/
theorem forceCall?_eq_some_iff :
    heap.forceCall? args = some (id, force) ↔ heap.IsForceCall args id force := by
  unfold forceCall?
  constructor
  · intro h
    split at h
    · rename_i name vec hitems
      split at h
      · rename_i id' force' hname hforce
        cases h
        refine ⟨name, vec, listItems_eq_some_iff.mp hitems, ?_, forceOf_eq_some_iff.mp hforce⟩
        obtain ⟨c, hc, htext⟩ := Option.bind_eq_some_iff.mp hname
        rw [hc]
        cases c <;> cases htext
        · exact .inl rfl
        · exact .inr rfl
      · cases h
    · cases h
  · rintro ⟨name, vec, hitems, hname, hvec⟩
    have htext : (heap.cell? name).bind Cell.atomText? = some id := by
      rcases hname with hname | hname <;> rw [hname] <;> rfl
    rw [listItems_eq_some_iff.mpr hitems]
    simp only [htext, forceOf_eq_some_iff.mpr hvec]

end Heap

/-! ## Forces on a level -/

namespace Level

theorem rect?_updateForce (level : Level) (id other : Text) (f : Vec → Vec) :
    (level.updateForce id f).rect? other = (level.rect? other).map fun rect =>
      if rect.id = id then { rect with force := f rect.force } else rect := by
  unfold rect? updateForce
  rw [List.find?_map]
  refine congrArg (Option.map _ <| List.find? · level.rects) (funext fun rect => ?_)
  show ((if rect.id = id then { rect with force := f rect.force } else rect : Rect).id == other) = _
  split <;> rfl

theorem id_eq_of_rect? {level : Level} {rect : Rect} (h : level.rect? id = some rect) :
    rect.id = id := by
  have hsome := List.find?_some h
  exact eq_of_beq hsome

/-- The rectangle with the id has the force too. -/
theorem rect?_applyForce_self {level : Level} {rect : Rect} (h : level.rect? id = some rect)
    (force : Vec) :
    (level.applyForce id force).rect? id = some { rect with force := rect.force.add force } := by
  rw [applyForce, rect?_updateForce, h, Option.map_some, if_pos (id_eq_of_rect? h)]

end Level

/-! ## What a call does -/

namespace LevelAction

/-- What comes of a call on a level: its outcome, the level behind it and the messages it logs. -/
inductive Answers (heap : Heap κ) (args : Handle) (level : Level) :
    Outcome → Level → List LogEntry → Prop
  /-- There is a rectangle with the id: the force is added to the one on it. -/
  | applied {id : Text} {force : Vec} {rect : Rect} {value : Handle} :
      heap.IsForceCall args id force → level.rect? id = some rect → heap.cell? value = some .nil →
      Answers heap args level (.ok value) (level.applyForce id force)
        [⟨.info, text "Applying force (" ++ Number.toText force.x ++ text ", "
          ++ Number.toText force.y ++ text ") to " ++ mention id⟩]
  /-- There is none. -/
  | unknown {id : Text} {force : Vec} {value : Handle} :
      heap.IsForceCall args id force → level.rect? id = none → heap.cell? value = some .nil →
      Answers heap args level (.ok value) level
        [⟨.warn, text "Couldn't find rigid_rect " ++ mention id⟩]
  /-- The arguments are a proper list of the wrong length. -/
  | arity {items : List Handle} : Items heap args items → items.length ≠ 2 →
      Answers heap args level (.error ⟨args, .arity⟩) level []
  /-- The arguments are no proper list, or not the right ones. -/
  | type : (∀ items, Items heap args items → items.length = 2) →
      (∀ id force, ¬ heap.IsForceCall args id force) →
      Answers heap args level (.error ⟨args, .typeError⟩) level []

open Procedure

/-- The machine behind a call, which leaves the heap as it is. -/
def answered (m : Machine κ (Stage σ) ν) (level : Level) (messages : List LogEntry) :
    Machine κ (Stage σ) ν :=
  { m with store := { m.store with
      world := { m.store.world with level := level }
      log := messages ++ m.store.log } }

section Calls

variable {ev : Scope → Handle → Session κ (Stage σ) ν Outcome} {m : Machine κ (Stage σ) ν}

/-- What a call does with what it reads of two arguments. -/
def applyRead (args : Handle) : Option (Text × Vec) → Procedure κ (Stage σ) Handle
  | none => fail args .typeError
  | some (id, force) => do
    match (← onWorld get).level.rect? id with
    | none => log .warn (text "Couldn't find rigid_rect " ++ mention id)
    | some _ =>
      onWorld (modify fun stage => { stage with level := stage.level.applyForce id force })
      log .info (text "Applying force (" ++ Number.toText force.x ++ text ", "
        ++ Number.toText force.y ++ text ") to " ++ mention id)
    onHeap Heap.nil

/-- Two arguments are read. -/
theorem exec_applyForceTo {name vec : Handle} {c : Cell κ} {force : Option Vec}
    (hargs : Items m.store.heap args [name, vec]) (hname : m.store.heap.cell? name = some c)
    (hvec : forceOf m.store.heap vec = .ok force) :
    exec ev (applyForceTo args) m = exec ev (applyRead args (m.store.heap.forceCall? args)) m := by
  have hitems := listItems_eq_some_iff.mpr hargs
  have hsplit : m.store.heap.splitArguments args (.exactly 2) = .ok (.ok [name, vec]) := by
    rw [splitArguments, hitems]
    rfl
  rw [applyForceTo, exec_bind_ok (exec_arguments hsplit)]
  refine (exec_bind_ok (exec_look (inspect_eq_ok_iff.mpr hname))).trans
    ((exec_bind_ok (exec_look hvec)).trans ?_)
  simp only [forceCall?, hitems, hname, hvec, Option.bind_some]
  cases c.atomText? <;> cases force <;> rfl

theorem exec_applyRead_known {rect : Rect} (w : m.store.heap.WellFormed)
    (hrect : m.store.world.level.rect? id = some rect) :
    exec ev (applyRead args (some (id, force))) m =
      (.ok (.ok m.store.heap.nilHandle), answered m (m.store.world.level.applyForce id force)
        [⟨.info, text "Applying force (" ++ Number.toText force.x ++ text ", "
          ++ Number.toText force.y ++ text ") to " ++ mention id⟩]) := by
  have hstage : exec ev (onWorld get) m = (.ok (.ok m.store.world), m) := rfl
  rw [applyRead, exec_bind_ok hstage, hrect]
  exact (exec_bind_ok (exec_onWorld _)).trans
    ((exec_bind_ok (exec_log _ _)).trans (exec_onHeap (nil_spec w)))

theorem exec_applyRead_unknown (w : m.store.heap.WellFormed)
    (hrect : m.store.world.level.rect? id = none) :
    exec ev (applyRead args (some (id, force))) m =
      (.ok (.ok m.store.heap.nilHandle), answered m m.store.world.level
        [⟨.warn, text "Couldn't find rigid_rect " ++ mention id⟩]) := by
  have hstage : exec ev (onWorld get) m = (.ok (.ok m.store.world), m) := rfl
  rw [applyRead, exec_bind_ok hstage, hrect]
  exact (exec_bind_ok (exec_log _ _)).trans (exec_onHeap (nil_spec w))

/-- Arguments that are refused. -/
theorem exec_applyForceTo_refused {code : FailureCode}
    (h : m.store.heap.splitArguments args (.exactly 2) = .ok (.error ⟨args, code⟩)) :
    exec ev (applyForceTo args) m =
      (.ok (.error ⟨args, code⟩), answered m m.store.world.level []) :=
  exec_bind_error (exec_arguments_error h)

end Calls

/-- On every machine with the heap and the level a call has this outcome, leaves this level and adds
these messages to the log; nothing else changes. -/
def Runs (heap : Heap κ) (args : Handle) (level : Level) (outcome : Outcome) (level' : Level)
    (messages : List LogEntry) : Prop :=
  ∀ {σ ν : Type} (ev : Scope → Handle → Session κ (Stage σ) ν Outcome) (m : Machine κ (Stage σ) ν),
    m.store.heap = heap → m.store.world.level = level →
    exec ev (applyForceTo args) m = (.ok outcome, answered m level' messages)

/-- **What a call does**, whatever else the machine holds. -/
theorem applyForceTo_answers (w : heap.WellFormed) (hargs : heap.isLive args = true)
    (level : Level) : ∃ outcome level' messages, Answers heap args level outcome level' messages ∧
      Runs heap args level outcome level' messages := by
  obtain ⟨answer, hanswer, hlive⟩ := w.listItems_total hargs
  match answer, hanswer, hlive with
  | none, hnone, _ =>
    refine ⟨_, level, [], .type (fun items h => ?_) ?_, ?_⟩
    · cases hnone.symm.trans (listItems_eq_some_iff.mpr h)
    · rintro id force ⟨name, vec, h, -⟩
      cases hnone.symm.trans (listItems_eq_some_iff.mpr h)
    · rintro σ ν ev m rfl rfl
      exact exec_applyForceTo_refused (by rw [splitArguments, hnone]; rfl)
  | some [name, vec], hpair, hlive =>
    have hitems := listItems_eq_some_iff.mp hpair
    obtain ⟨c, -, hname⟩ := exists_inspect (hlive _ rfl name List.mem_cons_self)
    obtain ⟨found, hforce⟩ := w.forceOf_total
      (hlive _ rfl vec (List.mem_cons_of_mem _ List.mem_cons_self))
    have hrun : ∀ {σ ν : Type} (ev : Scope → Handle → Session κ (Stage σ) ν Outcome)
        (m : Machine κ (Stage σ) ν), m.store.heap = heap →
        exec ev (applyForceTo args) m = exec ev (applyRead args (heap.forceCall? args)) m := by
      rintro σ ν ev m rfl
      exact exec_applyForceTo hitems hname hforce
    cases hcall : heap.forceCall? args with
    | none =>
      refine ⟨_, level, [], .type (fun items h => ?_) (fun id force h => ?_), ?_⟩
      · cases hpair.symm.trans (listItems_eq_some_iff.mpr h)
        rfl
      · cases hcall.symm.trans (forceCall?_eq_some_iff.mpr h)
      · rintro σ ν ev m rfl rfl
        rw [hrun ev m rfl, hcall]
        rfl
    | some read =>
      obtain ⟨id, force⟩ := read
      have hright := forceCall?_eq_some_iff.mp hcall
      cases hrect : level.rect? id with
      | none =>
        refine ⟨_, _, _, .unknown hright hrect w.cell?_nil, ?_⟩
        rintro σ ν ev m rfl rfl
        rw [hrun ev m rfl, hcall, exec_applyRead_unknown w hrect]
      | some rect =>
        refine ⟨_, _, _, .applied hright hrect w.cell?_nil, ?_⟩
        rintro σ ν ev m rfl rfl
        rw [hrun ev m rfl, hcall, exec_applyRead_known w hrect]
  | some [], hitems, _ | some [_], hitems, _ | some (_ :: _ :: _ :: _), hitems, _ =>
    refine ⟨_, level, [], .arity (listItems_eq_some_iff.mp hitems) (by simp), ?_⟩
    rintro σ ν ev m rfl rfl
    exact exec_applyForceTo_refused (by rw [splitArguments, hitems]; rfl)

end LevelAction

end ConsoleLisp
