import ConsoleLisp.Evaluation.Machine
import ConsoleLisp.Proofs.Action

/-!
# Running native procedures

Programs obey the laws of a monad, and running one program and then another is running their
sequence. `Procedure.exec` runs a procedure within a session.

Results:
* `Program.run_bind`: a run goes on from where its first part ends.
* **`exec_bind`**: a failure of the first part of a procedure is its result.
-/

namespace ConsoleLisp

variable {κ ω ν α β γ : Type}

namespace Program

theorem bind_done (p : Program κ ω α) : p.bind .done = p := by
  induction p with
  | done | fault => rfl
  | heap action next ih => exact congrArg (Program.heap action) (funext ih)
  | world action next ih => exact congrArg (Program.world action) (funext ih)
  | evaluate scope e next ih => exact congrArg (Program.evaluate scope e) (funext ih)
  | steps next ih => exact congrArg Program.steps (funext ih)
  | log entry next ih => exact congrArg (Program.log entry) ih

theorem bind_assoc (p : Program κ ω α) (f : α → Program κ ω β) (g : β → Program κ ω γ) :
    (p.bind f).bind g = p.bind fun a => (f a).bind g := by
  induction p with
  | done | fault => rfl
  | heap action next ih => exact congrArg (Program.heap action) (funext ih)
  | world action next ih => exact congrArg (Program.world action) (funext ih)
  | evaluate scope e next ih => exact congrArg (Program.evaluate scope e) (funext ih)
  | steps next ih => exact congrArg Program.steps (funext ih)
  | log entry next ih => exact congrArg (Program.log entry) ih

instance : LawfulMonad (Program κ ω) :=
  LawfulMonad.mk' _ bind_done (fun _ _ => rfl) bind_assoc

theorem run_evaluate (ev : Scope → Handle → Session κ ω ν Outcome) (scope : Scope) (e : Handle)
    (next : Except Fault Outcome → Program κ ω α) (m : Machine κ ω ν) :
    (evaluate scope e next).run ev m = (next (ev scope e m).1).run ev (ev scope e m).2 := rfl

/-- **A run goes on from where its first part ends.** -/
theorem run_bind (ev : Scope → Handle → Session κ ω ν Outcome) (p : Program κ ω α)
    (f : α → Program κ ω β) (m : Machine κ ω ν) :
    (p.bind f).run ev m = (p.run ev >>= fun a => (f a).run ev) m := by
  induction p generalizing m with
  | done | fault => rfl
  | heap action next ih =>
    rw [Act.run_bind]
    exact (ih _ _).trans (Act.run_bind _ _ _)
  | world action next ih =>
    rw [Act.run_bind]
    exact (ih _ _).trans (Act.run_bind _ _ _)
  | evaluate scope e next ih =>
    rw [Act.run_bind]
    exact (ih _ _).trans (Act.run_bind _ _ _)
  | steps next ih =>
    rw [Act.run_bind]
    exact (ih _ _).trans (Act.run_bind _ _ _)
  | log entry next ih =>
    rw [Act.run_bind]
    exact (ih _).trans (Act.run_bind _ _ _)

end Program

namespace Procedure

/-- Run a procedure within a session. -/
def exec (ev : Scope → Handle → Session κ ω ν Outcome) (p : Procedure κ ω α) :
    Session κ ω ν (Except Failure α) :=
  p.run.run ev

variable {ev : Scope → Handle → Session κ ω ν Outcome} {m m' : Machine κ ω ν}

theorem exec_pure (a : α) : exec ev (pure a) m = (.ok (.ok a), m) := rfl

theorem exec_fail (payload : Handle) (code : FailureCode) :
    exec ev (fail payload code : Procedure κ ω α) m = (.ok (.error ⟨payload, code⟩), m) := rfl

/-- **A failure of the first part of a procedure is its result.** -/
theorem exec_bind (p : Procedure κ ω α) (f : α → Procedure κ ω β) :
    exec ev (p >>= f) m = match exec ev p m with
      | (.ok (.ok a), m') => exec ev (f a) m'
      | (.ok (.error failure), m') => (.ok (.error failure), m')
      | (.error fault, m') => (.error fault, m') := by
  unfold exec
  refine (Program.run_bind ev p.run (ExceptT.bindCont f) m).trans ?_
  rw [Act.run_bind]
  rcases p.run.run ev m with ⟨_ | _ | _, _⟩ <;> rfl

theorem exec_bind_ok {p : Procedure κ ω α} {f : α → Procedure κ ω β} {a : α}
    (h : exec ev p m = (.ok (.ok a), m')) : exec ev (p >>= f) m = exec ev (f a) m' := by
  rw [exec_bind, h]

theorem exec_bind_error {p : Procedure κ ω α} {f : α → Procedure κ ω β} {failure : Failure}
    (h : exec ev p m = (.ok (.error failure), m')) :
    exec ev (p >>= f) m = (.ok (.error failure), m') := by
  rw [exec_bind, h]

theorem exec_onHeap {action : HeapM κ α} {a : α} {heap : Heap κ}
    (h : action m.store.heap = (.ok a, heap)) :
    exec ev (onHeap action) m =
      (.ok (.ok a), { m with store := { m.store with heap := heap } }) := by
  obtain ⟨⟨before, world, log, journal⟩, steps, depth⟩ := m
  show (fun r : Except Fault α × Heap κ =>
    ((Program.ofExcept r.1).bind fun a => .done (.ok a) : Program κ ω (Except Failure α)).run ev
      ⟨⟨r.2, world, log, journal⟩, steps, depth⟩) (action before) = _
  rw [h]
  rfl

/-- A fault of the heap ends a procedure. -/
theorem exec_onHeap_error {action : HeapM κ α} {fault : Fault} {heap : Heap κ}
    (h : action m.store.heap = (.error fault, heap)) :
    exec ev (onHeap action) m =
      (.error fault, { m with store := { m.store with heap := heap } }) := by
  obtain ⟨⟨before, world, log, journal⟩, steps, depth⟩ := m
  show (fun r : Except Fault α × Heap κ =>
    ((Program.ofExcept r.1).bind fun a => .done (.ok a) : Program κ ω (Except Failure α)).run ev
      ⟨⟨r.2, world, log, journal⟩, steps, depth⟩) (action before) = _
  rw [h]
  rfl

theorem exec_look {f : Heap κ → Except Fault α} {a : α} (h : f m.store.heap = .ok a) :
    exec ev (look f) m = (.ok (.ok a), m) :=
  exec_onHeap (by rw [Heap.view, h])

theorem exec_onWorld (action : StateM ω α) :
    exec ev (onWorld action) m = (.ok (.ok (action m.store.world).1),
      { m with store := { m.store with world := (action m.store.world).2 } }) :=
  rfl

theorem exec_log (level : LogLevel) (message : Text) :
    exec ev (log level message) m =
      (.ok (.ok ()), { m with store := { m.store with log := ⟨level, message⟩ :: m.store.log } }) :=
  rfl

/-- Arguments of the right number. -/
theorem exec_arguments {args : Handle} {arity : Arity} {items : List Handle}
    (h : m.store.heap.splitArguments args arity = .ok (.ok items)) :
    exec ev (arguments args arity : Procedure κ ω (List Handle)) m = (.ok (.ok items), m) := by
  rw [arguments, exec_bind_ok (exec_look h)]
  rfl

/-- An argument list that is refused. -/
theorem exec_arguments_error {args : Handle} {arity : Arity} {failure : Failure}
    (h : m.store.heap.splitArguments args arity = .ok (.error failure)) :
    exec ev (arguments args arity : Procedure κ ω (List Handle)) m =
      (.ok (.error failure), m) := by
  rw [arguments, exec_bind_ok (exec_look h)]
  rfl

/-- An evaluation within a procedure is one of the session. -/
theorem exec_evaluate (scope : Scope) (e : Handle) :
    exec ev (evaluate scope e) m = ev scope e m := by
  show (fun r : Except Fault Outcome × Machine κ ω ν =>
    (Program.ofExcept r.1 : Program κ ω Outcome).run ev r.2) (ev scope e m) = _
  rcases ev scope e m with ⟨_ | _, _⟩ <;> rfl

end Procedure

end ConsoleLisp
