import ConsoleLisp.Proofs.Evaluation.Cycle

/-!
# The log is only written

Nothing that runs in a context looks at the log of the store, and nothing is ever taken from it. So
a run on a store with another log goes the same way, and adds the same messages (`Logs`).

Results:
* `Store.logs_of_inStep`: it is enough that a run stays in step with one that has older messages.
* `evaluateWith_continues`: evaluations do, by induction on the nesting.
* **`Context.execute_logs`**: so do whole cycles.
-/

namespace ConsoleLisp

variable {κ ω ν σ α : Type}

/-- The same store with another log. -/
def Store.withLog (log : List LogEntry) (s : Store κ ω ν) : Store κ ω ν := { s with log }

/-- The same machine with another log in its store. -/
def Machine.withLog (log : List LogEntry) (m : Machine κ ω ν) : Machine κ ω ν :=
  { m with store := m.store.withLog log }

/-- The action goes the same way with every log, and adds the same messages, the newest first. -/
def Logs (withLog : List LogEntry → σ → σ) (x : Act Fault σ α) : Prop :=
  ∀ s, ∃ result after messages, ∀ older,
    x (withLog older s) = (result, withLog (messages ++ older) after)

/-! ## Older messages -/

/-- The second store is the first one with older messages below its log. -/
def Store.Continues (older : List LogEntry) (s s' : Store κ ω ν) : Prop :=
  s' = s.withLog (s.log ++ older)

/-- The same of machines. -/
def Machine.Continues (older : List LogEntry) (m m' : Machine κ ω ν) : Prop :=
  m' = m.withLog (m.store.log ++ older)

/-- What is added is what a run adds to the empty log. -/
theorem Store.logs_of_inStep {x : StoreM κ ω ν α}
    (h : ∀ older, InStep (Store.Continues older) x x) : Logs Store.withLog x := by
  intro s
  refine ⟨(x (s.withLog [])).1, (x (s.withLog [])).2, (x (s.withLog [])).2.log, fun older => ?_⟩
  obtain ⟨hresult, hafter⟩ := h older (s.withLog []) (s.withLog older) rfl
  exact Prod.ext hresult.symm hafter

section Continues

variable {older : List LogEntry} {ev : Scope → Handle → Session κ ω ν Outcome}

theorem lockstep_continues (host : Host κ ω ν) (older : List LogEntry) :
    Lockstep host host (Machine.Continues older) where
  heap_eq h := h ▸ rfl
  steps_eq h := h ▸ rfl
  depth_eq h := h ▸ rfl
  note _ _ _ h := h ▸ rfl
  count _ _ h := h ▸ rfl

/-- A program cannot read the log. By induction on the program. -/
theorem Program.run_continues
    (hev : ∀ scope e, InStep (Machine.Continues older) (ev scope e) (ev scope e))
    (p : Program κ ω α) : InStep (Machine.Continues older) (p.run ev) (p.run ev) := by
  induction p with
  | done | fault => exact fun _ _ h => ⟨rfl, h⟩
  | heap action next ih | world action next ih =>
    rintro m _ rfl
    exact ih _ _ _ rfl
  | evaluate scope e next ih =>
    intro m m' h
    obtain ⟨hresult, hafter⟩ := hev scope e m m' h
    rw [Program.run_evaluate, Program.run_evaluate, hresult]
    exact ih _ _ _ hafter
  | steps next ih =>
    rintro m _ rfl
    exact ih _ _ _ rfl
  | log entry next ih =>
    rintro m _ rfl
    exact ih _ _ rfl

/-- **An evaluation only writes the log.** By induction on the nesting. -/
theorem evaluateWith_continues (host : Host κ ω ν) (limits : Limits) (fuel : Nat) (scope : Scope)
    (e : Handle) : InStep (Machine.Continues older) (evaluateWith host limits fuel scope e)
      (evaluateWith host limits fuel scope e) := by
  induction fuel generalizing scope e with
  | zero => exact fun _ _ h => ⟨rfl, h⟩
  | succ fuel ih =>
    rw [evaluateWith_succ]
    refine (lockstep_continues host older).evaluateStep ih (fun native scope args => ?_) scope e
    exact (lockstep_continues host older).callNative fun _ _ _ h =>
      Program.run_continues ih _ _ _ h

theorem abreast_continues (host : Host κ ω ν) (older : List LogEntry) :
    Abreast host host (Store.Continues older) where
  heap_eq h := h ▸ rfl
  heap _ h := h ▸ rfl
  note _ h := h ▸ rfl

end Continues

/-- **A cycle only writes the log.** -/
theorem Context.execute_logs (ctx : Context) (host : Host κ ω ν) (line : Text) :
    Logs Store.withLog (ctx.execute host line) := by
  refine Store.logs_of_inStep fun older => ?_
  refine (abreast_continues host older).execute ctx line fun e => ?_
  exact (abreast_continues host older).evaluate
    (evaluateWith_continues host ctx.limits ctx.limits.nesting ctx.scope e)
    (fun _ _ h => h ▸ rfl) (fun _ _ h => h ▸ rfl)

end ConsoleLisp
