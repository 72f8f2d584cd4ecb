import ConsoleLisp.Proofs.Evaluation.Lockstep

/-!
# The history of a session

`watchedEvaluate` is the evaluator with a journal of `Moment`s: where an evaluation begins and ends,
with the steps counted by then, and in between the events that a host can observe. It is made from
the same parts as the evaluator, and leaving the moments out gives the evaluator back: a run on any
host is what its watched run shows (`Machine.shown`), journal included.

Results:
* `lockstep_shown`, `run_mirrors`: the watched parts of an evaluation, beside the others.
* **`evaluateWith_mirrors`**: a run of the evaluator is what the watched run shows.
-/

namespace ConsoleLisp

variable {κ ω ν α β : Type}

/-- A moment of a session. -/
inductive Moment (κ : Type)
  /-- The evaluation of an expression begins, with the heap as it is; so many steps are counted. -/
  | enters (e : Handle) (heap : Heap κ) (steps : Nat)
  /-- An event, with the heap as it is at that moment. -/
  | noted (event : Event) (heap : Heap κ)
  /-- The evaluation of an expression has ended, perhaps with a fault; so many steps are counted. -/
  | leaves (e : Handle) (result : Except Fault Outcome) (steps : Nat)

/-- The host that notes every event as it is. -/
def Host.watching (host : Host κ ω ν) : Host κ ω (Moment κ) :=
  ⟨host.procedure, fun event heap => [.noted event heap]⟩

/-- What a host notes of a moment. -/
def Moment.shown (host : Host κ ω ν) : Moment κ → List ν
  | .noted event heap => host.observe event heap
  | _ => []

/-- A watched store as the host sees it, with the entries `past` that its journal had before. -/
def Store.shown (host : Host κ ω ν) (past : List ν) (s : Store κ ω (Moment κ)) : Store κ ω ν :=
  ⟨s.heap, s.world, s.log, s.journal.flatMap (Moment.shown host) ++ past⟩

/-- A watched machine as the host sees it. -/
def Machine.shown (host : Host κ ω ν) (past : List ν) (w : Machine κ ω (Moment κ)) :
    Machine κ ω ν :=
  ⟨w.store.shown host past, w.steps, w.depth⟩

theorem Store.shown_note (host : Host κ ω ν) (past : List ν) (event : Event)
    (s : Store κ ω (Moment κ)) :
    (s.note host.watching event).shown host past = (s.shown host past).note host event :=
  congrArg (Store.mk s.heap s.world s.log) (List.append_assoc ..)

/-- Add a moment to the journal. -/
def Machine.record (w : Machine κ ω (Moment κ)) (moment : Moment κ) : Machine κ ω (Moment κ) :=
  { w with store := { w.store with journal := moment :: w.store.journal } }

/-- Record where an evaluation begins. -/
def Machine.enter (w : Machine κ ω (Moment κ)) (e : Handle) : Machine κ ω (Moment κ) :=
  w.record (.enters e w.store.heap w.steps)

/-- Record where an evaluation ends. -/
def Machine.leave (w : Machine κ ω (Moment κ)) (e : Handle) (result : Except Fault Outcome) :
    Machine κ ω (Moment κ) :=
  w.record (.leaves e result w.steps)

/-! ## The watched evaluator -/

/-- Record where an evaluation begins and ends. -/
def watch (e : Handle) (evaluation : Session κ ω (Moment κ) Outcome) :
    Session κ ω (Moment κ) Outcome := fun w =>
  let (result, w) := evaluation (w.enter e)
  (result, w.leave e result)

/-- The evaluator with a journal of all moments. -/
def watchedEvaluate (host : Host κ ω ν) (limits : Limits) :
    Nat → Scope → Handle → Session κ ω (Moment κ) Outcome
  | 0, _, e => watch e (throw .stackExhausted)
  | fuel + 1, scope, e =>
    watch e (evaluateStep host.watching limits (watchedEvaluate host limits fuel) scope e)

/-! ## Leaving the moments out -/

/-- The run of the first action is what that of the second shows. -/
def Mirrors (host : Host κ ω ν) (past : List ν) (x : Session κ ω ν α)
    (y : Session κ ω (Moment κ) α) : Prop :=
  ∀ w, x (w.shown host past) = ((y w).1, (y w).2.shown host past)

section Mirrors

variable {host : Host κ ω ν} {past : List ν} {limits : Limits}
  {ev : Scope → Handle → Session κ ω ν Outcome}
  {wev : Scope → Handle → Session κ ω (Moment κ) Outcome}

theorem mirrors_iff {x : Session κ ω ν α} {y : Session κ ω (Moment κ) α} :
    Mirrors host past x y ↔ InStep (fun m w => m = w.shown host past) x y := by
  constructor
  · rintro h _ w rfl
    rw [h w]
    exact ⟨rfl, rfl⟩
  · intro h w
    obtain ⟨hresult, hafter⟩ := h _ w rfl
    exact Prod.ext hresult hafter

/-- An event is shown as the host notes it. -/
theorem lockstep_shown (host : Host κ ω ν) (past : List ν) :
    Lockstep host host.watching fun m w => m = w.shown host past where
  heap_eq h := h ▸ rfl
  steps_eq h := h ▸ rfl
  depth_eq h := h ▸ rfl
  note event steps depth h := by
    subst h
    exact congrArg (Machine.mk · steps depth) (Store.shown_note host past event _).symm
  count steps depth h := by
    subst h
    rfl

/-- A program runs alike, whatever it does, when the evaluations it asks for do. -/
theorem run_mirrors (hev : ∀ scope e, Mirrors host past (ev scope e) (wev scope e))
    (p : Program κ ω α) : Mirrors host past (p.run ev) (p.run wev) := by
  induction p with
  | done | fault => exact fun _ => rfl
  | heap action next ih => exact fun w => ih _ ⟨{ w.store with heap := _ }, w.steps, w.depth⟩
  | world action next ih => exact fun w => ih _ ⟨{ w.store with world := _ }, w.steps, w.depth⟩
  | evaluate scope e next ih =>
    intro w
    rw [Program.run_evaluate, hev scope e w]
    exact ih _ _
  | steps next ih => exact fun w => ih _ w
  | log entry next ih => exact fun w => ih ⟨{ w.store with log := _ }, w.steps, w.depth⟩

theorem evaluateStep_mirrors (hev : ∀ scope e, Mirrors host past (ev scope e) (wev scope e))
    (scope : Scope) (e : Handle) :
    Mirrors host past (evaluateStep host limits ev scope e)
      (evaluateStep host.watching limits wev scope e) :=
  mirrors_iff.mpr <| (lockstep_shown host past).evaluateStep
    (fun scope e => mirrors_iff.mp (hev scope e))
    (fun native scope args => (lockstep_shown host past).callNative fun _ _ _ h =>
      mirrors_iff.mp (run_mirrors hev (host.procedure native.action scope args).run) _ _ h) scope e

/-- Watching an evaluation shows nothing more. -/
theorem Mirrors.watch {x : Session κ ω ν Outcome} {y : Session κ ω (Moment κ) Outcome}
    (h : Mirrors host past x y) (e : Handle) : Mirrors host past x (watch e y) :=
  fun w => h (w.enter e)

end Mirrors

/-- **A run of the evaluator is what the watched run shows.** By induction on the nesting. -/
theorem evaluateWith_mirrors (host : Host κ ω ν) (past : List ν) (limits : Limits) (fuel : Nat)
    (scope : Scope) (e : Handle) :
    Mirrors host past (evaluateWith host limits fuel scope e)
      (watchedEvaluate host limits fuel scope e) := by
  induction fuel generalizing scope e with
  | zero => exact fun _ => rfl
  | succ fuel ih =>
    rw [evaluateWith_succ]
    exact (evaluateStep_mirrors ih scope e).watch e

end ConsoleLisp
