import ConsoleLisp.Proofs.Evaluation.Conduct
import ConsoleLisp.Proofs.Evaluation.Cycle
import ConsoleLisp.Proofs.Evaluation.Parts

/-!
# Natives under observation

What a host observes is told by the evaluator. To compare it with what natives really do, a host can
be `monitored`: its natives run in a world of their own kind (`Monitored`), where each of them
writes down that it has begun, and how it has ended, with the heap and the world as they are at that
moment. Nothing else changes: a run without these sightings is the run on the host itself.

`Spans` is what a relation of machines needs in order to hold across all that the evaluator does by
itself; then it holds across an evaluation when it holds across calls.

Results:
* `callNative_monitored`: the call of a monitored native.
* **`Context.execute_unmonitored`**: a monitored cycle does what the cycle does.
* `watchedEvaluate_journaled`: what begins has been called, at a moment with the same heap.
* **`Spans.evaluateWith`**: relations that hold across evaluations.
-/

namespace ConsoleLisp

variable {κ ω ν α β : Type}

/-! ## Sightings -/

/-- What is seen of a native. -/
inductive Deed (κ : Type)
  /-- It begins to run on its unevaluated arguments. -/
  | begun (action : κ) (args : Handle)
  /-- It has ended with an outcome or a fault. -/
  | ended (action : κ) (args : Handle) (result : Except Fault Outcome)

/-- A deed, with the heap and the world at that moment. -/
structure Sighting (κ ω : Type) where
  deed : Deed κ
  heap : Heap κ
  world : ω

/-- A world and all that was seen of the natives, the newest in front. -/
structure Monitored (κ ω : Type) where
  world : ω
  sightings : List (Sighting κ ω)

namespace Program

/-- Write down a deed and go on. -/
def sight (deed : Deed κ) (next : Program κ (Monitored κ ω) α) : Program κ (Monitored κ ω) α :=
  .heap (Heap.view .ok) fun
    | .ok cells => .world (fun w =>
        ((), { w with sightings := ⟨deed, cells, w.world⟩ :: w.sightings })) fun _ => next
    | .error cause => .fault cause

/-- A program in a monitored world. -/
def lifted : Program κ ω α → Program κ (Monitored κ ω) α
  | .done result => .done result
  | .fault cause => .fault cause
  | .heap action next => .heap action fun answer => (next answer).lifted
  | .world action next =>
    .world (fun w => ((action w.world).1, { w with world := (action w.world).2 }))
      fun answer => (next answer).lifted
  | .evaluate scope e next => .evaluate scope e fun answer => (next answer).lifted
  | .steps next => .steps fun count => (next count).lifted
  | .log entry next => .log entry next.lifted

/-- Write down how a program ends. -/
def signed (deed : Except Fault α → Deed κ) :
    Program κ (Monitored κ ω) α → Program κ (Monitored κ ω) α
  | .done result => sight (deed (.ok result)) (.done result)
  | .fault cause => sight (deed (.error cause)) (.fault cause)
  | .heap action next => .heap action fun answer => (next answer).signed deed
  | .world action next => .world action fun answer => (next answer).signed deed
  | .evaluate scope e next => .evaluate scope e fun answer => (next answer).signed deed
  | .steps next => .steps fun count => (next count).signed deed
  | .log entry next => .log entry (next.signed deed)

end Program

/-- The host whose natives are seen when they begin and end. -/
def Host.monitored (host : Host κ ω ν) : Host κ (Monitored κ ω) ν where
  procedure action scope args := ExceptT.mk <|
    .sight (.begun action args) <|
      (host.procedure action scope args).run.lifted.signed (.ended action args)
  observe := host.observe

/-- A store under observation, of which nothing was seen yet. -/
def Store.monitored (s : Store κ ω ν) : Store κ (Monitored κ ω) ν :=
  ⟨s.heap, ⟨s.world, []⟩, s.log, s.journal⟩

/-- A store without the sightings. -/
def Store.unmonitored (s : Store κ (Monitored κ ω) ν) : Store κ ω ν :=
  ⟨s.heap, s.world.world, s.log, s.journal⟩

/-- What was seen by then, in order. -/
def Store.seen (s : Store κ (Monitored κ ω) ν) : List (Sighting κ ω) := s.world.sightings.reverse

/-- A machine without the sightings. -/
def Machine.unmonitored (m : Machine κ (Monitored κ ω) ν) : Machine κ ω ν :=
  ⟨m.store.unmonitored, m.steps, m.depth⟩

/-- A deed is written down. -/
def Machine.sighted (m : Machine κ (Monitored κ ω) ν) (deed : Deed κ) :
    Machine κ (Monitored κ ω) ν :=
  { m with store := { m.store with world := { m.store.world with
      sightings := ⟨deed, m.store.heap, m.store.world.world⟩ :: m.store.world.sightings } } }

/-! ## Monitored natives -/

section Natives

variable {ev : Scope → Handle → Session κ (Monitored κ ω) ν Outcome}

/-- The end of a program is written down when it has ended. -/
theorem Program.run_signed (deed : Except Fault α → Deed κ) (p : Program κ (Monitored κ ω) α)
    (m : Machine κ (Monitored κ ω) ν) : (p.signed deed).run ev m =
      ((p.run ev m).1, (p.run ev m).2.sighted (deed (p.run ev m).1)) := by
  induction p generalizing m with
  | done | fault => rfl
  | heap action next ih => exact ih _ _
  | world action next ih => exact ih _ _
  | evaluate scope e next ih => exact ih _ _
  | steps next ih => exact ih _ _
  | log entry next ih => exact ih _

/-- The machine where a monitored native begins. -/
def Machine.calling (host : Host κ ω ν) (native : Native κ) (args : Handle)
    (m : Machine κ (Monitored κ ω) ν) : Machine κ (Monitored κ ω) ν :=
  (m.calls host.monitored native args).sighted (.begun native.action args)

/-- The call of a monitored native, and what is written down and noted of it. -/
theorem callNative_monitored {host : Host κ ω ν} {native : Native κ} {scope : Scope} {args : Handle}
    {m m' : Machine κ (Monitored κ ω) ν} {result : Except Fault Outcome}
    (h : (host.procedure native.action scope args).run.lifted.run ev (m.calling host native args) =
      (result, m')) :
    callNative host.monitored ev native scope args m =
      (result, match result with
        | .ok outcome => { m'.sighted (.ended native.action args result) with
            store := (m'.sighted (.ended native.action args result)).store.note host.monitored
              (.return native.name outcome) }
        | .error _ => m'.sighted (.ended native.action args result)) := by
  have hbody : (host.monitored.procedure native.action scope args).run.run ev
      (m.calls host.monitored native args) =
        (result, m'.sighted (.ended native.action args result)) := by
    have hsigned : (host.monitored.procedure native.action scope args).run.run ev
        (m.calls host.monitored native args) = _ :=
      Program.run_signed (.ended native.action args)
        (host.procedure native.action scope args).run.lifted (m.calling host native args)
    rw [h] at hsigned
    exact hsigned
  rw [run_callNative]
  cases result with
  | error fault => exact Act.run_bind_error hbody
  | ok outcome => exact (Act.run_bind_ok hbody).trans rfl

end Natives

/-! ## A monitored run without its sightings -/

section Unmonitored

/-- What does the same as an action, with sightings. -/
abbrev Unmonitors (x : StoreM κ ω ν α) (y : StoreM κ (Monitored κ ω) ν α) : Prop :=
  InStep (fun s t => s = t.unmonitored) x y

theorem lockstep_unmonitored (host : Host κ ω ν) :
    Lockstep host host.monitored fun m m' => m = m'.unmonitored where
  heap_eq h := h ▸ rfl
  steps_eq h := h ▸ rfl
  depth_eq h := h ▸ rfl
  note _ _ _ h := h ▸ rfl
  count _ _ h := h ▸ rfl

variable {ν' : Type} {S : Machine κ ω ν → Machine κ (Monitored κ ω) ν' → Prop}
  {ev : Scope → Handle → Session κ ω ν Outcome}
  {mev : Scope → Handle → Session κ (Monitored κ ω) ν' Outcome}

/-- Machines that are related look alike to a program, and stay related under what it does. -/
structure Lifts (S : Machine κ ω ν → Machine κ (Monitored κ ω) ν' → Prop) : Prop where
  heap_eq {m : Machine κ ω ν} {m' : Machine κ (Monitored κ ω) ν'} : S m m' →
    m.store.heap = m'.store.heap
  world_eq {m : Machine κ ω ν} {m' : Machine κ (Monitored κ ω) ν'} : S m m' →
    m.store.world = m'.store.world.world
  steps_eq {m : Machine κ ω ν} {m' : Machine κ (Monitored κ ω) ν'} : S m m' → m.steps = m'.steps
  heap {m : Machine κ ω ν} {m' : Machine κ (Monitored κ ω) ν'} (heap : Heap κ) : S m m' →
    S { m with store := { m.store with heap := heap } }
      { m' with store := { m'.store with heap := heap } }
  world {m : Machine κ ω ν} {m' : Machine κ (Monitored κ ω) ν'} (world : ω) : S m m' →
    S { m with store := { m.store with world := world } }
      { m' with store := { m'.store with world := { m'.store.world with world := world } } }
  log {m : Machine κ ω ν} {m' : Machine κ (Monitored κ ω) ν'} (entry : LogEntry) : S m m' →
    S { m with store := { m.store with log := entry :: m.store.log } }
      { m' with store := { m'.store with log := entry :: m'.store.log } }

/-- A program does the same in a monitored world. -/
theorem Lifts.run (l : Lifts S) {evaluates : Prop} {p : Program κ ω α}
    (hp : p.Within evaluates True)
    (hev : evaluates → ∀ scope e, InStep S (ev scope e) (mev scope e)) :
    InStep S (p.run ev) (p.lifted.run mev) := by
  induction p with
  | done | fault => exact fun _ _ h => ⟨rfl, h⟩
  | heap action next ih =>
    rintro ⟨⟨heap, world, log, journal⟩, steps, depth⟩ ⟨⟨_, world', log', journal'⟩, _, _⟩ h
    cases l.heap_eq h
    exact ih _ (hp _) _ _ (l.heap (action heap).2 h)
  | world action next ih =>
    rintro ⟨⟨heap, world, log, journal⟩, steps, depth⟩ ⟨⟨_, ⟨_, seen⟩, log', journal'⟩, _, _⟩ h
    cases l.world_eq h
    exact ih _ (hp.2 _) _ _ (l.world (action world).2 h)
  | evaluate scope e next ih =>
    intro m m' h
    obtain ⟨hresult, hafter⟩ := hev hp.1 scope e m m' h
    rw [Program.run_evaluate, hresult]
    exact ih (mev scope e m').1 (hp.2 _) _ _ hafter
  | steps next ih =>
    rintro ⟨store, steps, depth⟩ ⟨store', _, depth'⟩ h
    cases l.steps_eq h
    exact ih steps (hp steps) _ _ h
  | log entry next ih => exact fun m m' h => ih hp _ _ (l.log entry h)

theorem lifts_unmonitored :
    Lifts fun (m : Machine κ ω ν) (m' : Machine κ (Monitored κ ω) ν) => m = m'.unmonitored where
  heap_eq h := h ▸ rfl
  world_eq h := h ▸ rfl
  steps_eq h := h ▸ rfl
  heap _ h := h ▸ rfl
  world _ h := h ▸ rfl
  log _ h := h ▸ rfl

/-- A monitored native does what the native does, when its sightings leave related machines so. -/
theorem Lifts.monitored (l : Lifts S) (host : Host κ ω ν') {action : κ} {scope : Scope}
    {args : Handle} {m : Machine κ ω ν} {m' : Machine κ (Monitored κ ω) ν'}
    (hev : ∀ scope e, InStep S (ev scope e) (mev scope e))
    (hbegun : S m (m'.sighted (.begun action args)))
    (hended : ∀ n n' result, S n n' → S n (n'.sighted (.ended action args result))) :
    ((host.procedure action scope args).run.run ev m).1 =
        ((host.monitored.procedure action scope args).run.run mev m').1 ∧
      S ((host.procedure action scope args).run.run ev m).2
        ((host.monitored.procedure action scope args).run.run mev m').2 := by
  obtain ⟨hresult, hafter⟩ := l.run (host.procedure action scope args).run.within_true
    (fun _ => hev) m (m'.sighted (.begun action args)) hbegun
  have hrun : (host.monitored.procedure action scope args).run.run mev m' = _ :=
    Program.run_signed (.ended action args) (host.procedure action scope args).run.lifted
      (m'.sighted (.begun action args))
  rw [hrun]
  exact ⟨hresult, hended _ _ _ hafter⟩

/-- By induction on the nesting. -/
theorem evaluateWith_unmonitored (host : Host κ ω ν) (limits : Limits) (fuel : Nat) (scope : Scope)
    (e : Handle) : InStep (fun m m' => m = m'.unmonitored) (evaluateWith host limits fuel scope e)
      (evaluateWith host.monitored limits fuel scope e) := by
  induction fuel generalizing scope e with
  | zero => exact fun _ _ h => ⟨rfl, h⟩
  | succ fuel ih =>
    rw [evaluateWith_succ, evaluateWith_succ]
    refine (lockstep_unmonitored host).evaluateStep ih (fun native scope args => ?_) scope e
    refine (lockstep_unmonitored host).callNative fun m m' _ h => ?_
    exact lifts_unmonitored.monitored host ih h fun _ _ _ h => h

theorem abreast_unmonitored (host : Host κ ω ν) :
    Abreast host host.monitored fun s s' => s = s'.unmonitored where
  heap_eq h := h ▸ rfl
  heap _ h := h ▸ rfl
  note _ h := h ▸ rfl

/-- **A monitored cycle does what the cycle does.** -/
theorem Context.execute_unmonitored (ctx : Context) (host : Host κ ω ν) (line : Text) :
    Unmonitors (ctx.execute host line) (ctx.execute host.monitored line) := by
  refine (abreast_unmonitored host).execute ctx line fun e => ?_
  exact (abreast_unmonitored host).evaluate
    (evaluateWith_unmonitored host ctx.limits ctx.limits.nesting ctx.scope e)
    (fun _ _ h => h ▸ rfl) (fun _ _ h => h ▸ rfl)

end Unmonitored

/-! ## A monitored run beside the watched one -/

section Journaled

/-- A monitored machine beside a watched one: what begins there is called here, at a moment with the
same heap. -/
structure Journaled (w : Machine κ ω (Moment κ)) (m : Machine κ (Monitored κ ω) ν) : Prop where
  heap_eq : w.store.heap = m.store.heap
  world_eq : w.store.world = m.store.world.world
  steps_eq : w.steps = m.steps
  depth_eq : w.depth = m.depth
  called : ∀ s ∈ m.store.world.sightings, ∀ action args, s.deed = .begun action args →
    ∃ name, .noted (.call name args) s.heap ∈ w.store.journal

theorem lockstep_journaled (host : Host κ ω ν) :
    Lockstep host.watching host.monitored (Journaled : _ → Machine κ (Monitored κ ω) ν → Prop) where
  heap_eq h := h.heap_eq
  steps_eq h := h.steps_eq
  depth_eq h := h.depth_eq
  note event steps depth h := by
    refine ⟨h.heap_eq, h.world_eq, rfl, rfl, fun s hs action args hdeed => ?_⟩
    obtain ⟨name, hname⟩ := h.called s hs action args hdeed
    exact ⟨name, List.mem_cons_of_mem _ hname⟩
  count _ _ h := ⟨h.heap_eq, h.world_eq, rfl, rfl, h.called⟩

theorem lifts_journaled :
    Lifts (Journaled : Machine κ ω (Moment κ) → Machine κ (Monitored κ ω) ν → Prop) where
  heap_eq h := h.heap_eq
  world_eq h := h.world_eq
  steps_eq h := h.steps_eq
  heap _ h := ⟨rfl, h.world_eq, h.steps_eq, h.depth_eq, h.called⟩
  world _ h := ⟨h.heap_eq, rfl, h.steps_eq, h.depth_eq, h.called⟩
  log _ h := ⟨h.heap_eq, h.world_eq, h.steps_eq, h.depth_eq, h.called⟩

namespace Journaled

variable {w : Machine κ ω (Moment κ)} {m : Machine κ (Monitored κ ω) ν}

/-- The watched run records a moment. -/
theorem record (h : Journaled w m) (moment : Moment κ) : Journaled (w.record moment) m := by
  refine ⟨h.heap_eq, h.world_eq, h.steps_eq, h.depth_eq, fun s hs action args hdeed => ?_⟩
  obtain ⟨name, hname⟩ := h.called s hs action args hdeed
  exact ⟨name, List.mem_cons_of_mem _ hname⟩

/-- What has been called begins. -/
theorem begun {host : Host κ ω ν} {native : Native κ} {args : Handle}
    (h : Journaled (w.calls host.watching native args) (m.calls host.monitored native args)) :
    Journaled (w.calls host.watching native args) (m.calling host native args) := by
  refine ⟨h.heap_eq, h.world_eq, h.steps_eq, h.depth_eq, fun s hs action args' hdeed => ?_⟩
  rcases List.mem_cons.mp hs with rfl | hs
  · cases hdeed
    have hheap : w.store.heap = m.store.heap := h.heap_eq
    refine ⟨native.name, ?_⟩
    show _ ∈ .noted (.call native.name args) w.store.heap :: w.store.journal
    rw [hheap]
    exact List.mem_cons_self
  · exact h.called s hs action args' hdeed

/-- The end of a native is no call. -/
theorem ended (h : Journaled w m) (action : κ) (args : Handle) (result : Except Fault Outcome) :
    Journaled w (m.sighted (.ended action args result)) := by
  refine ⟨h.heap_eq, h.world_eq, h.steps_eq, h.depth_eq, fun s hs action args' hdeed => ?_⟩
  rcases List.mem_cons.mp hs with rfl | hs
  · cases hdeed
  · exact h.called s hs action args' hdeed

/-- Watching an evaluation changes nothing. -/
theorem watch {x : Session κ ω (Moment κ) Outcome} {y : Session κ (Monitored κ ω) ν Outcome}
    (h : InStep Journaled x y) (e : Handle) : InStep Journaled (ConsoleLisp.watch e x) y := by
  intro w m hw
  obtain ⟨hresult, hafter⟩ := h (w.enter e) m (hw.record _)
  exact ⟨hresult, hafter.record _⟩

end Journaled

/-- **The watched evaluator beside the monitored one.** By induction on the nesting. -/
theorem watchedEvaluate_journaled (host : Host κ ω ν) (limits : Limits) (fuel : Nat) (scope : Scope)
    (e : Handle) : InStep Journaled (watchedEvaluate host limits fuel scope e)
      (evaluateWith host.monitored limits fuel scope e) := by
  induction fuel generalizing scope e with
  | zero => exact fun w m h => ⟨rfl, (h.record _).record _⟩
  | succ fuel ih =>
    rw [evaluateWith_succ]
    refine Journaled.watch ((lockstep_journaled host).evaluateStep ih (fun native scope args => ?_)
      scope e) e
    refine (lockstep_journaled host).callNative fun w m _ h => ?_
    exact lifts_journaled.monitored host ih h.begun fun _ _ result h => h.ended _ _ result

end Journaled

/-! ## Relations across an evaluation -/

/-- The relation holds across all that the evaluator does by itself. -/
structure Spans (host : Host κ ω ν) (R : Machine κ ω ν → Machine κ ω ν → Prop) : Prop where
  refl (m : Machine κ ω ν) : R m m
  trans {m m' m'' : Machine κ ω ν} : R m m' → R m' m'' → R m m''
  /-- An application is counted or refused. -/
  application (m : Machine κ ω ν) (form : Handle) (enclosing : Nat) (admission : Admission)
    (steps depth : Nat) :
    R m ⟨m.store.note host (.application form enclosing admission), steps, depth⟩
  /-- An application is left. -/
  lowered (m : Machine κ ω ν) (depth : Nat) : R m { m with depth := depth }

namespace Spans

variable {host : Host κ ω ν} {limits : Limits} {R : Machine κ ω ν → Machine κ ω ν → Prop}
  {ev : Scope → Handle → Session κ ω ν Outcome}

theorem bind (s : Spans host R) {x : Session κ ω ν α} {f : α → Session κ ω ν β}
    (hx : Across R x) (hf : ∀ a, Across R (f a)) : Across R (x >>= f) :=
  Across.bind s.refl s.trans hx hf

theorem look (s : Spans host R) (f : Heap κ → Except Fault α) :
    Across R (Session.look f : Session κ ω ν α) := s.refl

section Step

variable (s : Spans host R) (hev : ∀ scope e, Across R (ev scope e))
  (hcall : ∀ native scope args, Across R (callNative host ev native scope args))
include s hev hcall

theorem applyForm (scope : Scope) (head args : Handle) :
    Across R (applyForm host ev scope head args) := by
  rw [applyForm_eq]
  refine s.bind (s.bind (s.look _) fun kind => ?_) fun operator => ?_
  · cases kind with
    | symbol | pair => exact hev scope head
    | nil | number | string | native => exact s.refl
  · cases operator with
    | error failure => exact s.refl
    | ok operator =>
      refine s.bind (s.look _) fun cell => ?_
      cases cell with
      | native native => exact hcall native scope args
      | nil | number | symbol | string | pair => exact s.refl

theorem dispatch (scope : Scope) (form head args : Handle) :
    Across R (dispatch host limits ev scope form head args) := by
  intro m
  cases hd : limits.depth.any (· ≤ m.depth) with
  | true =>
    rw [dispatch_of_tooDeep hd]
    exact s.application m form m.depth .tooDeep m.steps m.depth
  | false =>
    cases hs : limits.steps.any (· < m.steps + 1) with
    | true =>
      rw [dispatch_of_overBudget hd hs]
      exact s.application m form m.depth .overBudget (m.steps + 1) m.depth
    | false =>
      rw [dispatch_of_admitted hd hs rfl]
      have hentered := s.application m form m.depth .admitted (m.steps + 1) (m.depth + 1)
      exact s.trans (s.trans hentered (s.applyForm hev hcall scope head args _)) (s.lowered _ _)

theorem evaluateStep (scope : Scope) (e : Handle) :
    Across R (evaluateStep host limits ev scope e) := by
  refine s.bind (s.look _) fun cell => ?_
  cases cell with
  | pair head args => exact s.dispatch hev hcall scope e head args
  | nil | number | string | native => exact s.refl
  | symbol name =>
    refine s.bind (s.look _) fun value => ?_
    cases value <;> exact s.refl

end Step

/-- **A relation that holds across calls holds across evaluations.** By induction on the nesting. -/
theorem evaluateWith (s : Spans host R)
    (hcall : ∀ ev, (∀ scope e, Across R (ev scope e)) → ∀ native scope args,
      Across R (callNative host ev native scope args))
    (limits : Limits) (fuel : Nat) (scope : Scope) (e : Handle) :
    Across R (evaluateWith host limits fuel scope e) := by
  induction fuel generalizing scope e with
  | zero => exact s.refl
  | succ fuel ih =>
    rw [evaluateWith_succ]
    exact s.evaluateStep ih (hcall _ ih) scope e

end Spans

end ConsoleLisp
