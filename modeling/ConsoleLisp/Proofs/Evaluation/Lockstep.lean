import ConsoleLisp.Proofs.Evaluation.Dispatch

/-!
# Two evaluations in step

The evaluator looks at the heap and at the counters of a machine and notes events; all else is done
by natives. So two machines that look alike to it go through the same evaluation, whatever they keep
apart from that, as long as calls keep them in step (`InStep`) when the evaluators below them do.

Results:
* `InStep.bind`: sequences keep in step when their parts do.
* `Lockstep.callNative`, `Lockstep.applyForm`, `Lockstep.dispatch`: the parts of an evaluation.
* **`Lockstep.evaluateStep`**: so does a level of the evaluator when the levels below do.
-/

namespace ConsoleLisp

variable {κ ω ν ω' ν' σ τ α β : Type}

/-- One level of the evaluator, with `evaluate` for the levels below. -/
def evaluateStep (host : Host κ ω ν) (limits : Limits)
    (evaluate : Scope → Handle → Session κ ω ν Outcome) (scope : Scope) (e : Handle) :
    Session κ ω ν Outcome := do
  match ← Session.look (·.inspect e) with
  | .symbol name =>
    match ← Session.look (·.lookupName scope name) with
    | some value => return .ok value
    | none => return .error ⟨e, .unboundSymbol⟩
  | .pair head args => dispatch host limits evaluate scope e head args
  | _ => return .ok e

theorem evaluateWith_succ (host : Host κ ω ν) (limits : Limits) (fuel : Nat) :
    evaluateWith host limits (fuel + 1) =
      evaluateStep host limits (evaluateWith host limits fuel) := rfl

variable {host : Host κ ω ν} {host' : Host κ ω' ν'} {limits : Limits}
  {S : Machine κ ω ν → Machine κ ω' ν' → Prop}
  {ev : Scope → Handle → Session κ ω ν Outcome} {ev' : Scope → Handle → Session κ ω' ν' Outcome}

/-- The actions give the same result, and states that are related stay so. -/
def InStep (S : σ → τ → Prop) (x : Act Fault σ α) (y : Act Fault τ α) : Prop :=
  ∀ s t, S s t → (x s).1 = (y t).1 ∧ S (x s).2 (y t).2

/-- A call is noted. -/
def Machine.calls (host : Host κ ω ν) (native : Native κ) (args : Handle) (m : Machine κ ω ν) :
    Machine κ ω ν :=
  { m with store := m.store.note host (.call native.name args) }

theorem run_callNative (native : Native κ) (scope : Scope) (args : Handle) (m : Machine κ ω ν) :
    callNative host ev native scope args m =
      ((host.procedure native.action scope args).run.run ev >>= fun outcome => do
        Session.note host (.return native.name outcome)
        return outcome) (m.calls host native args) :=
  Act.run_bind_ok (Session.run_note _ _)

/-- Machines that are related look alike to the evaluator, and stay related when it notes an event
or counts an application. -/
structure Lockstep (host : Host κ ω ν) (host' : Host κ ω' ν')
    (S : Machine κ ω ν → Machine κ ω' ν' → Prop) : Prop where
  heap_eq {m : Machine κ ω ν} {m' : Machine κ ω' ν'} : S m m' → m.store.heap = m'.store.heap
  steps_eq {m : Machine κ ω ν} {m' : Machine κ ω' ν'} : S m m' → m.steps = m'.steps
  depth_eq {m : Machine κ ω ν} {m' : Machine κ ω' ν'} : S m m' → m.depth = m'.depth
  note {m : Machine κ ω ν} {m' : Machine κ ω' ν'} (event : Event) (steps depth : Nat) : S m m' →
    S ⟨m.store.note host event, steps, depth⟩ ⟨m'.store.note host' event, steps, depth⟩
  count {m : Machine κ ω ν} {m' : Machine κ ω' ν'} (steps depth : Nat) : S m m' →
    S ⟨m.store, steps, depth⟩ ⟨m'.store, steps, depth⟩

namespace InStep

variable {S : σ → τ → Prop}

theorem pure (a : α) : InStep S (pure a) (pure a) := fun _ _ h => ⟨rfl, h⟩

/-- Sequences keep in step from where their first parts do. -/
theorem bind_from {x : Act Fault σ α} {y : Act Fault τ α} {f : α → Act Fault σ β}
    {g : α → Act Fault τ β} {s : σ} {t : τ} (h : (x s).1 = (y t).1 ∧ S (x s).2 (y t).2)
    (hf : ∀ a, InStep S (f a) (g a)) :
    ((x >>= f) s).1 = ((y >>= g) t).1 ∧ S ((x >>= f) s).2 ((y >>= g) t).2 := by
  obtain ⟨hresult, hafter⟩ := h
  rw [Act.run_bind, Act.run_bind]
  rcases hx : x s with ⟨result, s'⟩
  rcases hy : y t with ⟨_, t'⟩
  rw [hx, hy] at hresult hafter
  cases hresult
  cases result with
  | error fault => exact ⟨rfl, hafter⟩
  | ok a => exact hf a s' t' hafter

theorem bind {x : Act Fault σ α} {y : Act Fault τ α} {f : α → Act Fault σ β}
    {g : α → Act Fault τ β} (h : InStep S x y) (hf : ∀ a, InStep S (f a) (g a)) :
    InStep S (x >>= f) (y >>= g) := fun s t hst => bind_from (h s t hst) hf

end InStep

namespace Lockstep

variable (l : Lockstep host host' S)
include l

theorem look (f : Heap κ → Except Fault α) : InStep S (Session.look f) (Session.look f) :=
  fun _ _ h => ⟨congrArg f (l.heap_eq h), h⟩

theorem noted (event : Event) : InStep S (Session.note host event) (Session.note host' event) := by
  rintro ⟨store, steps, depth⟩ ⟨store', _, _⟩ h
  cases l.steps_eq h
  cases l.depth_eq h
  exact ⟨rfl, l.note event steps depth h⟩

/-- The runs leave an application. -/
theorem lowered {m : Machine κ ω ν} {m' : Machine κ ω' ν'} (h : S m m') :
    S { m with depth := m.depth - 1 } { m' with depth := m'.depth - 1 } := by
  have hafter := l.count m.steps (m.depth - 1) h
  rcases m' with ⟨store', _, _⟩
  cases l.steps_eq h
  cases l.depth_eq h
  exact hafter

/-- A call keeps in step when what the native does keeps in step from where the call is noted. -/
theorem callNative {native : Native κ} {scope : Scope} {args : Handle} (h : ∀ m m',
    S m m' → S (m.calls host native args) (m'.calls host' native args) →
      ((host.procedure native.action scope args).run.run ev (m.calls host native args)).1 =
        ((host'.procedure native.action scope args).run.run ev' (m'.calls host' native args)).1 ∧
      S ((host.procedure native.action scope args).run.run ev (m.calls host native args)).2
        ((host'.procedure native.action scope args).run.run ev' (m'.calls host' native args)).2) :
    InStep S (callNative host ev native scope args) (callNative host' ev' native scope args) := by
  intro m m' hm
  have hnoted := (l.noted (.call native.name args) m m' hm).2
  rw [run_callNative, run_callNative]
  exact InStep.bind_from (h m m' hm hnoted) fun _ => (l.noted _).bind fun _ => .pure _

variable (hev : ∀ scope e, InStep S (ev scope e) (ev' scope e))
include hev

theorem operatorOf (scope : Scope) (head : Handle) :
    InStep S (operatorOf ev scope head) (operatorOf ev' scope head) := by
  refine (l.look _).bind fun kind => ?_
  cases kind with
  | symbol | pair => exact hev scope head
  | nil | number | string | native => exact .pure _

variable (hcall : ∀ native scope args, InStep S (ConsoleLisp.callNative host ev native scope args)
  (ConsoleLisp.callNative host' ev' native scope args))
include hcall

theorem applyForm (scope : Scope) (head args : Handle) :
    InStep S (applyForm host ev scope head args) (applyForm host' ev' scope head args) := by
  refine (l.operatorOf hev scope head).bind fun operator => ?_
  cases operator with
  | error failure => exact .pure _
  | ok operator =>
    refine (l.look _).bind fun cell => ?_
    cases cell with
    | native native => exact hcall native scope args
    | nil | number | symbol | string | pair => exact .pure _

theorem dispatch (scope : Scope) (form head args : Handle) :
    InStep S (dispatch host limits ev scope form head args)
      (dispatch host' limits ev' scope form head args) := by
  rintro ⟨store, steps, depth⟩ ⟨store', _, _⟩ h
  cases l.steps_eq h
  cases l.depth_eq h
  cases hd : limits.depth.any (· ≤ depth) with
  | true =>
    rw [dispatch_of_tooDeep hd, dispatch_of_tooDeep hd]
    exact ⟨rfl, l.note _ _ _ h⟩
  | false =>
    cases hs : limits.steps.any (· < steps + 1) with
    | true =>
      rw [dispatch_of_overBudget hd hs, dispatch_of_overBudget hd hs]
      exact ⟨rfl, l.note _ _ _ h⟩
    | false =>
      obtain ⟨hresult, hafter⟩ := l.applyForm hev hcall scope head args _ _
        (l.note (.application form depth .admitted) (steps + 1) (depth + 1) h)
      rw [dispatch_of_admitted hd hs rfl, dispatch_of_admitted hd hs rfl]
      exact ⟨hresult, l.lowered hafter⟩

theorem evaluateStep (scope : Scope) (e : Handle) :
    InStep S (evaluateStep host limits ev scope e) (evaluateStep host' limits ev' scope e) := by
  refine (l.look _).bind fun cell => ?_
  cases cell with
  | symbol name =>
    refine (l.look _).bind fun value => ?_
    cases value <;> exact .pure _
  | pair head args => exact l.dispatch hev hcall scope e head args
  | nil | number | string | native => exact .pure _

end Lockstep

end ConsoleLisp
