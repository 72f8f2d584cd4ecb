import ConsoleLisp.Proofs.Evaluation.History

/-!
# What an evaluation can do

Natives are arbitrary, so a watched evaluation is made of few things: natives change the heap, the
world and the log, a native is called and comes back or not, and an expression is evaluated in one
of four ways. A relation between machines that holds across each of them (`Conduct`) holds across
every evaluation, and so does one of the shape "if this held before, it holds behind it".

Results:
* `Conduct.run`, `Conduct.applyForm`: the parts of an evaluation.
* **`Conduct.watchedEvaluate`**: an evaluation, by induction on the nesting.
-/

namespace ConsoleLisp

variable {κ ω ν α β : Type}

namespace Limits

variable {limits : Limits} {d depth : Nat}

/-- Fewer applications are open than a limit allows that does not refuse one more. -/
theorem lt_of_open (hd : d ∈ limits.depth) (h : limits.depth.any (· ≤ depth) = false) :
    depth < d := by
  rw [Option.mem_def.mp hd, Option.any_some, decide_eq_false_iff_not] at h
  exact Nat.lt_of_not_le h

/-- A session has room for all that its depth limit allows. -/
theorem lt_nesting (hd : d ∈ limits.depth) : d < limits.nesting := by
  rw [nesting, Option.mem_def.mp hd]
  exact Nat.lt_succ_self d

/-- Where no application is open, the room of a session is enough. -/
theorem room (limits : Limits) :
    limits.depth = none ∨ ∃ d ∈ limits.depth, 0 ≤ d ∧ d < limits.nesting + 0 := by
  cases hd : limits.depth with
  | none => exact .inl rfl
  | some d => exact .inr ⟨d, rfl, Nat.zero_le d, lt_nesting hd⟩

end Limits

/-- Record an event with the heap as it is. -/
def Machine.noted (w : Machine κ ω (Moment κ)) (event : Event) : Machine κ ω (Moment κ) :=
  w.record (.noted event w.store.heap)

/-- The evaluation of a form begins and its application is admitted. -/
def Machine.applying (w : Machine κ ω (Moment κ)) (e : Handle) : Machine κ ω (Moment κ) :=
  { (w.enter e).noted (.application e w.depth .admitted) with
    steps := w.steps + 1, depth := w.depth + 1 }

/-- The relation holds across everything that an evaluation is made of. Without a depth limit the
room may be `spent`: then a form is given up as it stands. -/
structure Conduct (limits : Limits) (spent : Prop)
    (R : Machine κ ω (Moment κ) → Machine κ ω (Moment κ) → Prop) : Prop where
  refl (w : Machine κ ω (Moment κ)) : R w w
  trans {w w' w'' : Machine κ ω (Moment κ)} : R w w' → R w' w'' → R w w''
  depth_eq {w w' : Machine κ ω (Moment κ)} : R w w' → w'.depth = w.depth
  heap (w : Machine κ ω (Moment κ)) (heap : Heap κ) :
    R w { w with store := { w.store with heap := heap } }
  world (w : Machine κ ω (Moment κ)) (world : ω) :
    R w { w with store := { w.store with world := world } }
  log (w : Machine κ ω (Moment κ)) (entry : LogEntry) :
    R w { w with store := { w.store with log := entry :: w.store.log } }
  /-- A native has returned. -/
  returned {w w' : Machine κ ω (Moment κ)} (name : Text) (args : Handle) (outcome : Outcome) :
    R (w.noted (.call name args)) w' → R w (w'.noted (.return name outcome))
  /-- A native has ended in a fault. -/
  threw {w w' : Machine κ ω (Moment κ)} (name : Text) (args : Handle) :
    R (w.noted (.call name args)) w' → R w w'
  /-- An evaluation that applies nothing. -/
  atom (w : Machine κ ω (Moment κ)) (e : Handle) (result : Except Fault Outcome) :
    (∀ head args, w.store.heap.inspect e = .ok (.pair head args) →
      spent ∧ result = .error .stackExhausted) →
    R w ((w.enter e).leave e result)
  /-- An application that the depth limit refuses. -/
  tooDeep (w : Machine κ ω (Moment κ)) (e : Handle) : limits.depth.any (· ≤ w.depth) = true →
    R w (((w.enter e).noted (.application e w.depth .tooDeep)).leave e
      (.ok (.error ⟨e, .depthExceeded⟩)))
  /-- An application past the step limit. -/
  overBudget (w : Machine κ ω (Moment κ)) (e : Handle) : limits.depth.any (· ≤ w.depth) = false →
    limits.steps.any (· < w.steps + 1) = true →
    R w (({ (w.enter e).noted (.application e w.depth .overBudget) with
      steps := w.steps + 1 } : Machine κ ω (Moment κ)).leave e (.ok (.error ⟨e, .limitExceeded⟩)))
  /-- An application that goes on, one application deeper. -/
  admitted {w w' : Machine κ ω (Moment κ)} (e : Handle) (result : Except Fault Outcome) :
    limits.depth.any (· ≤ w.depth) = false → limits.steps.any (· < w.steps + 1) = false →
    R (w.applying e) w' →
    R w (({ w' with depth := w'.depth - 1 } : Machine κ ω (Moment κ)).leave e result)

/-- The relation holds across the action where `depth` applications are open. -/
def Conducts (R : Machine κ ω (Moment κ) → Machine κ ω (Moment κ) → Prop) (depth : Nat)
    (x : Session κ ω (Moment κ) α) : Prop :=
  ∀ w, w.depth = depth → R w (x w).2

/-- What an application does once its head is evaluated. -/
def callOperator (host : Host κ ω ν) (evaluate : Scope → Handle → Session κ ω ν Outcome)
    (scope : Scope) (head args : Handle) : Outcome → Session κ ω ν Outcome
  | .error failure => return .error failure
  | .ok operator => do
    match ← Session.look (·.inspect operator) with
    | .native native => callNative host evaluate native scope args
    | _ => return .error ⟨head, .notCallable⟩

theorem applyForm_eq (host : Host κ ω ν) (ev : Scope → Handle → Session κ ω ν Outcome)
    (scope : Scope) (head args : Handle) : applyForm host ev scope head args =
      operatorOf ev scope head >>= callOperator host ev scope head args :=
  congrArg (operatorOf ev scope head >>= ·) (funext fun operator => by cases operator <;> rfl)

section Call

variable {host : Host κ ω ν} {ev : Scope → Handle → Session κ ω (Moment κ) Outcome}
  {native : Native κ} {scope : Scope} {args : Handle} {w w' : Machine κ ω (Moment κ)}

/-- The call of a native that returns. -/
theorem callNative_of_returned {outcome : Outcome}
    (h : (host.procedure native.action scope args).run.run ev
      (w.noted (.call native.name args)) = (.ok outcome, w')) :
    callNative host.watching ev native scope args w =
      (.ok outcome, w'.noted (.return native.name outcome)) :=
  (Act.run_bind_ok (Session.run_note _ _)).trans ((Act.run_bind_ok h).trans rfl)

/-- The call of a native that ends in a fault. -/
theorem callNative_of_threw {fault : Fault}
    (h : (host.procedure native.action scope args).run.run ev
      (w.noted (.call native.name args)) = (.error fault, w')) :
    callNative host.watching ev native scope args w = (.error fault, w') :=
  (Act.run_bind_ok (Session.run_note _ _)).trans (Act.run_bind_error h)

end Call

namespace Conduct

variable {limits : Limits} {spent : Prop} {depth : Nat}
  {R : Machine κ ω (Moment κ) → Machine κ ω (Moment κ) → Prop}

theorem bind (c : Conduct limits spent R) {x : Session κ ω (Moment κ) α}
    {f : α → Session κ ω (Moment κ) β} (hx : Conducts R depth x)
    (hf : ∀ a, Conducts R depth (f a)) : Conducts R depth (x >>= f) := by
  intro w hw
  have hfirst := hx w hw
  rw [Act.run_bind]
  rcases hrun : x w with ⟨_ | a, w'⟩ <;> rw [hrun] at hfirst
  · exact hfirst
  · exact c.trans hfirst (hf a w' ((c.depth_eq hfirst).trans hw))

/-- Looking at the heap changes nothing. -/
theorem look (c : Conduct limits spent R) (f : Heap κ → Except Fault α) :
    Conducts R depth (Session.look f : Session κ ω (Moment κ) α) :=
  fun w _ => c.refl w

/-- A program changes the heap, the world and the log, and evaluates. -/
theorem run (c : Conduct limits spent R) {ev : Scope → Handle → Session κ ω (Moment κ) Outcome}
    (hev : ∀ scope e, Conducts R depth (ev scope e)) (p : Program κ ω α) :
    Conducts R depth (p.run ev) := by
  induction p with
  | done | fault => exact fun w _ => c.refl w
  | heap action next ih =>
    exact fun w hw => c.trans (c.heap w (action w.store.heap).2) (ih _ _ hw)
  | world action next ih =>
    exact fun w hw => c.trans (c.world w (action w.store.world).2) (ih _ _ hw)
  | evaluate scope e next ih =>
    intro w hw
    have hfirst := hev scope e w hw
    exact c.trans hfirst (ih (ev scope e w).1 _ ((c.depth_eq hfirst).trans hw))
  | steps next ih => exact fun w hw => ih w.steps w hw
  | log entry next ih => exact fun w hw => c.trans (c.log w entry) (ih _ hw)

variable {host : Host κ ω ν} {ev : Scope → Handle → Session κ ω (Moment κ) Outcome}

/-- A native is called, and it returns or not. -/
theorem callNative (c : Conduct limits spent R) (hev : ∀ scope e, Conducts R depth (ev scope e))
    (native : Native κ) (scope : Scope) (args : Handle) :
    Conducts R depth (callNative host.watching ev native scope args) := by
  intro w hw
  have hbody := c.run hev (host.procedure native.action scope args).run
    (w.noted (.call native.name args)) hw
  rcases hrun : (host.procedure native.action scope args).run.run ev
    (w.noted (.call native.name args)) with ⟨fault | outcome, w'⟩ <;> rw [hrun] at hbody
  · rw [callNative_of_threw hrun]
    exact c.threw native.name args hbody
  · rw [callNative_of_returned hrun]
    exact c.returned native.name args outcome hbody

theorem operatorOf (c : Conduct limits spent R) (hev : ∀ scope e, Conducts R depth (ev scope e))
    (scope : Scope) (head : Handle) : Conducts R depth (operatorOf ev scope head) := by
  refine c.bind (c.look _) fun kind => ?_
  cases kind with
  | symbol | pair => exact hev scope head
  | nil | number | string | native => exact fun w _ => c.refl w

/-- What becomes of the operator. -/
theorem callOperator (c : Conduct limits spent R) (hev : ∀ scope e, Conducts R depth (ev scope e))
    (scope : Scope) (head args : Handle) (operator : Outcome) :
    Conducts R depth (callOperator host.watching ev scope head args operator) := by
  cases operator with
  | error failure => exact fun w _ => c.refl w
  | ok operator =>
    refine c.bind (c.look _) fun cell => ?_
    cases cell with
    | native native => exact c.callNative hev native scope args
    | nil | number | symbol | string | pair => exact fun w _ => c.refl w

/-- What an admitted application does. -/
theorem applyForm (c : Conduct limits spent R) (hev : ∀ scope e, Conducts R depth (ev scope e))
    (scope : Scope) (head args : Handle) :
    Conducts R depth (applyForm host.watching ev scope head args) :=
  c.bind (c.operatorOf hev scope head) (c.callOperator hev scope head args)

end Conduct

/-! ## One level of the evaluator -/

section Step

variable {host : Host κ ω ν} {limits : Limits} {ev : Scope → Handle → Session κ ω ν Outcome}
  {scope : Scope} {e head args : Handle} {m : Machine κ ω ν}

/-- A pair is applied. -/
theorem evaluateStep_pair (h : m.store.heap.inspect e = .ok (.pair head args)) :
    evaluateStep host limits ev scope e m = dispatch host limits ev scope e head args m := by
  rw [evaluateStep, Act.run_bind_ok (Session.run_look h)]

/-- Anything else leaves the machine as it is, whatever the limits are. -/
theorem evaluateStep_atom (host : Host κ ω ν) (scope : Scope)
    (h : ∀ head args, m.store.heap.inspect e ≠ .ok (.pair head args)) :
    ∃ result, ∀ limits ev, evaluateStep host limits ev scope e m = (result, m) := by
  cases hcell : m.store.heap.inspect e with
  | error fault =>
    exact ⟨.error fault, fun _ _ => Act.run_bind_error (Session.run_look_error hcell)⟩
  | ok cell =>
    have hlook : (Session.look (·.inspect e) : Session κ ω ν _) m = (.ok cell, m) :=
      Session.run_look hcell
    cases cell with
    | pair head args => exact absurd hcell (h head args)
    | nil | number | string | native => exact ⟨.ok (.ok e), fun _ _ => Act.run_bind_ok hlook⟩
    | symbol name =>
      cases hvalue : m.store.heap.lookupName scope name with
      | error fault =>
        exact ⟨.error fault, fun _ _ => (Act.run_bind_ok hlook).trans
          (Act.run_bind_error (Session.run_look_error hvalue))⟩
      | ok value =>
        have hname : (Session.look (·.lookupName scope name) : Session κ ω ν _) m =
          (.ok value, m) := Session.run_look hvalue
        cases value with
        | none =>
          exact ⟨.ok (.error ⟨e, .unboundSymbol⟩), fun _ _ =>
            (Act.run_bind_ok hlook).trans (Act.run_bind_ok hname)⟩
        | some value =>
          exact ⟨.ok (.ok value), fun _ _ =>
            (Act.run_bind_ok hlook).trans (Act.run_bind_ok hname)⟩

theorem run_watch {x : Session κ ω (Moment κ) Outcome} {w w' : Machine κ ω (Moment κ)}
    {result : Except Fault Outcome} (h : x (w.enter e) = (result, w')) :
    watch e x w = (result, w'.leave e result) := by
  show (fun r : Except Fault Outcome × Machine κ ω (Moment κ) => (r.1, r.2.leave e r.1))
    (x (w.enter e)) = _
  rw [h]

end Step

namespace Conduct

variable {limits : Limits} {spent : Prop} {depth : Nat}
  {R : Machine κ ω (Moment κ) → Machine κ ω (Moment κ) → Prop} {host : Host κ ω ν}
  {ev : Scope → Handle → Session κ ω (Moment κ) Outcome}

/-- A level of the evaluator. The levels below matter where the depth limit admits them. -/
theorem watch_evaluateStep (c : Conduct limits spent R)
    (hev : limits.depth.any (· ≤ depth) = false → ∀ scope e, Conducts R (depth + 1) (ev scope e))
    (scope : Scope) (e : Handle) :
    Conducts R depth (watch e (evaluateStep host.watching limits ev scope e)) := by
  rintro w rfl
  by_cases hpair : ∃ head args, w.store.heap.inspect e = .ok (.pair head args)
  · obtain ⟨head, args, hcell⟩ := hpair
    have hstep : evaluateStep host.watching limits ev scope e (w.enter e) =
        dispatch host.watching limits ev scope e head args (w.enter e) := evaluateStep_pair hcell
    cases hd : limits.depth.any (· ≤ w.depth) with
    | true =>
      rw [run_watch (hstep.trans (dispatch_of_tooDeep hd))]
      exact c.tooDeep w e hd
    | false =>
      cases hs : limits.steps.any (· < w.steps + 1) with
      | true =>
        rw [run_watch (hstep.trans (dispatch_of_overBudget hd hs))]
        exact c.overBudget w e hd hs
      | false =>
        have hbody :
            R _ (ConsoleLisp.applyForm host.watching ev scope head args (w.applying e)).2 :=
          c.applyForm (hev hd) scope head args (w.applying e) rfl
        rcases hrun : ConsoleLisp.applyForm host.watching ev scope head args (w.applying e) with
          ⟨result, w'⟩
        rw [hrun] at hbody
        have hdispatch : dispatch host.watching limits ev scope e head args (w.enter e) =
            (result, { w' with depth := w'.depth - 1 }) :=
          dispatch_of_admitted (m := w.enter e) hd hs hrun
        rw [run_watch (hstep.trans hdispatch)]
        exact c.admitted e result hd hs hbody
  · have hatom : ∀ head args, (w.enter e).store.heap.inspect e ≠ .ok (.pair head args) :=
      fun head args hcell => hpair ⟨head, args, hcell⟩
    obtain ⟨result, hrun⟩ := evaluateStep_atom host.watching scope hatom
    rw [run_watch (hrun limits ev)]
    exact c.atom w e result fun head args hcell => absurd hcell (hatom head args)

/-- **The relation holds across every evaluation** that begins within the depth limit, with the room
that the limit leaves. By induction on the nesting. -/
theorem watchedEvaluate (c : Conduct limits spent R) (host : Host κ ω ν) (fuel : Nat)
    (scope : Scope) (e : Handle)
    (hroom : spent ∨ ∃ d ∈ limits.depth, depth ≤ d ∧ d < fuel + depth) :
    Conducts R depth (watchedEvaluate host limits fuel scope e) := by
  induction fuel generalizing depth scope e with
  | zero =>
    intro w _
    refine c.atom w e _ fun _ _ _ => ⟨hroom.resolve_right ?_, rfl⟩
    rintro ⟨d, -, hle, hlt⟩
    omega
  | succ fuel ih =>
    refine c.watch_evaluateStep (fun hopen scope e => ih scope e ?_) scope e
    refine hroom.imp_right ?_
    rintro ⟨d, hd, -, hlt⟩
    exact ⟨d, hd, Limits.lt_of_open hd hopen, by omega⟩

end Conduct

end ConsoleLisp
