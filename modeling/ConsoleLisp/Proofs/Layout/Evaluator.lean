import ConsoleLisp.Proofs.Evaluation.Session
import ConsoleLisp.Proofs.Layout.Builtin

/-!
# The evaluator on two layouts

When the natives of two heaps do alike, so does the evaluator: it decides on what cells hold and on
the counters of the machine. By induction on the nesting two evaluations of matched expressions end
alike, unless one of them is ended by a full heap.

Results:
* `callNative_agrees`, `dispatch_agrees`, `evaluateStep_agrees`: the parts of an evaluation.
* **`Respects.evaluates`**: the evaluator, by induction on the nesting.
-/

namespace ConsoleLisp

open Heap

namespace Comparison

variable {κ ω ν ν' : Type} {c : Comparison κ ω} {host : Host κ ω ν} {host' : Host κ ω ν'}
  {ρ : Matching} {depth : Nat} {ev ev' : Scope → Handle → Session κ ω (Moment κ) Outcome}
  {w w' : Machine κ ω (Moment κ)} {e e' head head' args args' : Handle}

/-- The first run records a moment. -/
theorem Holds.recordLeft (h : c.Holds ρ w w') {moment : Moment κ}
    (hheap : moment.heap? = none ∨ moment.heap? = some w.store.heap) :
    c.Holds ρ (w.record moment) w' :=
  ⟨h.heap, h.world, h.log, h.depth_eq, h.steps_eq,
    h.past.record h.heap.wellFormed h.heap.ends hheap, h.past'⟩

theorem Holds.recordRight (h : c.Holds ρ w w') {moment : Moment κ}
    (hheap : moment.heap? = none ∨ moment.heap? = some w'.store.heap) :
    c.Holds ρ w (w'.record moment) :=
  ⟨h.heap, h.world, h.log, h.depth_eq, h.steps_eq, h.past,
    h.past'.record h.heap.wellFormed' h.heap.ends' hheap⟩

/-- Each run records an event. -/
theorem Holds.noted (h : c.Holds ρ w w') (event event' : Event) :
    c.Holds ρ (w.noted event) (w'.noted event') :=
  (h.recordLeft (.inr rfl)).recordRight (.inr rfl)

/-- Both counters change alike. -/
theorem Holds.count (h : c.Holds ρ w w') {steps steps' depth depth' : Nat} (hsteps : steps' = steps)
    (hdepth : depth' = depth) : c.Holds ρ { w with steps := steps, depth := depth }
      { w' with steps := steps', depth := depth' } :=
  ⟨h.heap, h.world, h.log, hdepth, hsteps, h.past, h.past'⟩

/-- The runs leave an application. -/
theorem Holds.lower (h : c.Holds ρ w w') :
    c.Holds ρ { w with depth := w.depth - 1 } { w' with depth := w'.depth - 1 } :=
  h.count h.steps_eq (congrArg (· - 1) h.depth_eq)

/-- A native is called and comes back alike. -/
theorem callNative_agrees (hhost : c.Respects host host') (hev : c.Evaluates depth ev ev')
    (hd : w.depth = depth) (h : c.Holds ρ w w') {native : Native κ} (hnative : c.native native)
    (hargs : ρ args args') :
    c.Ends Matched ρ w (callNative host.watching ev native c.scope args w)
      (callNative host'.watching ev' native c.scope' args' w') := by
  have hbody := hhost native hnative depth ev ev' ρ (w.noted (.call native.name args))
    (w'.noted (.call native.name args')) args args' hev hd (h.noted _ _) hargs
  rcases hrun : Procedure.exec ev (host.procedure native.action c.scope args)
    (w.noted (.call native.name args)) with ⟨result, t⟩
  rcases hrun' : Procedure.exec ev' (host'.procedure native.action c.scope' args')
    (w'.noted (.call native.name args')) with ⟨result', t'⟩
  rw [hrun, hrun'] at hbody
  cases hbody with
  | returned hρ ht hs hagree =>
    rw [callNative_of_returned hrun, callNative_of_returned hrun']
    exact .returned hρ (ht.noted _ _) hs hagree
  | left ht hfault =>
    rw [callNative_of_threw hrun]
    exact .left ht hfault
  | right ht hfault =>
    rw [callNative_of_threw hrun']
    exact .right ht hfault

theorem operatorOf_agrees (hev : c.Evaluates depth ev ev') (hd : w.depth = depth)
    (h : c.Holds ρ w w') (hhead : ρ head head') :
    c.Ends Matched ρ w (operatorOf ev c.scope head w) (operatorOf ev' c.scope' head' w') := by
  obtain ⟨cell, cell', hin, hin', hmatch⟩ := h.heap.inspect hhead
  have hkind : w.store.heap.kindOf head = .ok cell.kind := by
    rw [kindOf, hin]
    rfl
  have hkind' : w'.store.heap.kindOf head' = .ok cell.kind := by
    rw [kindOf, hin', ← hmatch.kind_eq]
    rfl
  rw [operatorOf, operatorOf, Act.run_bind_ok (Session.run_look hkind),
    Act.run_bind_ok (Session.run_look hkind')]
  cases cell with
  | symbol | pair => exact hev ρ w w' head head' hd h hhead
  | nil | number | string | native => exact .returned (le_refl ρ) h (c.machines.refl w) (.ok hhead)

/-- What the operators are applied to is the same procedure on matched arguments, or neither is a
native. -/
theorem callOperator_agrees (hhost : c.Respects host host') (hev : c.Evaluates depth ev ev')
    (hd : w.depth = depth) (h : c.Holds ρ w w') (hhead : ρ head head') (hargs : ρ args args')
    {operator operator' : Handle} (hoperator : ρ operator operator') :
    c.Ends Matched ρ w (callOperator host.watching ev c.scope head args (.ok operator) w)
      (callOperator host'.watching ev' c.scope' head' args' (.ok operator') w') := by
  obtain ⟨cell, cell', hin, hin', hmatch⟩ := h.heap.inspect hoperator
  rw [callOperator, callOperator, Act.run_bind_ok (Session.run_look hin),
    Act.run_bind_ok (Session.run_look hin')]
  cases hmatch with
  | native hnative => exact callNative_agrees hhost hev hd h hnative hargs
  | nil | number | symbol | string | pair =>
    exact .returned (le_refl ρ) h (c.machines.refl w) (.error .notCallable hhead)

theorem applyForm_agrees (hhost : c.Respects host host') (hev : c.Evaluates depth ev ev')
    (hd : w.depth = depth) (h : c.Holds ρ w w') (hhead : ρ head head') (hargs : ρ args args') :
    c.Ends Matched ρ w (applyForm host.watching ev c.scope head args w)
      (applyForm host'.watching ev' c.scope' head' args' w') := by
  rw [applyForm_eq, applyForm_eq]
  refine Regime.Ends.bind (operatorOf_agrees hev hd h hhead)
    fun ρ₁ operator operator' t t' hρ ht hs hagree => ?_
  cases hagree with
  | ok hoperator =>
    exact callOperator_agrees hhost hev (hs.1.trans hd) ht (hρ _ _ hhead) (hρ _ _ hargs) hoperator
  | error code hp => exact .returned (le_refl ρ₁) ht (c.machines.refl t) (.error code hp)

/-- Both forms are refused and fail with themselves, or both go on one application deeper. -/
theorem dispatch_agrees (hhost : c.Respects host host')
    (hev : c.limits.depth.any (· ≤ depth) = false → c.Evaluates (depth + 1) ev ev')
    (hd : w.depth = depth) (h : c.Holds ρ w w') (he : ρ e e') (hhead : ρ head head')
    (hargs : ρ args args') :
    c.Ends Matched ρ w (dispatch host.watching c.limits ev c.scope e head args w)
      (dispatch host'.watching c.limits ev' c.scope' e' head' args' w') := by
  have hnoted : ∀ admission, c.Holds ρ (w.noted (.application e w.depth admission))
      (w'.noted (.application e' w'.depth admission)) :=
    fun admission => h.noted _ _
  have hcounted : w'.steps + 1 = w.steps + 1 := congrArg (· + 1) h.steps_eq
  cases hdepth : c.limits.depth.any (· ≤ w.depth) with
  | true =>
    have hdepth' : c.limits.depth.any (· ≤ w'.depth) = true := by rwa [h.depth_eq]
    rw [dispatch_of_tooDeep hdepth, dispatch_of_tooDeep hdepth']
    exact .returned (le_refl ρ) (hnoted .tooDeep) (c.machines.refl w) (.error .depthExceeded he)
  | false =>
    have hdepth' : c.limits.depth.any (· ≤ w'.depth) = false := by rwa [h.depth_eq]
    cases hsteps : c.limits.steps.any (· < w.steps + 1) with
    | true =>
      have hsteps' : c.limits.steps.any (· < w'.steps + 1) = true := by rwa [h.steps_eq]
      rw [dispatch_of_overBudget hdepth hsteps, dispatch_of_overBudget hdepth' hsteps']
      exact .returned (le_refl ρ) ((hnoted .overBudget).count hcounted h.depth_eq)
        (c.machines.refl w) (.error .limitExceeded he)
    | false =>
      have hsteps' : c.limits.steps.any (· < w'.steps + 1) = false := by rwa [h.steps_eq]
      have hopened := (hnoted .admitted).count hcounted (congrArg (· + 1) h.depth_eq)
      have hbody := applyForm_agrees hhost (hev (hd ▸ hdepth)) (congrArg (· + 1) hd) hopened hhead
        hargs
      rcases hrun : applyForm host.watching ev c.scope head args
        { w.noted (.application e w.depth .admitted) with
          steps := w.steps + 1, depth := w.depth + 1 } with ⟨result, t⟩
      rcases hrun' : applyForm host'.watching ev' c.scope' head' args'
        { w'.noted (.application e' w'.depth .admitted) with
          steps := w'.steps + 1, depth := w'.depth + 1 } with ⟨result', t'⟩
      rw [hrun, hrun'] at hbody
      rw [dispatch_of_admitted hdepth hsteps hrun, dispatch_of_admitted hdepth' hsteps' hrun']
      cases hbody with
      | returned hρ ht hs hagree =>
        exact .returned hρ ht.lower ⟨congrArg (· - 1) hs.1, hs.2⟩ hagree
      | left ht hfault => exact .left ht.lower hfault
      | right ht hfault => exact .right ht.lower hfault

theorem evaluateStep_agrees (hhost : c.Respects host host')
    (hev : c.limits.depth.any (· ≤ depth) = false → c.Evaluates (depth + 1) ev ev')
    (hd : w.depth = depth) (h : c.Holds ρ w w') (he : ρ e e') :
    c.Ends Matched ρ w (evaluateStep host.watching c.limits ev c.scope e w)
      (evaluateStep host'.watching c.limits ev' c.scope' e' w') := by
  obtain ⟨cell, cell', hin, hin', hmatch⟩ := h.heap.inspect he
  rw [evaluateStep, evaluateStep, Act.run_bind_ok (Session.run_look hin),
    Act.run_bind_ok (Session.run_look hin')]
  cases hmatch with
  | pair hhead hargs => exact dispatch_agrees hhost hev hd h he hhead hargs
  | symbol name =>
    obtain ⟨found, found', hfound, hfound', hmatched⟩ := h.heap.lookupName name
    dsimp only
    rw [Act.run_bind_ok (Session.run_look hfound), Act.run_bind_ok (Session.run_look hfound')]
    cases hmatched with
    | some hvalue => exact .returned (le_refl ρ) h (c.machines.refl w) (.ok hvalue)
    | none => exact .returned (le_refl ρ) h (c.machines.refl w) (.error .unboundSymbol he)
  | nil | number | string | native => exact .returned (le_refl ρ) h (c.machines.refl w) (.ok he)

/-- Both runs record where an evaluation begins and ends. -/
theorem watch_agrees {x y : Session κ ω (Moment κ) Outcome} (h : c.Holds ρ w w')
    (hx : c.Holds ρ (w.enter e) (w'.enter e') →
      c.Ends Matched ρ (w.enter e) (x (w.enter e)) (y (w'.enter e'))) :
    c.Ends Matched ρ w (watch e x w) (watch e' y w') := by
  have hbody := hx ((h.recordLeft (.inr rfl)).recordRight (.inr rfl))
  rcases hrun : x (w.enter e) with ⟨result, t⟩
  rcases hrun' : y (w'.enter e') with ⟨result', t'⟩
  rw [hrun, hrun'] at hbody
  rw [run_watch hrun, run_watch hrun']
  cases hbody with
  | returned hρ ht hs hagree =>
    exact .returned hρ ((ht.recordLeft (.inl rfl)).recordRight (.inl rfl)) hs hagree
  | left ht hfault => exact .left (ht.recordLeft (.inl rfl)) hfault
  | right ht hfault => exact .right (ht.recordRight (.inl rfl)) hfault

/-- **The evaluator does alike when its natives do.** By induction on the nesting: the room that a
depth limit leaves is never spent. -/
theorem Respects.evaluates (hhost : c.Respects host host') (fuel : Nat)
    (hroom : c.limits.depth = none ∨ ∃ d ∈ c.limits.depth, depth ≤ d ∧ d < fuel + depth) :
    c.Evaluates depth (watchedEvaluate host c.limits fuel)
      (watchedEvaluate host' c.limits fuel) := by
  induction fuel generalizing depth with
  | zero =>
    intro ρ w w' e e' _ h _
    refine watch_agrees h fun h' => .left h' (.inr ⟨hroom.resolve_right ?_, rfl⟩)
    rintro ⟨d, -, hle, hlt⟩
    omega
  | succ fuel ih =>
    intro ρ w w' e e' hd h he
    refine watch_agrees h fun h' => evaluateStep_agrees hhost (fun hopen => ih ?_) hd h' he
    refine hroom.imp_right ?_
    rintro ⟨d, hlimit, -, hlt⟩
    exact ⟨d, hlimit, Limits.lt_of_open hlimit hopen, by omega⟩

end Comparison

end ConsoleLisp
