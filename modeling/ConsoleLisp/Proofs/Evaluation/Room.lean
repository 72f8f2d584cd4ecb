import ConsoleLisp.Proofs.Evaluation.Depth

/-!
# Room for nested applications

The evaluator is a recursion on a number that bounds the nesting of applications. A finite depth limit
bounds the nesting as well, so with enough room for it the number does not matter: with any more the
session is the same. That is so for arbitrary natives, also those that catch faults.

Results:
* `run_congr`, `applyForm_congr`: parts of an evaluation look at the levels below only where they
  are called.
* **`watchedEvaluate_congr`**, `evaluateWith_congr`: the evaluator with enough room and with more.
-/

namespace ConsoleLisp

variable {κ ω ν α : Type}

/-- The evaluators do the same where `depth` applications are open, and leave as many open. -/
def AgreeAt (depth : Nat) (ev ev' : Scope → Handle → Session κ ω (Moment κ) Outcome) : Prop :=
  ∀ scope e w, w.depth = depth →
    ev' scope e w = ev scope e w ∧ (ev scope e w).2.depth = depth

section Parts

variable {depth : Nat} {ev ev' : Scope → Handle → Session κ ω (Moment κ) Outcome}
  {host : Host κ ω ν} {w : Machine κ ω (Moment κ)}

theorem run_congr (hev : AgreeAt depth ev ev') (p : Program κ ω α) (hw : w.depth = depth) :
    p.run ev' w = p.run ev w := by
  induction p generalizing w with
  | done | fault => rfl
  | heap action next ih => exact ih _ hw
  | world action next ih => exact ih _ hw
  | evaluate scope e next ih =>
    obtain ⟨hsame, hdepth⟩ := hev scope e w hw
    show (fun r : Except Fault Outcome × Machine κ ω (Moment κ) => (next r.1).run ev' r.2)
      (ev' scope e w) = _
    rw [hsame]
    exact ih _ hdepth
  | steps next ih => exact ih _ hw
  | log entry next ih => exact ih hw

theorem callNative_congr (hev : AgreeAt depth ev ev') (hw : w.depth = depth) (native : Native κ)
    (scope : Scope) (args : Handle) : callNative host.watching ev' native scope args w =
      callNative host.watching ev native scope args w := by
  have hbody := run_congr hev (host.procedure native.action scope args).run
    (w := w.noted (.call native.name args)) hw
  rcases hrun : (host.procedure native.action scope args).run.run ev
    (w.noted (.call native.name args)) with ⟨fault | outcome, w'⟩
  · rw [callNative_of_threw hrun, callNative_of_threw (hbody.trans hrun)]
  · rw [callNative_of_returned hrun, callNative_of_returned (hbody.trans hrun)]

/-- The head is evaluated alike, and no application is left open. -/
theorem operatorOf_congr (hev : AgreeAt depth ev ev') (hw : w.depth = depth) (scope : Scope)
    (head : Handle) : operatorOf ev' scope head w = operatorOf ev scope head w ∧
      (operatorOf ev scope head w).2.depth = depth := by
  cases hkind : w.store.heap.kindOf head with
  | error fault =>
    have hrun : ∀ ev : Scope → Handle → Session κ ω (Moment κ) Outcome,
        operatorOf ev scope head w = (.error fault, w) :=
      fun ev => Act.run_bind_error (Session.run_look_error hkind)
    rw [hrun, hrun]
    exact ⟨rfl, hw⟩
  | ok kind =>
    rw [operatorOf, operatorOf, Act.run_bind_ok (Session.run_look hkind),
      Act.run_bind_ok (Session.run_look hkind)]
    cases kind with
    | symbol | pair => exact hev scope head w hw
    | nil | number | string | native => exact ⟨rfl, hw⟩

theorem callOperator_congr (hev : AgreeAt depth ev ev') (hw : w.depth = depth) (scope : Scope)
    (head args : Handle) (operator : Outcome) :
    callOperator host.watching ev' scope head args operator w =
      callOperator host.watching ev scope head args operator w := by
  cases operator with
  | error failure => rfl
  | ok operator =>
    cases hcell : w.store.heap.inspect operator with
    | error fault =>
      have hrun : ∀ ev : Scope → Handle → Session κ ω (Moment κ) Outcome,
          callOperator host.watching ev scope head args (.ok operator) w = (.error fault, w) :=
        fun ev => Act.run_bind_error (Session.run_look_error hcell)
      rw [hrun, hrun]
    | ok cell =>
      rw [callOperator, callOperator, Act.run_bind_ok (Session.run_look hcell),
        Act.run_bind_ok (Session.run_look hcell)]
      cases cell with
      | native native => exact callNative_congr hev hw native scope args
      | nil | number | symbol | string | pair => rfl

theorem applyForm_congr (hev : AgreeAt depth ev ev') (hw : w.depth = depth) (scope : Scope)
    (head args : Handle) : applyForm host.watching ev' scope head args w =
      applyForm host.watching ev scope head args w := by
  obtain ⟨hsame, hdepth⟩ := operatorOf_congr hev hw scope head
  rw [applyForm_eq, applyForm_eq, Act.run_bind, Act.run_bind, hsame]
  rcases hrun : operatorOf ev scope head w with ⟨_ | operator, w'⟩
  · rfl
  · rw [hrun] at hdepth
    exact callOperator_congr hev hdepth scope head args operator

/-- A level of the evaluator. The levels below matter where the depth limit admits them. -/
theorem watch_evaluateStep_congr {limits : Limits}
    (hev : limits.depth.any (· ≤ depth) = false → AgreeAt (depth + 1) ev ev')
    (hw : w.depth = depth) (scope : Scope) (e : Handle) :
    watch e (evaluateStep host.watching limits ev' scope e) w =
      watch e (evaluateStep host.watching limits ev scope e) w := by
  have hstep : evaluateStep host.watching limits ev' scope e (w.enter e) =
      evaluateStep host.watching limits ev scope e (w.enter e) := by
    by_cases hpair : ∃ head args, (w.enter e).store.heap.inspect e = .ok (.pair head args)
    · obtain ⟨head, args, hcell⟩ := hpair
      rw [evaluateStep_pair hcell, evaluateStep_pair hcell]
      cases hd : limits.depth.any (· ≤ w.depth) with
      | true => rw [dispatch_of_tooDeep (m := w.enter e) hd, dispatch_of_tooDeep (m := w.enter e) hd]
      | false =>
        cases hs : limits.steps.any (· < w.steps + 1) with
        | true => rw [dispatch_of_overBudget (m := w.enter e) hd hs,
            dispatch_of_overBudget (m := w.enter e) hd hs]
        | false =>
          have happly : applyForm host.watching ev' scope head args (w.applying e) = _ :=
            applyForm_congr (hev (hw ▸ hd)) (congrArg (· + 1) hw) scope head args
          rcases hrun : applyForm host.watching ev scope head args (w.applying e) with ⟨result, w'⟩
          rw [dispatch_of_admitted (m := w.enter e) hd hs hrun,
            dispatch_of_admitted (m := w.enter e) hd hs (happly.trans hrun)]
    · obtain ⟨result, hrun⟩ := evaluateStep_atom host.watching scope
        (m := w.enter e) fun head args hcell => hpair ⟨head, args, hcell⟩
      rw [hrun, hrun]
  unfold watch
  rw [hstep]

end Parts

/-- **Room beyond the depth limit makes no difference.** By induction on the nesting. -/
theorem watchedEvaluate_congr (host : Host κ ω ν) {limits : Limits} {d : Nat}
    (hd : limits.depth = some d) {depth : Nat} (hle : depth ≤ d) {fuel fuel' : Nat}
    (hfuel : d < fuel + depth) (hfuel' : d < fuel' + depth) :
    AgreeAt depth (watchedEvaluate (ω := ω) host limits fuel)
      (watchedEvaluate host limits fuel') := by
  intro scope e w hw
  have hrestores : ((watchedEvaluate host limits fuel scope e) w).2.depth = depth :=
    ((conduct_restores limits).watchedEvaluate host fuel scope e (.inl trivial) w rfl).trans hw
  refine ⟨?_, hrestores⟩
  induction fuel generalizing fuel' depth scope e w with
  | zero => omega
  | succ fuel ih =>
    obtain ⟨fuel', rfl⟩ := Nat.exists_eq_succ_of_ne_zero (show fuel' ≠ 0 by omega)
    refine watch_evaluateStep_congr (fun hopen scope e w hw => ?_) hw scope e
    have hlt : depth < d := Limits.lt_of_open hd hopen
    have hrestores := (conduct_restores limits).watchedEvaluate host fuel scope e (.inl trivial) w rfl
    exact ⟨ih hlt (by omega) (by omega) scope e w hw (hrestores.trans hw), hrestores.trans hw⟩

/-- The same for the evaluator itself, at the beginning of a session. -/
theorem evaluateWith_congr (host : Host κ ω ν) {limits : Limits} {d : Nat}
    (hd : limits.depth = some d) {fuel : Nat} (hfuel : limits.nesting ≤ fuel) (scope : Scope)
    (e : Handle) (store : Store κ ω ν) :
    evaluateWith host limits fuel scope e ⟨store, 0, 0⟩ =
      evaluateWith host limits limits.nesting scope e ⟨store, 0, 0⟩ := by
  have hroom : d < limits.nesting := Limits.lt_nesting hd
  have hmirrors : ∀ fuel, evaluateWith host limits fuel scope e ⟨store, 0, 0⟩ = _ := fun fuel =>
    evaluateWith_mirrors host store.journal limits fuel scope e store.watched
  have hsame : watchedEvaluate host limits fuel scope e store.watched =
      watchedEvaluate host limits limits.nesting scope e store.watched :=
    (watchedEvaluate_congr host hd (Nat.zero_le d) hroom (Nat.lt_of_lt_of_le hroom hfuel) scope e
      store.watched rfl).1
  rw [hmirrors, hmirrors, hsame]

end ConsoleLisp
