import ConsoleLisp.Proofs.Evaluation.Obedience
import ConsoleLisp.Proofs.Evaluation.Session

/-!
# Limits are transparent until they bite

Two runs of the same expression, the second under wider limits, are compared part by part. As long
as the first is within its limits they are the same, moment for moment. Where a limit bites in the
first run the second goes on, and obedient natives do nothing in the first any more: its failure is
final, and what it has done by then is the beginning of what the second run does (`Stopped`).

Results:
* `run_shadows`, `callNative_shadows`, `applyForm_shadows`: the parts of an evaluation.
* **`watchedEvaluate_shadows`**: evaluations under two limits, by induction on the nesting.
* **`limits_transparent`**: what the limits of a session with the natives of a console do.
-/

namespace ConsoleLisp

variable {κ ω ν σ χ α β : Type}

/-- The form whose application is counted as a step. -/
def Moment.dispatched? : Moment κ → Option Handle
  | .noted (.application _ _ .tooDeep) _ => none
  | .noted (.application form _ _) _ => some form
  | _ => none

/-- The forms whose applications are counted, in order. -/
def dispatched (journal : List (Moment κ)) : List Handle :=
  (journal.filterMap Moment.dispatched?).reverse

/-- The calls of natives, in order. -/
def invoked (journal : List (Moment κ)) : List (Moment κ) := (journal.filter Moment.isCall).reverse

/-- Whatever the second limits refuse the first refuse as well. -/
structure Limits.Within (limits limits' : Limits) : Prop where
  steps : ∀ k, limits'.steps.any (· < k) = true → limits.steps.any (· < k) = true
  depth : ∀ k, limits'.depth.any (· ≤ k) = true → limits.depth.any (· ≤ k) = true

section Runs

variable {limits limits' : Limits} {depth : Nat}

/-- What the limits have left of a run that has failed under them, against the run under wider
limits. -/
inductive Stopped (limits limits' : Limits) :
    Failure → Store κ ω (Moment κ) → Store κ ω (Moment κ) → Prop
  | tooDeep {form : Handle} {s s' : Store κ ω (Moment κ)} : limits.depth ≠ limits'.depth →
      Stopped limits limits' ⟨form, .depthExceeded⟩ s s'
  /-- The steps have run out at an application that goes on in the other run. -/
  | overBudget {n enclosing : Nat} {form : Handle} {heap : Heap κ} {past : List (Moment κ)}
      {s s' : Store κ ω (Moment κ)} : limits.steps = some n →
      limits'.steps.any (· < n + 1) = false →
      .noted (.application form enclosing .admitted) heap :: past <:+ s'.journal →
      (past.filterMap Moment.dispatched?).length = n →
      s.journal.filter Moment.isCall = past.filter Moment.isCall → s.log <:+ s'.log →
      Stopped limits limits' ⟨form, .limitExceeded⟩ s s'

/-- The other run goes on. -/
theorem Stopped.grow {failure : Failure} {s s' s'' : Store κ ω (Moment κ)}
    (h : Stopped limits limits' failure s s') (hjournal : s'.journal <:+ s''.journal)
    (hlog : s'.log <:+ s''.log) : Stopped limits limits' failure s s'' := by
  cases h with
  | tooDeep hdepth => exact .tooDeep hdepth
  | overBudget hn hwide hform hcount hcalls hl =>
    exact .overBudget hn hwide (hform.trans hjournal) hcount hcalls (hl.trans hlog)

/-- The failure is passed on. -/
theorem Stopped.record {failure : Failure} {s s' : Store κ ω (Moment κ)}
    (h : Stopped limits limits' failure s s') {moment : Moment κ} (hm : moment.isCall = false) :
    Stopped limits limits' failure { s with journal := moment :: s.journal } s' := by
  cases h with
  | tooDeep hdepth => exact .tooDeep hdepth
  | overBudget hn hwide hform hcount hcalls hl =>
    refine .overBudget hn hwide hform hcount ?_ hl
    rw [List.filter_cons_of_neg (Bool.eq_false_iff.mp hm)]
    exact hcalls

/-- What a run has done stays at the beginning of its journal and log. -/
def Grown (w w' : Machine κ ω (Moment κ)) : Prop :=
  w'.depth = w.depth ∧ w.store.journal <:+ w'.store.journal ∧ w.store.log <:+ w'.store.log

theorem conduct_grown (limits : Limits) :
    Conduct limits True (Grown : Machine κ ω (Moment κ) → Machine κ ω (Moment κ) → Prop) where
  refl _ := ⟨rfl, List.suffix_rfl, List.suffix_rfl⟩
  trans h h' := ⟨h'.1.trans h.1, h.2.1.trans h'.2.1, h.2.2.trans h'.2.2⟩
  depth_eq h := h.1
  heap _ _ := ⟨rfl, List.suffix_rfl, List.suffix_rfl⟩
  world _ _ := ⟨rfl, List.suffix_rfl, List.suffix_rfl⟩
  log _ _ := ⟨rfl, List.suffix_rfl, List.suffix_cons ..⟩
  returned _ _ _ h := ⟨h.1, (List.suffix_cons ..).trans (h.2.1.trans (List.suffix_cons ..)), h.2.2⟩
  threw _ _ h := ⟨h.1, (List.suffix_cons ..).trans h.2.1, h.2.2⟩
  atom _ _ _ _ := ⟨rfl, ⟨[_, _], rfl⟩, List.suffix_rfl⟩
  tooDeep _ _ _ := ⟨rfl, ⟨[_, _, _], rfl⟩, List.suffix_rfl⟩
  overBudget _ _ _ _ := ⟨rfl, ⟨[_, _, _], rfl⟩, List.suffix_rfl⟩
  admitted _ _ _ _ h := ⟨congrArg (· - 1) h.1,
    List.IsSuffix.trans ⟨[_, _], rfl⟩ (h.2.1.trans (List.suffix_cons ..)), h.2.2⟩

/-- A machine whose counter shows the applications counted, and whose run has not been stopped by
the first limits alone. -/
structure Machine.Ready (limits limits' : Limits) (w : Machine κ ω (Moment κ)) : Prop where
  counts : w.steps = (w.store.journal.filterMap Moment.dispatched?).length
  unstopped : limits.steps.any (· < w.steps) = true → limits'.steps.any (· < w.steps) = true

theorem Machine.Ready.record {w : Machine κ ω (Moment κ)} (h : w.Ready limits limits')
    {moment : Moment κ} (hm : moment.dispatched? = none) : (w.record moment).Ready limits limits' :=
  ⟨h.counts.trans (congrArg List.length (List.filterMap_cons_none hm)).symm, h.unstopped⟩

/-- An application that the first limits admit. -/
theorem Machine.Ready.applying {w : Machine κ ω (Moment κ)} (h : w.Ready limits limits')
    {e : Handle} (hs : limits.steps.any (· < w.steps + 1) = false) :
    (w.applying e).Ready limits limits' :=
  ⟨congrArg (· + 1) h.counts, fun hover => nomatch hs.symm.trans hover⟩

/-- Where the first limits alone refuse an application, as many are counted as they allow. -/
theorem Machine.Ready.count_eq {w : Machine κ ω (Moment κ)} (h : w.Ready limits limits')
    (hs : limits.steps.any (· < w.steps + 1) = true)
    (hs' : limits'.steps.any (· < w.steps + 1) = false) :
    ∃ n, limits.steps = some n ∧ w.steps = n := by
  obtain ⟨n, hn, hover⟩ := (Option.any_eq_true ..).mp hs
  refine ⟨n, hn, ?_⟩
  by_contra hne
  have hlt : n < w.steps := by
    have := of_decide_eq_true hover
    omega
  have hstopped : limits'.steps.any (· < w.steps) = true :=
    h.unstopped ((Option.any_eq_true ..).mpr ⟨n, hn, decide_eq_true hlt⟩)
  obtain ⟨n', hn', hlt'⟩ := (Option.any_eq_true ..).mp hstopped
  rw [hn', Option.any_some, decide_eq_false_iff_not] at hs'
  exact hs' (Nat.lt_succ_of_lt (of_decide_eq_true hlt'))

/-- The first action does what the second does, or a limit has stopped it. -/
def Shadows (limits limits' : Limits) (depth : Nat)
    (x x' : Session κ ω (Moment κ) (Except Failure α)) : Prop :=
  ∀ w, w.Ready limits limits' → w.depth = depth →
    (x w = x' w ∧ (x' w).2.Ready limits limits') ∨ ∃ failure w', x w = (.ok (.error failure), w') ∧
      Stopped limits limits' failure w'.store (x' w).2.store

namespace Shadows

theorem pure (result : Except Failure α) :
    Shadows limits limits' depth (pure result : Session κ ω (Moment κ) _) (pure result) :=
  fun _ hw _ => .inl ⟨rfl, hw⟩

/-- A look at the heap is the same in both runs. -/
theorem look_bind {f : Heap κ → Except Fault β}
    {k k' : β → Session κ ω (Moment κ) (Except Failure α)}
    (hk : ∀ b, Shadows limits limits' depth (k b) (k' b)) :
    Shadows limits limits' depth (Session.look f >>= k) (Session.look f >>= k') := by
  intro w hw hd
  cases hlook : f w.store.heap with
  | error fault =>
    rw [Act.run_bind_error (Session.run_look_error hlook),
      Act.run_bind_error (Session.run_look_error hlook)]
    exact .inl ⟨rfl, hw⟩
  | ok b =>
    rw [Act.run_bind_ok (Session.run_look hlook), Act.run_bind_ok (Session.run_look hlook)]
    exact hk b w hw hd

/-- A sequence whose second part passes on the failure of the first. -/
theorem bind {x x' : Session κ ω (Moment κ) (Except Failure α)}
    {k k' : Except Failure α → Session κ ω (Moment κ) (Except Failure β)}
    (hx : Shadows limits limits' depth x x') (hgrown : Conducts Grown depth x')
    (hfail : ∀ failure, k (.error failure) = Pure.pure (.error failure))
    (hk : ∀ result, Shadows limits limits' depth (k result) (k' result))
    (hkgrown : ∀ result, Conducts Grown depth (k' result)) :
    Shadows limits limits' depth (x >>= k) (x' >>= k') := by
  intro w hw hd
  have hfirst := hgrown w hd
  rw [Act.run_bind, Act.run_bind]
  rcases hx w hw hd with ⟨heq, hready⟩ | ⟨failure, w₁, hrun, hstop⟩
  · rw [heq]
    rcases hx' : x' w with ⟨_ | result, w'⟩ <;> rw [hx'] at hfirst hready
    · exact .inl ⟨rfl, hready⟩
    · exact hk result w' hready (hfirst.1.trans hd)
  · rw [hrun]
    refine .inr ⟨failure, w₁, congrFun (hfail failure) w₁, ?_⟩
    rcases hx' : x' w with ⟨_ | result, w'⟩ <;> rw [hx'] at hfirst hstop
    · exact hstop
    · have hrest := hkgrown result w' (hfirst.1.trans hd)
      exact hstop.grow hrest.2.1 hrest.2.2

end Shadows

/-! ## The parts of an evaluation -/

section Parts

variable {host : Host κ ω ν} {ev ev' : Scope → Handle → Session κ ω (Moment κ) Outcome}

section

variable (hev : ∀ scope e, Shadows limits limits' depth (ev scope e) (ev' scope e))
  (hgrown : ∀ scope e, Conducts Grown depth (ev' scope e))
include hev hgrown

/-- An obedient program does nothing after the failure of an evaluation. -/
theorem run_shadows {p : Program κ ω (Except Failure α)} (hp : p.Obedient) :
    Shadows limits limits' depth (p.run ev) (p.run ev') := by
  induction p with
  | done | fault => exact fun w hw _ => .inl ⟨rfl, hw⟩
  | heap action next ih =>
    exact fun w hw hd => ih _ (hp _) { w with store := { w.store with heap := _ } } ⟨hw.1, hw.2⟩ hd
  | world action next ih =>
    exact fun w hw hd => ih _ (hp _) { w with store := { w.store with world := _ } } ⟨hw.1, hw.2⟩ hd
  | evaluate scope e next ih =>
    intro w hw hd
    have hfirst := hgrown scope e w hd
    have hgoes : (Program.evaluate scope e next).run ev w =
      (next (ev scope e w).1).run ev (ev scope e w).2 := rfl
    rw [hgoes]
    rcases hev scope e w hw hd with ⟨heq, hready⟩ | ⟨failure, w', hrun, hstop⟩
    · rw [heq]
      exact ih (ev' scope e w).1 (hp.2 _) (ev' scope e w).2 hready (hfirst.1.trans hd)
    · rw [hrun, hp.1 failure]
      refine .inr ⟨failure, w', rfl, ?_⟩
      have hrest := (conduct_grown limits').run hgrown (next (ev' scope e w).1) (ev' scope e w).2
        (hfirst.1.trans hd)
      exact hstop.grow hrest.2.1 hrest.2.2
  | steps next ih => exact fun w hw hd => ih w.steps (hp _) w hw hd
  | log entry next ih =>
    exact fun w hw hd => ih hp { w with store := { w.store with log := _ } } ⟨hw.1, hw.2⟩ hd

variable (hhost : host.IsObedient)
include hhost

theorem callNative_shadows (native : Native κ) (scope : Scope) (args : Handle) :
    Shadows limits limits' depth (callNative host.watching ev native scope args)
      (callNative host.watching ev' native scope args) := by
  intro w hw hd
  rcases hfree : (host.procedure native.action scope args).run.run ev'
      (w.noted (.call native.name args)) with ⟨fault | outcome, w₁⟩ <;>
    rcases run_shadows hev hgrown (hhost native.action scope args)
      (w.noted (.call native.name args)) (hw.record rfl) hd with
      ⟨heq, hready⟩ | ⟨failure, w', hrun, hstop⟩
  · rw [callNative_of_threw (heq.trans hfree), callNative_of_threw hfree]
    rw [hfree] at hready
    exact .inl ⟨rfl, hready⟩
  · rw [callNative_of_returned hrun, callNative_of_threw hfree]
    rw [hfree] at hstop
    exact .inr ⟨failure, _, rfl, hstop.record rfl⟩
  · rw [callNative_of_returned (heq.trans hfree), callNative_of_returned hfree]
    rw [hfree] at hready
    exact .inl ⟨rfl, hready.record rfl⟩
  · rw [callNative_of_returned hrun, callNative_of_returned hfree]
    rw [hfree] at hstop
    exact .inr ⟨failure, _, rfl, (hstop.record rfl).grow (List.suffix_cons ..) List.suffix_rfl⟩

theorem applyForm_shadows (scope : Scope) (head args : Handle) :
    Shadows limits limits' depth (applyForm host.watching ev scope head args)
      (applyForm host.watching ev' scope head args) := by
  have c : Conduct limits' True Grown := conduct_grown (κ := κ) (ω := ω) limits'
  rw [applyForm_eq, applyForm_eq]
  refine Shadows.bind (.look_bind fun kind => ?_) (c.operatorOf hgrown scope head)
    (fun _ => rfl) (fun operator => ?_) (c.callOperator hgrown scope head args)
  · cases kind with
    | symbol | pair => exact hev scope head
    | nil | number | string | native => exact .pure _
  · cases operator with
    | error failure => exact .pure _
    | ok operator =>
      refine .look_bind fun cell => ?_
      cases cell with
      | native native => exact callNative_shadows hev hgrown hhost native scope args
      | nil | number | symbol | string | pair => exact .pure _

end

/-- A level of the evaluator. -/
theorem watch_evaluateStep_shadows (hwithin : limits.Within limits') (hhost : host.IsObedient)
    (hev : limits.depth.any (· ≤ depth) = false →
      ∀ scope e, Shadows limits limits' (depth + 1) (ev scope e) (ev' scope e))
    (hgrown : ∀ scope e, Conducts Grown (depth + 1) (ev' scope e)) (scope : Scope) (e : Handle) :
    Shadows limits limits' depth (watch e (evaluateStep host.watching limits ev scope e))
      (watch e (evaluateStep host.watching limits' ev' scope e)) := by
  rintro w hw rfl
  by_cases hpair : ∃ head args, w.store.heap.inspect e = .ok (.pair head args)
  · obtain ⟨head, args, hcell⟩ := hpair
    have hstep : evaluateStep host.watching limits ev scope e (w.enter e) =
        dispatch host.watching limits ev scope e head args (w.enter e) := evaluateStep_pair hcell
    have hstep' : evaluateStep host.watching limits' ev' scope e (w.enter e) =
        dispatch host.watching limits' ev' scope e head args (w.enter e) := evaluateStep_pair hcell
    cases hd : limits.depth.any (· ≤ w.depth) with
    | true =>
      rw [run_watch (hstep.trans (dispatch_of_tooDeep hd))]
      cases hd' : limits'.depth.any (· ≤ w.depth) with
      | true =>
        rw [run_watch (hstep'.trans (dispatch_of_tooDeep hd'))]
        exact .inl ⟨rfl, ((hw.record rfl).record rfl).record rfl⟩
      | false =>
        refine .inr ⟨_, _, rfl, .tooDeep fun heq => ?_⟩
        rw [heq, hd'] at hd
        cases hd
    | false =>
      have hd' : limits'.depth.any (· ≤ w.depth) = false :=
        Bool.eq_false_iff.mpr fun h => Bool.eq_false_iff.mp hd (hwithin.depth _ h)
      cases hs' : limits'.steps.any (· < w.steps + 1) with
      | true =>
        have hs : limits.steps.any (· < w.steps + 1) = true := hwithin.steps _ hs'
        rw [run_watch (hstep.trans (dispatch_of_overBudget hd hs)),
          run_watch (hstep'.trans (dispatch_of_overBudget hd' hs'))]
        exact .inl ⟨rfl, congrArg (· + 1) hw.counts, fun _ => hs'⟩
      | false =>
        have hfree :
            Grown (w.applying e) (applyForm host.watching ev' scope head args (w.applying e)).2 :=
          (conduct_grown limits').applyForm hgrown scope head args (w.applying e) rfl
        have hbody (hs : limits.steps.any (· < w.steps + 1) = false) :=
          applyForm_shadows (hev hd) hgrown hhost scope head args (w.applying e) (hw.applying hs)
            rfl
        rcases hrun' : applyForm host.watching ev' scope head args (w.applying e) with ⟨result', w₁⟩
        rw [hrun'] at hfree hbody
        rw [run_watch (hstep'.trans (dispatch_of_admitted (m := w.enter e) hd' hs' hrun'))]
        cases hs : limits.steps.any (· < w.steps + 1) with
        | true =>
          rw [run_watch (hstep.trans (dispatch_of_overBudget hd hs))]
          obtain ⟨n, hn, hcount⟩ := hw.count_eq hs hs'
          exact .inr ⟨_, _, rfl, .overBudget hn (hcount ▸ hs')
            (hfree.2.1.trans (List.suffix_cons ..)) (hw.counts.symm.trans hcount) rfl hfree.2.2⟩
        | false =>
          rcases hbody hs with ⟨heq, hready⟩ | ⟨failure, w', hrun, hstop⟩
          · rw [run_watch (hstep.trans (dispatch_of_admitted (m := w.enter e) hd hs heq))]
            exact .inl ⟨rfl, hready.counts, hready.unstopped⟩
          · rw [run_watch (hstep.trans (dispatch_of_admitted (m := w.enter e) hd hs hrun))]
            exact .inr ⟨failure, _, rfl,
              (hstop.record rfl).grow (List.suffix_cons ..) List.suffix_rfl⟩
  · have hatom : ∀ head args, (w.enter e).store.heap.inspect e ≠ .ok (.pair head args) :=
      fun head args hcell => hpair ⟨head, args, hcell⟩
    obtain ⟨result, hrun⟩ := evaluateStep_atom host.watching scope hatom
    rw [run_watch (hrun limits ev), run_watch (hrun limits' ev')]
    exact .inl ⟨rfl, (hw.record rfl).record rfl⟩

/-- **Evaluations under two limits**, the first within the second. By induction on the nesting: a
depth limit of the first bounds how deep both go, and without one they have the same room. -/
theorem watchedEvaluate_shadows (hwithin : limits.Within limits') (hhost : host.IsObedient)
    (fuel fuel' : Nat) (scope : Scope) (e : Handle)
    (hroom : fuel = fuel' ∨ ∃ d ∈ limits.depth, depth ≤ d ∧ d < fuel + depth ∧ d < fuel' + depth) :
    Shadows (ω := ω) limits limits' depth (watchedEvaluate host limits fuel scope e)
      (watchedEvaluate host limits' fuel' scope e) := by
  induction fuel generalizing fuel' depth scope e with
  | zero =>
    cases fuel' with
    | zero => exact fun w hw _ => .inl ⟨rfl, (hw.record rfl).record rfl⟩
    | succ fuel' =>
      obtain ⟨d, -, hle, hlt, -⟩ := hroom.resolve_left (by omega)
      omega
  | succ fuel ih =>
    cases fuel' with
    | zero =>
      obtain ⟨d, -, hle, -, hlt⟩ := hroom.resolve_left (by omega)
      omega
    | succ fuel' =>
      refine watch_evaluateStep_shadows hwithin hhost (fun hopen scope e => ih _ scope e ?_)
        (fun scope e => (conduct_grown limits').watchedEvaluate host fuel' scope e (.inl trivial))
        scope e
      refine hroom.imp Nat.succ.inj ?_
      rintro ⟨d, hd, -, hlt, hlt'⟩
      exact ⟨d, hd, Limits.lt_of_open hd hopen, by omega, by omega⟩

end Parts

end Runs

/-! ## Whole sessions -/

section Sessions

variable {host : Host κ ω ν} {limits limits' : Limits} {scope : Scope} {e : Handle}
  {store : Store κ ω ν} {result : Except Fault Outcome} {w : Machine κ ω (Moment κ)}

/-- A session that runs alike under two limits. -/
theorem evaluate_congr (h : Session.Watched host limits scope e store result w)
    (h' : Session.Watched host limits' scope e store result w) :
    evaluate host limits scope e store = evaluate host limits' scope e store := by
  rcases result with fault | _ | _
  · rw [run_evaluate_error h.shown_eq, run_evaluate_error h'.shown_eq]
  · rw [run_evaluate h.shown_eq, run_evaluate h'.shown_eq]
  · rw [run_evaluate h.shown_eq, run_evaluate h'.shown_eq]

/-- A session under limits that lie within those of another. -/
theorem evaluate_shadows (hhost : host.IsObedient) (hwithin : limits.Within limits')
    (hroom : limits.depth = limits'.depth ∨ ∃ d ∈ limits.depth, d < limits'.nesting)
    (h' : Session.Watched host limits' scope e store result w) :
    (evaluate host limits scope e store = evaluate host limits' scope e store ∧
      w.Ready limits limits') ∨
    ∃ failure w', Session.Watched host limits scope e store (.ok (.error failure)) w' ∧
      Stopped limits limits' failure w'.store w.store := by
  obtain ⟨result', w', h⟩ := Session.exists_watched host limits scope e store
  have hshadows : Shadows limits limits' 0
      (watchedEvaluate host limits limits.nesting scope e : Session κ ω (Moment κ) Outcome)
      (watchedEvaluate host limits' limits'.nesting scope e) := by
    refine watchedEvaluate_shadows hwithin hhost _ _ scope e (hroom.imp ?_ ?_)
    · intro hdepth
      rw [Limits.nesting, Limits.nesting, hdepth]
    · rintro ⟨d, hd, hlt⟩
      exact ⟨d, hd, Nat.zero_le d, Limits.lt_nesting hd, hlt⟩
  have hready : (store.watched : Machine κ ω (Moment κ)).Ready limits limits' := by
    refine ⟨rfl, fun hover => ?_⟩
    obtain ⟨n, -, hlt⟩ := (Option.any_eq_true ..).mp hover
    exact absurd (of_decide_eq_true hlt) (Nat.not_lt_zero n)
  have hends := hshadows store.watched hready rfl
  rw [h.run_eq, h'.run_eq] at hends
  rcases hends with ⟨heq, hready'⟩ | ⟨failure, w'', heq, hstop⟩ <;> cases heq
  · exact .inl ⟨evaluate_congr h h', hready'⟩
  · exact .inr ⟨failure, w', h, hstop⟩

/-- The limits of a session change nothing until they bite. -/
structure TransparentLimits (host : Host κ ω ν) (scope : Scope) (e : Handle)
    (store : Store κ ω ν) : Prop where
  /-- A step limit is measured against the forms that are applied without one. Where it allows all
  of them, nothing changes; else the session fails with the first form too many, and what it has
  invoked and written to the log is where the other session begins. -/
  steps (depth : Option Nat) : ∃ result w,
    Session.Watched host ⟨none, depth⟩ scope e store result w ∧
    ∀ n, ((dispatched w.store.journal).length ≤ n →
        evaluate host ⟨some n, depth⟩ scope e store = evaluate host ⟨none, depth⟩ scope e store) ∧
      ∀ h : n < (dispatched w.store.journal).length, ∃ w',
        Session.Watched host ⟨some n, depth⟩ scope e store
          (.ok (.error ⟨(dispatched w.store.journal)[n], .limitExceeded⟩)) w' ∧
        invoked w'.store.journal <+: invoked w.store.journal ∧
        w'.store.log <:+ w.store.log
  /-- Where a depth limit is not the reason for a failure, none that is larger changes anything; no
  limit is larger than one for which the machine has room. -/
  depth (steps : Option Nat) (d : Nat) (depth' : Option Nat) :
    (∀ d' ∈ depth', d ≤ d') → (depth' = none → d ≤ stackCapacity) →
    (∀ form, (evaluate host ⟨steps, some d⟩ scope e store).1 ≠
      .ok (.error ⟨form, .depthExceeded⟩)) →
    evaluate host ⟨steps, depth'⟩ scope e store = evaluate host ⟨steps, some d⟩ scope e store

/-- The forms counted before and behind the application of one. -/
theorem dispatched_of_suffix {form : Handle} {enclosing : Nat} {heap : Heap κ}
    {past journal : List (Moment κ)}
    (h : .noted (.application form enclosing .admitted) heap :: past <:+ journal) :
    ∃ later, dispatched journal = dispatched past ++ form :: later := by
  obtain ⟨front, rfl⟩ := h
  refine ⟨(front.filterMap Moment.dispatched?).reverse, ?_⟩
  simp [dispatched, Moment.dispatched?]

/-- **Obedient natives make limits transparent.** -/
theorem Host.IsObedient.transparentLimits (hhost : host.IsObedient) (scope : Scope) (e : Handle)
    (store : Store κ ω ν) : TransparentLimits host scope e store where
  steps := by
    intro depth
    obtain ⟨result, w, hwatched⟩ := Session.exists_watched host ⟨none, depth⟩ scope e store
    refine ⟨result, w, hwatched, fun n => ?_⟩
    have hwithin : Limits.Within ⟨some n, depth⟩ ⟨none, depth⟩ := ⟨fun _ => nofun, fun _ => id⟩
    rcases evaluate_shadows hhost hwithin (.inl rfl) hwatched with
      ⟨heq, hready⟩ | ⟨failure, w', hwatched', hstop⟩
    · refine ⟨fun _ => heq, fun hlt => ?_⟩
      have hcount : w.steps = (dispatched w.store.journal).length :=
        hready.counts.trans List.length_reverse.symm
      exact nomatch hready.unstopped (decide_eq_true (hcount ▸ hlt))
    · cases hstop with
      | tooDeep hdepth => exact absurd rfl hdepth
      | overBudget hn hwide hform hcount hcalls hlog =>
        cases hn
        obtain ⟨later, hforms⟩ := dispatched_of_suffix hform
        have hbefore : (dispatched _).length = n := List.length_reverse.trans hcount
        refine ⟨fun hle => ?_, fun hlt => ⟨w', ?_, ?_, hlog⟩⟩
        · rw [hforms, List.length_append, hbefore, List.length_cons] at hle
          omega
        · rw [List.getElem_of_append hforms hbefore]
          exact hwatched'
        · rw [invoked, hcalls]
          exact List.reverse_prefix.mpr (((List.suffix_cons ..).trans hform).filter _)
  depth := by
    intro steps d depth' hle hcapacity hresult
    obtain ⟨result, w, hwatched⟩ := Session.exists_watched host ⟨steps, depth'⟩ scope e store
    have hwithin : Limits.Within ⟨steps, some d⟩ ⟨steps, depth'⟩ := by
      refine ⟨fun _ => id, fun k hk => ?_⟩
      obtain ⟨d', hd', hlimit⟩ := (Option.any_eq_true ..).mp hk
      exact decide_eq_true (Nat.le_trans (hle d' hd') (of_decide_eq_true hlimit))
    have hroom : d < Limits.nesting ⟨steps, depth'⟩ := by
      cases depth' with
      | none => exact Nat.lt_succ_of_le (hcapacity rfl)
      | some d' => exact Nat.lt_succ_of_le (hle d' rfl)
    rcases evaluate_shadows hhost hwithin (.inr ⟨d, rfl, hroom⟩) hwatched with
      ⟨heq, -⟩ | ⟨failure, w', hwatched', hstop⟩
    · exact heq.symm
    · cases hstop with
      | tooDeep => exact absurd hwatched'.result_eq (hresult _)
      | overBudget hn hwide =>
        change steps = some _ at hn
        rw [hn, Option.any_some, decide_eq_false_iff_not] at hwide
        exact absurd (Nat.lt_succ_self _) hwide

end Sessions

/-- **Limits are transparent until they bite**, in a context whose natives are the built-in ones and
the action on a level. -/
theorem limits_transparent [IsEmpty χ]
    (custom : χ → Scope → Handle → Procedure (Action (LevelAction χ)) (Stage σ) Handle)
    (observe : Event → Heap (Action (LevelAction χ)) → List ν) (scope : Scope) (e : Handle)
    (store : Store (Action (LevelAction χ)) (Stage σ) ν) :
    TransparentLimits (Host.withBuiltins (LevelAction.procedure custom) observe) scope e store :=
  (Host.isObedient_withBuiltins custom observe).transparentLimits scope e store

/-- A store whose last cell is the form `(list (list))`. -/
def Store.listing : Store (Action (LevelAction Empty)) (Stage Unit) Unit :=
  let slot (i : Nat) (cell : Cell (Action (LevelAction Empty))) : Slot _ :=
    ⟨0, some cell, some ⟨0, i, 0⟩⟩
  let slots := #[slot 0 .nil, slot 1 (.native ⟨text "list", .builtin .list⟩),
    slot 2 (.pair ⟨0, 1, 0⟩ ⟨0, 0, 0⟩), slot 3 (.pair ⟨0, 2, 0⟩ ⟨0, 0, 0⟩),
    slot 4 (.pair ⟨0, 1, 0⟩ ⟨0, 3, 0⟩)]
  ⟨⟨0, Number.infinity, slots, [], 5, false⟩, ⟨.empty, ()⟩, [], []⟩

/-- With one step the inner of two forms is one too many. -/
theorem limits_transparent_listing : ∃ w',
    Session.Watched (Host.withBuiltins (LevelAction.procedure nofun) fun _ _ => [])
      ⟨some 1, none⟩ ⟨⟨0, 0, 0⟩⟩ ⟨0, 4, 0⟩ Store.listing
      (.ok (.error ⟨⟨0, 2, 0⟩, .limitExceeded⟩)) w' := by
  obtain ⟨result, w, hwatched, hsteps⟩ := (limits_transparent (χ := Empty) nofun (fun _ _ => [])
    ⟨⟨0, 0, 0⟩⟩ ⟨0, 4, 0⟩ Store.listing).steps none
  have hforms : dispatched w.store.journal = [⟨0, 4, 0⟩, ⟨0, 2, 0⟩] := by
    have hw := congrArg Prod.snd hwatched.run_eq
    subst hw
    decide +kernel
  obtain ⟨w', hwatched', -⟩ := (hsteps 1).2 (by rw [hforms]; decide)
  simp only [hforms] at hwatched'
  exact ⟨w', hwatched'⟩

end ConsoleLisp
