import ConsoleLisp.Proofs.Evaluation.Confinement
import ConsoleLisp.Proofs.Evaluation.Session
import ConsoleLisp.Proofs.Heap.Run

/-!
# What an evaluation does to the heap

When every native of a heap only adds, so does the evaluator: nothing that it does itself takes a
cell. By induction on the nesting a whole evaluation is as `Outset.Ends` says, whether it comes back
or ends where the heap is full.

Results:
* `callNative_settles`: what a native owes the journal is paid when it has come back.
* `Outset.Confines.evaluates`: the evaluator, by induction on the nesting.
* **`evaluation_only_adds`**: the effect of an evaluation with the natives of a console.
-/

namespace ConsoleLisp

open Heap

variable {κ χ ω ν σ : Type}

section Evaluator

variable {o : Outset κ} {host : Host κ ω ν} {depth : Nat}
  {ev : Scope → Handle → Session κ ω (Moment κ) Outcome} {w : Machine κ ω (Moment κ)}
  {e head args : Handle}

open Outset

/-- A moment that is none of a call adds nothing to the tally. -/
theorem Outset.Additive.quiet (h : o.Intact [] w) {moment : Moment κ}
    (hheap : moment.heap? = none ∨ moment.heap? = some w.store.heap)
    (htally : tally (moment :: w.store.journal) = tally w.store.journal)
    (hcall : moment.isCall = false) :
    o.Intact [] (w.record moment) ∧ Since w (w.record moment) := by
  refine ⟨h.record hheap (congrArg Tally.sets htally) ?_, rfl, congrArg Tally.calls htally,
    fun _ he => he, fun _ _ _ hc => hc⟩
  rintro name args heap rfl
  cases hcall

/-- **What a native owes the journal is paid** when it has come back. -/
theorem callNative_settles (hhost : o.Confines host) (hev : o.Evaluates depth ev)
    (hd : w.depth = depth) (h : o.Intact [] w) {native : Native κ}
    (hnative : w.store.heap.cell? e = some (.native native))
    (hargs : w.store.heap.isLive args = true) :
    o.Settles Live w (callNative host.watching ev native o.scope args w) := by
  have hcall : o.Intact [] (w.noted (.call native.name args)) := by
    refine h.record (.inr rfl) rfl ?_
    rintro _ _ _ ⟨⟩
    exact hargs
  have hbody := hhost e native (h.adds.natives e native hnative) depth ev
    (w.noted (.call native.name args)) args (tally w.store.journal).calls hev hd hcall hargs
  rcases hrun : Procedure.exec ev (host.procedure native.action o.scope args)
    (w.noted (.call native.name args)) with ⟨result, w'⟩
  rw [hrun] at hbody
  -- the body leaves its own call in front of those that were open before
  have hcalls : Since (w.noted (.call native.name args)) w' → (tally w'.store.journal).calls =
    w.store.heap.first? args :: (tally w.store.journal).calls := fun hs => hs.calls_eq
  have hsince : ∀ outcome, Since (w.noted (.call native.name args)) w' →
      Since w (w'.noted (.return native.name outcome)) := fun outcome hs =>
    ⟨hs.depth_eq, congrArg List.tail (hcalls hs), hs.isLive, hs.atom⟩
  cases hbody with
  | @returned value _ h' hs hvalue =>
    rw [callNative_of_returned hrun]
    refine .returned (h'.record (.inr rfl) ?_ nofun) (hsince _ hs) hvalue
    show completes native.name (tally w'.store.journal).calls (.ok value) ++ _ = _
    rw [hcalls hs]
    rfl
  | @failed failure _ h' hs hp =>
    rw [callNative_of_returned hrun]
    refine .failed (h'.record (.inr rfl) ?_ nofun) (hsince _ hs) hp
    show completes native.name (tally w'.store.journal).calls (.error failure) ++ _ = _
    rw [completes_error]
  | faulted h' hfault =>
    rw [callNative_of_threw hrun]
    exact .faulted h' hfault

theorem operatorOf_settles (hev : o.Evaluates depth ev) (hd : w.depth = depth) (h : o.Intact [] w)
    (hhead : w.store.heap.isLive head = true) :
    o.Settles Live w (operatorOf ev o.scope head w) := by
  obtain ⟨c, hin, -⟩ := exists_inspect hhead
  have hkind : w.store.heap.kindOf head = .ok c.kind := by
    rw [kindOf, hin]
    rfl
  rw [operatorOf, Act.run_bind_ok (Session.run_look hkind)]
  cases c with
  | symbol | pair => exact hev w head hd h hhead
  | nil | number | string | native => exact .returned h (.refl w) hhead

theorem callOperator_settles (hhost : o.Confines host) (hev : o.Evaluates depth ev)
    (hd : w.depth = depth) (h : o.Intact [] w) (hhead : w.store.heap.isLive head = true)
    (hargs : w.store.heap.isLive args = true) {operator : Handle}
    (hoperator : w.store.heap.isLive operator = true) :
    o.Settles Live w (callOperator host.watching ev o.scope head args (.ok operator) w) := by
  obtain ⟨c, hin, hc⟩ := exists_inspect hoperator
  rw [callOperator, Act.run_bind_ok (Session.run_look hin)]
  cases c with
  | native native => exact callNative_settles hhost hev hd h hc hargs
  | nil | number | symbol | string | pair => exact .failed h (.refl w) hhead

theorem applyForm_settles (hhost : o.Confines host) (hev : o.Evaluates depth ev)
    (hd : w.depth = depth) (h : o.Intact [] w) (hhead : w.store.heap.isLive head = true)
    (hargs : w.store.heap.isLive args = true) :
    o.Settles Live w (applyForm host.watching ev o.scope head args w) := by
  have hfirst := operatorOf_settles hev hd h hhead
  rw [applyForm_eq, Act.run_bind]
  generalize operatorOf ev o.scope head w = result at hfirst
  cases hfirst with
  | returned h' hs hoperator =>
    exact (callOperator_settles hhost hev (hs.depth_eq.trans hd) h' (hs.isLive head hhead)
      (hs.isLive args hargs) hoperator).since hs
  | failed h' hs hp => exact .failed h' hs hp
  | faulted h' hfault => exact .faulted h' hfault

/-- A form is refused and fails with itself, or it goes on one application deeper. -/
theorem dispatch_settles (hhost : o.Confines host)
    (hev : o.limits.depth.any (· ≤ depth) = false → o.Evaluates (depth + 1) ev)
    (hd : w.depth = depth) (h : o.Intact [] w) (he : w.store.heap.isLive e = true)
    (hhead : w.store.heap.isLive head = true) (hargs : w.store.heap.isLive args = true) :
    o.Settles Live w (dispatch host.watching o.limits ev o.scope e head args w) := by
  have hnoted : ∀ admission, o.Intact [] (w.noted (.application e w.depth admission)) ∧
      Since w (w.noted (.application e w.depth admission)) := fun admission =>
    h.quiet (.inr rfl) rfl rfl
  cases hdepth : o.limits.depth.any (· ≤ w.depth) with
  | true =>
    rw [dispatch_of_tooDeep hdepth]
    exact .failed (hnoted .tooDeep).1 (hnoted .tooDeep).2 he
  | false =>
    cases hsteps : o.limits.steps.any (· < w.steps + 1) with
    | true =>
      obtain ⟨h', hs⟩ := hnoted .overBudget
      rw [dispatch_of_overBudget hdepth hsteps]
      exact .failed h' ⟨rfl, hs.calls_eq, hs.isLive, hs.atom⟩ he
    | false =>
      obtain ⟨h', hs⟩ := hnoted .admitted
      let opened : Machine κ ω (Moment κ) := { w.noted (.application e w.depth .admitted) with
        steps := w.steps + 1, depth := w.depth + 1 }
      have hbody := applyForm_settles (w := opened) hhost (hev (hd ▸ hdepth))
        (congrArg (· + 1) hd) h' hhead hargs
      rcases hrun : applyForm host.watching ev o.scope head args opened with ⟨result, w'⟩
      rw [hrun] at hbody
      rw [dispatch_of_admitted hdepth hsteps hrun]
      have hsince : Since opened w' → Since w { w' with depth := w'.depth - 1 } := fun hs' =>
        ⟨congrArg (· - 1) hs'.depth_eq, hs'.calls_eq.trans hs.calls_eq, hs'.isLive, hs'.atom⟩
      cases hbody with
      | returned h'' hs' hvalue => exact .returned h'' (hsince hs') hvalue
      | failed h'' hs' hp => exact .failed h'' (hsince hs') hp
      | faulted h'' hfault => exact .faulted h'' hfault

theorem evaluateStep_settles (hhost : o.Confines host)
    (hev : o.limits.depth.any (· ≤ depth) = false → o.Evaluates (depth + 1) ev)
    (hd : w.depth = depth) (h : o.Intact [] w) (he : w.store.heap.isLive e = true) :
    o.Settles Live w (evaluateStep host.watching o.limits ev o.scope e w) := by
  obtain ⟨c, hin, hc⟩ := exists_inspect he
  rw [evaluateStep, Act.run_bind_ok (Session.run_look hin)]
  cases c with
  | pair head args =>
    obtain ⟨hhead, hargs⟩ := h.adds.wellFormed.parts_isLive hc
    exact dispatch_settles hhost hev hd h he hhead hargs
  | symbol name =>
    obtain ⟨found, hfound, hlive⟩ := h.adds.wellFormed.lookupName_total h.adds.scope_isLive name
    dsimp only
    rw [Act.run_bind_ok (Session.run_look hfound)]
    cases found with
    | some value => exact .returned h (.refl w) (hlive value rfl)
    | none => exact .failed h (.refl w) he
  | nil | number | string | native => exact .returned h (.refl w) he

/-- The moments where an evaluation begins and ends add nothing to the tally. -/
theorem watch_settles {x : Session κ ω (Moment κ) Outcome} (h : o.Intact [] w)
    (hx : o.Intact [] (w.enter e) → o.Settles Live (w.enter e) (x (w.enter e))) :
    o.Settles Live w (watch e x w) := by
  obtain ⟨hbegun, hs⟩ : o.Intact [] (w.enter e) ∧ Since w (w.enter e) :=
    h.quiet (.inr rfl) rfl rfl
  have hbody := hx hbegun
  rcases hrun : x (w.enter e) with ⟨result, w'⟩
  rw [hrun] at hbody
  rw [run_watch hrun]
  have hended : o.Intact [] w' → o.Intact [] (w'.leave e result) ∧ Since w' (w'.leave e result) :=
    fun h' => h'.quiet (.inl rfl) rfl rfl
  cases hbody with
  | returned h' hs' hvalue =>
    exact .returned (hended h').1 (hs.trans (hs'.trans (hended h').2)) hvalue
  | failed h' hs' hp => exact .failed (hended h').1 (hs.trans (hs'.trans (hended h').2)) hp
  | faulted h' hfault => exact .faulted (hended h').1 hfault

/-- **The evaluator only adds when its natives do.** By induction on the nesting: the room that a
depth limit leaves is never spent. -/
theorem Outset.Confines.evaluates (hhost : o.Confines host) (fuel : Nat)
    (hroom : o.limits.depth = none ∨ ∃ d ∈ o.limits.depth, depth ≤ d ∧ d < fuel + depth) :
    o.Evaluates depth (watchedEvaluate host o.limits fuel) := by
  induction fuel generalizing depth with
  | zero =>
    intro w e _ h _
    refine watch_settles h fun h' => .faulted h' (.inr ⟨hroom.resolve_right ?_, rfl⟩)
    rintro ⟨d, -, hle, hlt⟩
    omega
  | succ fuel ih =>
    intro w e hd h he
    refine watch_settles h fun h' => evaluateStep_settles hhost (fun hopen => ih ?_) hd h' he
    refine hroom.imp_right ?_
    rintro ⟨d, hlimit, -, hlt⟩
    exact ⟨d, hlimit, Limits.lt_of_open hlimit hopen, by omega⟩

end Evaluator

/-! ## A whole session -/

/-- A session on a heap whose natives are those of a console. -/
theorem standard_settles
    (custom : χ → Scope → Handle → Procedure (Action (LevelAction χ)) (Stage σ) Handle)
    (observe : Event → Heap (Action (LevelAction χ)) → List ν) {limits : Limits} {scope : Scope}
    {e frame parent : Handle} {store : Store (Action (LevelAction χ)) (Stage σ) ν}
    (hheap : store.heap.WellFormed)
    (hscope : store.heap.cell? scope.chain = some (.pair frame parent))
    (he : store.heap.isLive e = true)
    (hnatives : ∀ f native, store.heap.cell? f = some (.native native) → native.IsStandard)
    {result : Except Fault Outcome}
    {w : Machine (Action (LevelAction χ)) (Stage σ) (Moment (Action (LevelAction χ)))}
    (hwatched : Session.Watched (Host.withBuiltins (LevelAction.procedure custom) observe) limits
      scope e store result w) :
    Outset.Settles ⟨store.heap, scope, limits⟩ Live store.watched (result, w) := by
  let o : Outset (Action (LevelAction χ)) := ⟨store.heap, scope, limits⟩
  rw [← hwatched.run_eq]
  exact (standard_confines (o := o) custom observe hnatives).evaluates limits.nesting limits.room
    store.watched e rfl (Outset.Additive.init (o := o) hheap hscope) he

/-- **Evaluation only adds.** In a heap whose natives are those of a console, what was live stays
live and every cell stays as it is, but for the frame of the scope: the bindings of the `set`s that
have come back with a value are in front of it, the last one first. That holds at every moment and
at the end, and also when the evaluation fails and when it ends in a full heap; without a depth
limit it may end as well where applications nest too deep for the machine. -/
theorem evaluation_only_adds
    (custom : χ → Scope → Handle → Procedure (Action (LevelAction χ)) (Stage σ) Handle)
    (observe : Event → Heap (Action (LevelAction χ)) → List ν) (limits : Limits) {scope : Scope}
    {e frame parent : Handle} {store : Store (Action (LevelAction χ)) (Stage σ) ν}
    (hheap : store.heap.WellFormed)
    (hscope : store.heap.cell? scope.chain = some (.pair frame parent))
    (he : store.heap.isLive e = true)
    (hnatives : ∀ f native, store.heap.cell? f = some (.native native) → native.IsStandard) :
    ∃ result store' w,
      evaluate (Host.withBuiltins (LevelAction.procedure custom) observe) limits scope e store =
        (result, store') ∧
      Session.Watched (Host.withBuiltins (LevelAction.procedure custom) observe) limits scope e
        store result w ∧
      OnlyAdds store.heap scope (tally w.store.journal).sets store'.heap ∧
      (∀ moment past, moment :: past <:+ w.store.journal → ∀ heap ∈ moment.heap?,
        OnlyAdds store.heap scope (tally (moment :: past)).sets heap) ∧
      (store'.heap :: w.store.journal.filterMap Moment.heap?).Pairwise (fun later earlier =>
        Grows scope.chain earlier later) ∧
      (∀ f, store.heap.isLive f = true → store'.heap.isLive f = true) ∧
      match result with
      | .ok outcome => store'.heap.isLive outcome.subject = true
      | .error fault => fault = store.heap.exhaustion ∨
          limits.depth = none ∧ fault = .stackExhausted := by
  obtain ⟨result, w, hwatched⟩ := Session.exists_watched
    (Host.withBuiltins (LevelAction.procedure custom) observe) limits scope e store
  have hends := standard_settles custom observe hheap hscope he hnatives hwatched
  have hadditive := hends.intact
  refine ⟨result, _, w, Prod.ext hwatched.result_eq rfl, hwatched, ?_⟩
  rw [hwatched.store_eq.1]
  refine ⟨hadditive.adds, hadditive.moments, hadditive.grows, fun f hf => hadditive.adds.isLive hf,
    ?_⟩
  cases hends with
  | returned _ _ hvalue => exact hvalue
  | failed _ _ hp => exact hp
  | faulted _ hfault => exact hfault

/-- A heap with the form `(begin (set x 1) (set x 1))`, a scope without bindings, and room for three
cells more. -/
@[irreducible] def Heap.rebinding : Heap (Action (LevelAction Empty)) :=
  (performAll [.native ⟨Builtin.set.name, .builtin .set⟩, .symbol (text "x"), .number 1,
    .pair ⟨0, 3, 0⟩ ⟨0, 0, 0⟩, .pair ⟨0, 2, 0⟩ ⟨0, 4, 0⟩, .pair ⟨0, 1, 0⟩ ⟨0, 5, 0⟩,
    .native ⟨Builtin.begin.name, .builtin .begin⟩, .pair ⟨0, 6, 0⟩ ⟨0, 0, 0⟩,
    .pair ⟨0, 6, 0⟩ ⟨0, 8, 0⟩, .pair ⟨0, 7, 0⟩ ⟨0, 9, 0⟩, .pair ⟨0, 0, 0⟩ ⟨0, 0, 0⟩]
    ([], ⟨0, Number.ofNat 15, #[⟨0, some .nil, some ⟨0, 0, 0⟩⟩], [], 1, false⟩)).2

theorem Heap.rebinding_wellFormed : Heap.rebinding.WellFormed := by
  have hcreate : create 0 (Number.ofNat 15) =
      .ok (⟨0, Number.ofNat 15, #[⟨0, some .nil, some ⟨0, 0, 0⟩⟩], [], 1, false⟩ :
        Heap (Action (LevelAction Empty))) := if_pos (by decide +kernel)
  unfold Heap.rebinding
  exact ((Run.created hcreate).performAll _).wellFormed.2 (by decide +kernel)

/-- A store with that heap. -/
def Store.rebinding : Store (Action (LevelAction Empty)) (Stage Unit) Unit :=
  ⟨Heap.rebinding, ⟨.empty, ()⟩, [], []⟩

/-- The heap is full between the two cells of the second binding: its pair is there, and the frame
has the first binding only. -/
theorem evaluation_only_adds_half_made : ∃ store' w,
    evaluate (Host.withBuiltins (LevelAction.procedure Empty.elim) fun _ _ => []) ⟨none, some 8⟩
        ⟨⟨0, 11, 0⟩⟩ ⟨0, 10, 0⟩ Store.rebinding = (.error Heap.rebinding.exhaustion, store') ∧
    Session.Watched (Host.withBuiltins (LevelAction.procedure Empty.elim) fun _ _ => [])
        ⟨none, some 8⟩ ⟨⟨0, 11, 0⟩⟩ ⟨0, 10, 0⟩ Store.rebinding (.error Heap.rebinding.exhaustion) w ∧
    OnlyAdds Heap.rebinding ⟨⟨0, 11, 0⟩⟩ (tally w.store.journal).sets store'.heap ∧
    (tally w.store.journal).sets = [(⟨0, 2, 0⟩, ⟨0, 3, 0⟩)] ∧
    store'.heap.cell? ⟨0, 14, 0⟩ = some (.pair ⟨0, 2, 0⟩ ⟨0, 3, 0⟩) ∧
    store'.heap.cell? ⟨0, 11, 0⟩ = some (.pair ⟨0, 13, 0⟩ ⟨0, 0, 0⟩) := by
  have hsize : Heap.rebinding.slots.size = 12 := by decide +kernel
  have hstandard : ∀ i < 12, ∀ native ∈ (Heap.rebinding.cellAt? i).bind Cell.native?,
      native.IsStandard := by decide +kernel
  have hnatives : ∀ f native, Heap.rebinding.cell? f = some (.native native) →
      native.IsStandard := by
    intro f native hc
    have hindex := index_lt hc
    rw [hsize] at hindex
    refine hstandard f.index hindex native ?_
    rw [cell?_eq_cellAt? hc]
    rfl
  have hscope : Heap.rebinding.cell? (Scope.mk ⟨0, 11, 0⟩).chain =
      some (.pair ⟨0, 0, 0⟩ ⟨0, 0, 0⟩) := by decide +kernel
  have he : Heap.rebinding.isLive ⟨0, 10, 0⟩ = true := by decide +kernel
  obtain ⟨result, store', w, hrun, hwatched, hadds, -⟩ :=
    @evaluation_only_adds _ Unit _ Empty.elim (fun _ _ => []) ⟨none, some 8⟩ _ _ _ _ Store.rebinding
      Heap.rebinding_wellFormed hscope he hnatives
  have hresult : result = .error Heap.rebinding.exhaustion :=
    (congrArg Prod.fst hrun).symm.trans (by decide +kernel)
  have hstore := congrArg Prod.snd hrun
  have hw := congrArg Prod.snd hwatched.run_eq
  subst hresult
  refine ⟨store', w, hrun, hwatched, hadds, ?_, ?_, ?_⟩
  · subst hw
    decide +kernel
  · subst hstore
    decide +kernel
  · subst hstore
    decide +kernel

end ConsoleLisp
