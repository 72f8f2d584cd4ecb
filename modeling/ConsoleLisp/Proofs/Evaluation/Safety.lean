import ConsoleLisp.Proofs.Evaluation.Room
import ConsoleLisp.Proofs.Layout.Evaluator

/-!
# Evaluation is safe and terminates

A heap is compared with itself: what is met from a scope and an expression stays live, whatever else
the heap holds, and pairs that are part of themselves are no exception. The scope itself must not
come back to itself, since nothing notices it there. Every loop of an evaluation is a walk along
live values or a recursion on the nesting of applications, which a depth limit bounds.

Results:
* `WellFormed.walksEnd`: the walks that an evaluation makes stop.
* `evaluate_itself`: an evaluation beside itself.
* **`evaluation_is_safe`**: an evaluation ends with a live result or in a full heap.
-/

namespace ConsoleLisp

open Heap

variable {κ χ ω ν σ : Type}

/-- Every walk along live values of the heap, and along the scope, stops with the answer of the
function that makes it. -/
structure Heap.WalksEnd (heap : Heap κ) (scope : Scope) : Prop where
  lookups : ∀ name, ∃ found, heap.lookupName scope name = .ok found ∧
    ChainWalk heap name scope.chain found
  lists : ∀ e, heap.isLive e = true → ∃ items, heap.listItems e = .ok items ∧
    ListWalk heap [] [] e items
  texts : ∀ limit e, heap.isLive e = true → ∃ out, heap.formatWithin limit e = .ok out.toText ∧
    PrintWalk heap .value maxPrintDepth [] e (.empty limit) out

/-- Walks end where only the scope might come back to itself and does not. -/
theorem Heap.WellFormed.walksEnd {heap : Heap κ} (w : heap.WellFormed) {scope : Scope}
    (h : heap.ScopeEnds scope.chain) : heap.WalksEnd scope := by
  refine ⟨fun name => w.chainWalk h name, fun e he => w.listWalk he, fun limit e he => ?_⟩
  obtain ⟨out, hwalk⟩ := w.printWalk maxPrintDepth .nil he (.empty limit)
  have hwrites : heap.write maxPrintDepth [] e (.empty limit) = .ok out := hwalk.writesAt .nil
  refine ⟨out, ?_, hwalk⟩
  unfold formatWithin
  rw [hwrites]
  rfl

/-! ## An evaluation beside itself -/

/-- The comparison of an evaluation with itself; its scope may be hidden. -/
def Comparison.itself (store : Store (Action (LevelAction χ)) ω ν) (scope : Scope)
    (limits : Limits) (hidden : Prop) : Comparison (Action (LevelAction χ)) ω where
  native := Native.IsStandard
  scope := scope
  scope' := scope
  fault := store.heap.exhaustion
  fault' := store.heap.exhaustion
  hidden := hidden
  single := False
  limits := limits
  world := Eq
  log := store.log
  log' := store.log

/-- **An evaluation does as itself** where its heap matches itself. -/
theorem evaluate_itself
    (custom : χ → Scope → Handle → Procedure (Action (LevelAction χ)) (Stage σ) Handle)
    (observe : Event → Heap (Action (LevelAction χ)) → List ν) {limits : Limits} {scope : Scope}
    {hidden : Prop} {store : Store (Action (LevelAction χ)) (Stage σ) ν} {ρ : Matching}
    (h : (Comparison.itself store scope limits hidden).Match ρ store.heap store.heap) {e : Handle}
    (he : ρ e e) {result : Except Fault Outcome}
    {w : Machine (Action (LevelAction χ)) (Stage σ) (Moment (Action (LevelAction χ)))}
    (hwatched : Session.Watched (Host.withBuiltins (LevelAction.procedure custom) observe) limits
      scope e store result w) :
    (Comparison.itself store scope limits hidden).Ends Matched ρ store.watched (result, w)
      (result, w) := by
  have hstart : (Comparison.itself store scope limits hidden).Holds ρ store.watched
      store.watched :=
    ⟨h, rfl, ⟨[], rfl, rfl⟩, rfl, rfl, .nil scope, .nil scope⟩
  have hhost : (Comparison.itself (ω := Stage σ) store scope limits hidden).Respects
      (Host.withBuiltins (LevelAction.procedure custom) observe)
      (Host.withBuiltins (LevelAction.procedure custom) observe) :=
    Comparison.respects_of_standard custom observe rfl fun _ hn => hn
  rw [← hwatched.run_eq]
  exact hhost.evaluates limits.nesting limits.room ρ store.watched store.watched e e rfl hstart he

/-! ## Safety -/

/-- **Evaluation is safe and terminates on every graph.** In a well-formed heap, with a live scope
that does not come back to itself, an expression that may be cyclic, and natives of a console as far
as they can be reached from either, an evaluation under a depth limit comes back with a live value or
a live payload, or it ends because the heap is full. At every moment of it, and at the end, the heap
is well formed and every walk that the evaluator and its natives make stops; and the recursion on
the nesting of applications never lacks room: with any more the session is the same. -/
theorem evaluation_is_safe
    (custom : χ → Scope → Handle → Procedure (Action (LevelAction χ)) (Stage σ) Handle)
    (observe : Event → Heap (Action (LevelAction χ)) → List ν) {limits : Limits} {d : Nat}
    (hd : limits.depth = some d) {scope : Scope} {e frame parent : Handle}
    {store : Store (Action (LevelAction χ)) (Stage σ) ν} (hheap : store.heap.WellFormed)
    (hscope : store.heap.cell? scope.chain = some (.pair frame parent))
    (hacyclic : store.heap.AcyclicScope scope.chain) (he : store.heap.isLive e = true)
    (hnatives : ∀ f native, store.heap.Reaches [scope.chain, e] f →
      store.heap.cell? f = some (.native native) → native.IsStandard) :
    ∃ result store' w,
      evaluate (Host.withBuiltins (LevelAction.procedure custom) observe) limits scope e store =
        (result, store') ∧
      Session.Watched (Host.withBuiltins (LevelAction.procedure custom) observe) limits scope e
        store result w ∧
      (match result with
        | .ok outcome => store'.heap.isLive outcome.subject = true
        | .error fault => fault = store.heap.exhaustion) ∧
      (store'.heap.WellFormed ∧ store'.heap.WalksEnd scope) ∧
      (∀ moment ∈ w.store.journal, ∀ heap ∈ moment.heap?,
        heap.WellFormed ∧ heap.WalksEnd scope) ∧
      ∀ fuel ≥ limits.nesting,
        evaluateWith (Host.withBuiltins (LevelAction.procedure custom) observe) limits fuel scope e
            ⟨store, 0, 0⟩ =
          evaluateWith (Host.withBuiltins (LevelAction.procedure custom) observe) limits
            limits.nesting scope e ⟨store, 0, 0⟩ := by
  have hlive := isLive_of_cell? hscope
  obtain ⟨result, w, hwatched⟩ := Session.exists_watched
    (Host.withBuiltins (LevelAction.procedure custom) observe) limits scope e store
  have hreach : ∀ f ∈ [scope.chain, e], store.heap.Reaches [scope.chain, e] f :=
    fun f hf => .root (List.mem_cons_of_mem _ hf)
  have hchain := hreach scope.chain List.mem_cons_self
  have hmatch : (Comparison.itself store scope limits False).Match
      (fun f f' => f = f' ∧ store.heap.Reaches [scope.chain, e] f) store.heap store.heap := by
    refine Layouts.match_reached hheap (fun f hf => ?_) hscope (hchain.head hscope)
      (hchain.tail hscope) ((scopeEnds_iff hheap hlive).mpr hacyclic) hnatives False.elim
    rcases List.mem_cons.mp hf with rfl | hf
    · exact hlive
    · rw [List.mem_singleton.mp hf]
      exact he
  have hends := evaluate_itself custom observe hmatch
    ⟨rfl, hreach e (List.mem_cons_of_mem _ List.mem_cons_self)⟩ hwatched
  have hsound : w.store.heap.WellFormed ∧ w.store.heap.ScopeEnds scope.chain ∧
      SoundPast scope w.store.journal := by
    cases hends with
    | returned _ h | left h => exact ⟨h.heap.wellFormed, h.heap.ends, h.past⟩
    | right h => exact ⟨h.heap.wellFormed', h.heap.ends', h.past'⟩
  obtain ⟨hwellFormed, hscopeEnds, hpast⟩ := hsound
  refine ⟨result, _, w, Prod.ext hwatched.result_eq rfl, hwatched, ?_⟩
  rw [hwatched.store_eq.1]
  refine ⟨?_, ⟨hwellFormed, hwellFormed.walksEnd hscopeEnds⟩, fun moment hm heap hheap => ?_,
    fun fuel hfuel => evaluateWith_congr (Host.withBuiltins (LevelAction.procedure custom) observe)
      hd hfuel scope e store⟩
  · have hfaults : ∀ fault, (Comparison.itself store scope limits False).machines.allows fault →
        fault = store.heap.exhaustion := by
      rintro fault ((hfault | hfault) | ⟨hnone, -⟩)
      · exact hfault
      · exact hfault
      · cases hd.symm.trans hnone
    cases hends with
    | returned _ h _ hagree =>
      cases hagree with
      | ok hvalue => exact h.heap.isLive hvalue
      | error _ hp => exact h.heap.isLive hp
    | left _ hfault | right _ hfault => exact hfaults _ hfault
  · obtain ⟨hw, hends⟩ := hpast moment hm heap hheap
    exact ⟨hw, hw.walksEnd hends⟩

/-- A heap with the form `(begin x)` where `x` is the form itself, a scope without bindings, and a
native of the host that neither reaches. -/
@[irreducible] def Heap.selfContaining : Heap (Action (LevelAction Unit)) :=
  (performAll [.native ⟨Builtin.begin.name, .builtin .begin⟩, .pair ⟨0, 0, 0⟩ ⟨0, 0, 0⟩,
    .pair ⟨0, 1, 0⟩ ⟨0, 2, 0⟩, .setPart .head ⟨0, 2, 0⟩ ⟨0, 3, 0⟩, .pair ⟨0, 0, 0⟩ ⟨0, 0, 0⟩,
    .native ⟨text "exit", .custom (.host ())⟩]
    ([], ⟨0, Number.infinity, #[⟨0, some .nil, some ⟨0, 0, 0⟩⟩], [], 1, false⟩)).2

theorem Heap.selfContaining_wellFormed : Heap.selfContaining.WellFormed := by
  unfold Heap.selfContaining
  exact ((Run.created (create_unbounded 0)).performAll _).wellFormed.2 (by decide +kernel)

/-- A store with that heap. -/
def Store.selfContaining : Store (Action (LevelAction Unit)) (Stage Unit) Unit :=
  ⟨Heap.selfContaining, ⟨.empty, ()⟩, [], []⟩

/-- A form that contains itself is applied until the depth limit refuses it. -/
theorem evaluation_is_safe_cyclic : ∃ store' w,
    evaluate (Host.withBuiltins (LevelAction.procedure fun _ _ args => Procedure.fail args .typeError)
        fun _ _ => []) ⟨none, some 3⟩ ⟨⟨0, 4, 0⟩⟩ ⟨0, 3, 0⟩ Store.selfContaining =
      (.ok (.error ⟨⟨0, 3, 0⟩, .depthExceeded⟩), store') ∧
    Session.Watched (Host.withBuiltins (LevelAction.procedure fun _ _ args =>
        Procedure.fail args .typeError) fun _ _ => []) ⟨none, some 3⟩ ⟨⟨0, 4, 0⟩⟩ ⟨0, 3, 0⟩
      Store.selfContaining (.ok (.error ⟨⟨0, 3, 0⟩, .depthExceeded⟩)) w ∧
    store'.heap.isLive ⟨0, 3, 0⟩ = true ∧ store'.heap.WellFormed ∧
    store'.heap.WalksEnd ⟨⟨0, 4, 0⟩⟩ ∧ w.steps = 3 := by
  have hd : (Limits.mk none (some 3)).depth = some 3 := rfl
  have hscope : Heap.selfContaining.cell? (Scope.mk ⟨0, 4, 0⟩).chain =
      some (.pair ⟨0, 0, 0⟩ ⟨0, 0, 0⟩) := by decide +kernel
  have he : Heap.selfContaining.isLive ⟨0, 3, 0⟩ = true := by decide +kernel
  have hnil := Heap.selfContaining_wellFormed.cell?_nil
  have hid : Heap.selfContaining.nilHandle = ⟨0, 0, 0⟩ := by decide +kernel
  rw [hid] at hnil
  have hends : Heap.selfContaining.ScopeEnds ⟨0, 4, 0⟩ :=
    ⟨1, .step hscope (.stop hnil rfl) (.stop hnil rfl)⟩
  have hacyclic := (scopeEnds_iff Heap.selfContaining_wellFormed (isLive_of_cell? hscope)).mp hends
  -- the native of the host is in slot 5
  have hparts : ∀ i < 5, ∀ p ∈ (Heap.selfContaining.cellAt? i).bind Cell.pair?,
      p.1.index < 5 ∧ p.2.index < 5 := by decide +kernel
  have hbelow : ∀ f, Heap.selfContaining.Reaches [⟨0, 4, 0⟩, ⟨0, 3, 0⟩] f → f.index < 5 := by
    intro f hf
    refine Reach.of_closed (P := (·.index < 5)) (by decide +kernel) (fun f hf p hp => ?_) hf
    obtain ⟨c, hc, hpair⟩ := Option.bind_eq_some_iff.mp hp
    refine hparts f.index hf p ?_
    rw [cell?_eq_cellAt? hc]
    exact hpair
  have hstandard : ∀ i < 5, ∀ native ∈ (Heap.selfContaining.cellAt? i).bind Cell.native?,
      native.IsStandard := by decide +kernel
  have hnatives : ∀ f native, Heap.selfContaining.Reaches [⟨0, 4, 0⟩, ⟨0, 3, 0⟩] f →
      Heap.selfContaining.cell? f = some (.native native) → native.IsStandard := by
    intro f native hf hc
    refine hstandard f.index (hbelow f hf) native ?_
    rw [cell?_eq_cellAt? hc]
    rfl
  obtain ⟨result, store', w, hrun, hwatched, hresult, ⟨hwellFormed, hwalks⟩, -⟩ :=
    @evaluation_is_safe _ Unit _ (fun _ _ args => Procedure.fail args .typeError) (fun _ _ => [])
      ⟨none, some 3⟩ 3 hd ⟨⟨0, 4, 0⟩⟩ ⟨0, 3, 0⟩ _ _ Store.selfContaining
      Heap.selfContaining_wellFormed hscope hacyclic he hnatives
  have hfailed : result = .ok (.error ⟨⟨0, 3, 0⟩, .depthExceeded⟩) :=
    (congrArg Prod.fst hrun).symm.trans (by decide +kernel)
  have hw := congrArg Prod.snd hwatched.run_eq
  subst hfailed
  refine ⟨store', w, hrun, hwatched, hresult, hwellFormed, hwalks, ?_⟩
  subst hw
  decide +kernel

end ConsoleLisp
