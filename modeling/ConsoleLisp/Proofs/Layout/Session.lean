import ConsoleLisp.Proofs.Evaluation.Cycle
import ConsoleLisp.Proofs.Layout.Evaluator
import ConsoleLisp.Proofs.Layout.Isomorphism

/-!
# The layout of a heap is invisible to scripts

Two contexts with the same limits whose root scopes reach isomorphic graphs give the same answers to
the same lines, whatever else their heaps hold, in whatever slots and generations, and whatever is
free. Only how full a heap is can show, when a cycle ends in a fault.

Results:
* `evaluate_agrees`: one evaluation in each context.
* **`execute_isomorphic`**: one line in each context.
* `session_isomorphic`: some lines in order.
-/

namespace ConsoleLisp

open Heap

variable {χ ω ν ν' : Type}

/-- A native that does what a built-in procedure does. -/
def Native.IsBuiltin (native : Native (Action χ)) : Prop := ∃ b, native.action = .builtin b

instance (native : Native (Action χ)) : Decidable native.IsBuiltin :=
  match h : native.action with
  | .builtin b => isTrue ⟨b, h⟩
  | .custom _ => isFalse fun ⟨_, hb⟩ => nomatch h.symm.trans hb

/-- The subjects of outcomes that agree are matched, and printed alike they give the same cycle. -/
theorem Concur.subject {ρ : Matching} {outcome outcome' : Outcome}
    (h : Concur Matched ρ outcome outcome') : ρ outcome.subject outcome'.subject ∧
      ∀ output, Cycle.ofOutcome output outcome' = Cycle.ofOutcome output outcome := by
  cases h with
  | ok hvalue => exact ⟨hvalue, fun _ => rfl⟩
  | error code hp => exact ⟨hp, fun _ => rfl⟩

/-- Heaps that match are isomorphic below the root scopes once both are collected, and serve them as
before. -/
theorem Layouts.Match.collect {κ : Type} {l : Layouts κ} {ρ : Matching}
    {heap heap' heap₁ heap₁' : Heap κ} (h : l.Match ρ heap heap') (hsingle : l.single)
    (w₁ : heap₁.WellFormed) (hc : heap.Collects [l.scope.chain] heap₁) (w₁' : heap₁'.WellFormed)
    (hc' : heap'.Collects [l.scope'.chain] heap₁') :
    (∃ g, IsIsomorphism g heap₁ l.scope.chain heap₁' l.scope'.chain) ∧
      heap₁.Serves l.native l.scope ∧ heap₁'.Serves l.native l.scope' := by
  obtain ⟨g, hg⟩ := h.isomorphism
  exact ⟨⟨g, hg.collect hc hc'⟩, (h.serves hsingle).collect hc w₁,
    (h.symm.serves hsingle).collect hc' w₁'⟩

section Sessions

variable {custom custom' : χ → Scope → Handle → Procedure (Action χ) ω Handle}
  {observe : Event → Heap (Action χ) → List ν} {observe' : Event → Heap (Action χ) → List ν'}
  {limits : Limits} {scope scope' : Scope} {store : Store (Action χ) ω ν}
  {store' : Store (Action χ) ω ν'}

/-- **One evaluation in each context**: outcomes that agree, the same log and heaps that match, when
neither ends in a fault. -/
theorem evaluate_agrees {l : Layouts (Action χ)} (hnative : l.native = Native.IsBuiltin)
    (store : Store (Action χ) ω ν) (store' : Store (Action χ) ω ν') {ρ : Matching}
    (h : l.Match ρ store.heap store'.heap) {e e' : Handle} (he : ρ e e')
    {outcome outcome' : Outcome} {after : Store (Action χ) ω ν} {after' : Store (Action χ) ω ν'}
    (hrun : evaluate (Host.withBuiltins custom observe) limits l.scope e store =
      (.ok outcome, after))
    (hrun' : evaluate (Host.withBuiltins custom' observe') limits l.scope' e' store' =
      (.ok outcome', after')) :
    ∃ ρ', l.Match ρ' after.heap after'.heap ∧ Concur Matched ρ' outcome outcome' ∧
      ∃ entries, after.log = entries ++ store.log ∧ after'.log = entries ++ store'.log := by
  let c : Comparison (Action χ) ω :=
    { l with limits := limits, world := fun _ _ => True, log := store.log, log' := store'.log }
  obtain ⟨result, w, hwatched⟩ := Session.exists_watched (Host.withBuiltins custom observe) limits
    l.scope e store
  obtain ⟨result', w', hwatched'⟩ := Session.exists_watched (Host.withBuiltins custom' observe')
    limits l.scope' e' store'
  have hhost : c.Respects (Host.withBuiltins custom observe) (Host.withBuiltins custom' observe') :=
    Comparison.respects_of_builtin custom custom' observe observe' fun native hn => by
      have hbuiltin : native.IsBuiltin := hnative ▸ hn
      exact hbuiltin
  have hstart : c.Holds ρ store.watched store'.watched :=
    ⟨h, trivial, ⟨[], rfl, rfl⟩, rfl, rfl, .nil l.scope, .nil l.scope'⟩
  have hends : c.Ends Matched ρ store.watched _ _ :=
    hhost.evaluates limits.nesting limits.room ρ store.watched store'.watched e e' rfl hstart he
  rw [hwatched.run_eq, hwatched'.run_eq] at hends
  have hresult : result = .ok outcome := hwatched.result_eq.symm.trans (congrArg Prod.fst hrun)
  have hresult' : result' = .ok outcome' :=
    hwatched'.result_eq.symm.trans (congrArg Prod.fst hrun')
  subst hresult hresult'
  obtain ⟨hheap, -, hlog⟩ := hwatched.store_eq
  obtain ⟨hheap', -, hlog'⟩ := hwatched'.store_eq
  rw [hrun] at hheap hlog
  rw [hrun'] at hheap' hlog'
  cases hends with
  | returned _ hholds _ hagree =>
    rw [hheap, hlog, hheap', hlog']
    exact ⟨_, hholds.heap, hagree, hholds.log⟩

/-- **One response in each context**: the same cycle, the same log and heaps that match. -/
theorem respond_agrees {l : Layouts (Action χ)} (hnative : l.native = Native.IsBuiltin)
    {ρ : Matching} (h : l.Match ρ store.heap store'.heap) (line : Text) {cycle cycle' : Cycle}
    {after : Store (Action χ) ω ν} {after' : Store (Action χ) ω ν'}
    (hrun : (Context.mk l.scope limits).respond (Host.withBuiltins custom observe) line store =
      (.ok cycle, after))
    (hrun' : (Context.mk l.scope' limits).respond (Host.withBuiltins custom' observe') line store' =
      (.ok cycle', after')) :
    cycle' = cycle ∧
      (∃ entries, after.log = entries ++ store.log ∧ after'.log = entries ++ store'.log) ∧
      ∃ ρ', l.Match ρ' after.heap after'.heap := by
  let ctx : Context := ⟨l.scope, limits⟩
  let ctx' : Context := ⟨l.scope', limits⟩
  have hread := Layouts.read_ends line h
  rcases hleft : Heap.read line store.heap with ⟨result, heap₁⟩
  rcases hright : Heap.read line store'.heap with ⟨result', heap₁'⟩
  rw [hleft, hright] at hread
  cases hread with
  | left => cases (ctx.respond_of_read_fault _ hleft).symm.trans hrun
  | right => cases (ctx'.respond_of_read_fault _ hright).symm.trans hrun'
  | @returned ρ₁ _ _ _ _ _ h₁ _ halike =>
    replace h₁ : l.Match ρ₁ heap₁ heap₁' := h₁
    cases halike with
    | error error =>
      cases (ctx.respond_of_unreadable _ hleft).symm.trans hrun
      cases (ctx'.respond_of_unreadable _ hright).symm.trans hrun'
      exact ⟨rfl, ⟨[], rfl, rfl⟩, ρ₁, h₁⟩
    | @ok e e' stop he =>
      rcases heval : evaluate (.withBuiltins custom observe) limits l.scope e
        { store with heap := heap₁ } with ⟨_ | outcome, store₂⟩
      · cases (ctx.respond_of_evaluate_fault _ hleft heval).symm.trans hrun
      rcases heval' : evaluate (.withBuiltins custom' observe') limits l.scope' e'
        { store' with heap := heap₁' } with ⟨_ | outcome', store₂'⟩
      · cases (ctx'.respond_of_evaluate_fault _ hright heval').symm.trans hrun'
      obtain ⟨ρ₂, h₂, hagree, hlogs⟩ := evaluate_agrees hnative { store with heap := heap₁ }
        { store' with heap := heap₁' } h₁ he heval heval'
      obtain ⟨hsubject, hcycle⟩ := hagree.subject
      obtain ⟨output, hformat, hformat'⟩ := h₂.format hsubject
      cases (ctx.respond_of_evaluated _ hleft heval hformat).symm.trans hrun
      cases (ctx'.respond_of_evaluated _ hright heval' hformat').symm.trans hrun'
      exact ⟨hcycle output, hlogs, ρ₂, h₂⟩

/-- **One line in each context**, where the heaps match. -/
theorem execute_agrees {l : Layouts (Action χ)} (hnative : l.native = Native.IsBuiltin)
    (hsingle : l.single) {ρ : Matching} (h : l.Match ρ store.heap store'.heap) (line : Text)
    {cycle cycle' : Cycle} {after : Store (Action χ) ω ν} {after' : Store (Action χ) ω ν'}
    (hrun : (Context.mk l.scope limits).execute (Host.withBuiltins custom observe) line store =
      (.ok cycle, after))
    (hrun' : (Context.mk l.scope' limits).execute (Host.withBuiltins custom' observe') line store' =
      (.ok cycle', after')) :
    cycle' = cycle ∧
      (∃ entries, after.log = entries ++ store.log ∧ after'.log = entries ++ store'.log) ∧
      (∃ g, IsIsomorphism g after.heap l.scope.chain after'.heap l.scope'.chain) ∧
      after.heap.Serves l.native l.scope ∧ after'.heap.Serves l.native l.scope' := by
  let ctx : Context := ⟨l.scope, limits⟩
  let ctx' : Context := ⟨l.scope', limits⟩
  obtain ⟨store₂, hresponse⟩ := ctx.exists_response _ hrun
  obtain ⟨store₂', hresponse'⟩ := ctx'.exists_response _ hrun'
  obtain ⟨hcycle, hlogs, ρ', h₂⟩ := respond_agrees hnative h line hresponse hresponse'
  obtain ⟨_, hrun₂, w₂, hcollects, hlog⟩ :=
    ctx.execute_of_response _ hresponse h₂.wellFormed h₂.scope_isLive
  obtain ⟨_, hrun₂', w₂', hcollects', hlog'⟩ :=
    ctx'.execute_of_response _ hresponse' h₂.wellFormed' h₂.symm.scope_isLive
  cases hrun₂.symm.trans hrun
  cases hrun₂'.symm.trans hrun'
  rw [hlog, hlog']
  exact ⟨hcycle, hlogs, h₂.collect hsingle w₂ hcollects w₂' hcollects'⟩

/-- **The layout of a heap is invisible to scripts.** Two contexts have the same limits, natives that
are built in, and root scopes that reach isomorphic graphs, with values that may be cyclic. Whatever
else is in the two heaps and however they are laid out, a line that ends in a fault in neither gives
the same cycle and the same log entries in both, and leaves graphs that are isomorphic again, in
heaps that serve the scopes as before. -/
theorem execute_isomorphic (h : store.heap.Serves Native.IsBuiltin scope)
    (h' : store'.heap.Serves Native.IsBuiltin scope') {f : Handle → Handle}
    (hf : IsIsomorphism f store.heap scope.chain store'.heap scope'.chain) (line : Text)
    {cycle cycle' : Cycle} {after : Store (Action χ) ω ν} {after' : Store (Action χ) ω ν'}
    (hrun : (Context.mk scope limits).execute (Host.withBuiltins custom observe) line store =
      (.ok cycle, after))
    (hrun' : (Context.mk scope' limits).execute (Host.withBuiltins custom' observe') line store' =
      (.ok cycle', after')) :
    cycle' = cycle ∧
      (∃ entries, after.log = entries ++ store.log ∧ after'.log = entries ++ store'.log) ∧
      (∃ g, IsIsomorphism g after.heap scope.chain after'.heap scope'.chain) ∧
      after.heap.Serves Native.IsBuiltin scope ∧ after'.heap.Serves Native.IsBuiltin scope' :=
  execute_agrees rfl trivial (match_of_isomorphism h h' hf) line hrun hrun'

/-! ### A graph in two layouts -/

/-- A heap with a root scope that binds `x` to a pair that is its own tail. -/
@[irreducible] def Heap.looped : Heap (Action Unit) :=
  (performAll [.symbol (text "x"), .pair ⟨0, 0, 0⟩ ⟨0, 0, 0⟩, .setPart .tail ⟨0, 2, 0⟩ ⟨0, 2, 0⟩,
    .pair ⟨0, 1, 0⟩ ⟨0, 2, 0⟩, .pair ⟨0, 3, 0⟩ ⟨0, 0, 0⟩, .pair ⟨0, 4, 0⟩ ⟨0, 0, 0⟩]
    ([], ⟨0, Number.infinity, #[⟨0, some .nil, some ⟨0, 0, 0⟩⟩], [], 1, false⟩)).2

/-- The same graph, made in another order in a heap that holds a string and a native of the host as
well. -/
@[irreducible] def Heap.loopedElsewhere : Heap (Action Unit) :=
  (performAll [.string (text "y"), .pair ⟨7, 0, 0⟩ ⟨7, 0, 0⟩,
    .setPart .tail ⟨7, 2, 0⟩ ⟨7, 2, 0⟩, .native ⟨text "exit", .custom ()⟩, .symbol (text "x"),
    .pair ⟨7, 4, 0⟩ ⟨7, 2, 0⟩, .pair ⟨7, 5, 0⟩ ⟨7, 0, 0⟩, .pair ⟨7, 6, 0⟩ ⟨7, 0, 0⟩]
    ([], ⟨7, Number.infinity, #[⟨0, some .nil, some ⟨7, 0, 0⟩⟩], [], 1, false⟩)).2

/-- The handles of the graph in one layout, with those in the other. -/
def Heap.loopedNames : List (Handle × Handle) :=
  [(⟨0, 0, 0⟩, ⟨7, 0, 0⟩), (⟨0, 1, 0⟩, ⟨7, 4, 0⟩), (⟨0, 2, 0⟩, ⟨7, 2, 0⟩), (⟨0, 3, 0⟩, ⟨7, 5, 0⟩),
    (⟨0, 4, 0⟩, ⟨7, 6, 0⟩), (⟨0, 5, 0⟩, ⟨7, 7, 0⟩)]

theorem Heap.looped_serves : Heap.looped.Serves Native.IsBuiltin ⟨⟨0, 5, 0⟩⟩ := by
  obtain ⟨past, hrun⟩ : ∃ past, Run 0 Number.infinity past Heap.looped := by
    unfold Heap.looped
    exact ⟨_, (Run.created (create_unbounded 0)).performAll _⟩
  have hscope : Heap.looped.cell? ⟨0, 5, 0⟩ = some (.pair ⟨0, 4, 0⟩ ⟨0, 0, 0⟩) := by
    decide +kernel
  have hframe : Heap.looped.cell? ⟨0, 4, 0⟩ = some (.pair ⟨0, 3, 0⟩ ⟨0, 0, 0⟩) := by
    decide +kernel
  have hnil : Heap.looped.cell? ⟨0, 0, 0⟩ = some .nil := by decide +kernel
  exact hrun.serves_of_closed (by decide +kernel) ⟨_, _, hscope⟩
    ⟨1, .step hscope (.step hframe (.stop hnil rfl)) (.stop hnil rfl)⟩
    (loopedNames.map Prod.fst) (by decide +kernel) (by decide +kernel) (by decide +kernel)

theorem Heap.loopedElsewhere_serves :
    Heap.loopedElsewhere.Serves Native.IsBuiltin ⟨⟨7, 7, 0⟩⟩ := by
  obtain ⟨past, hrun⟩ : ∃ past, Run 7 Number.infinity past Heap.loopedElsewhere := by
    unfold Heap.loopedElsewhere
    exact ⟨_, (Run.created (create_unbounded 7)).performAll _⟩
  have hscope : Heap.loopedElsewhere.cell? ⟨7, 7, 0⟩ = some (.pair ⟨7, 6, 0⟩ ⟨7, 0, 0⟩) := by
    decide +kernel
  have hframe : Heap.loopedElsewhere.cell? ⟨7, 6, 0⟩ = some (.pair ⟨7, 5, 0⟩ ⟨7, 0, 0⟩) := by
    decide +kernel
  have hnil : Heap.loopedElsewhere.cell? ⟨7, 0, 0⟩ = some .nil := by decide +kernel
  exact hrun.serves_of_closed (by decide +kernel) ⟨_, _, hscope⟩
    ⟨1, .step hscope (.step hframe (.stop hnil rfl)) (.stop hnil rfl)⟩
    (loopedNames.map Prod.snd) (by decide +kernel) (by decide +kernel) (by decide +kernel)

/-- The two graphs are the same. -/
theorem Heap.looped_isomorphism :
    IsIsomorphism (fun e => (loopedNames.lookup e).getD e) Heap.looped ⟨0, 5, 0⟩
      Heap.loopedElsewhere ⟨7, 7, 0⟩ :=
  .of_closed (S := (· ∈ loopedNames.map Prod.fst)) (by decide +kernel) (by decide +kernel)
    (by decide +kernel) (by decide +kernel) (by decide +kernel)

/-- A line in each of the heaps. -/
theorem execute_isomorphic_looped : ∃ after after' : Store (Action Unit) Unit Unit,
    (Context.mk ⟨⟨0, 5, 0⟩⟩ ⟨none, some 3⟩).execute
        (.withBuiltins (fun _ _ args => .fail args .typeError) fun _ _ => []) (text "x")
        ⟨Heap.looped, (), [], []⟩ = (.ok (.ok (text "(() . ...)")), after) ∧
      (Context.mk ⟨⟨7, 7, 0⟩⟩ ⟨none, some 3⟩).execute
        (.withBuiltins (fun _ _ args => .fail args .typeError) fun _ _ => []) (text "x")
        ⟨Heap.loopedElsewhere, (), [], []⟩ = (.ok (.ok (text "(() . ...)")), after') ∧
      ∃ g, IsIsomorphism g after.heap ⟨0, 5, 0⟩ after'.heap ⟨7, 7, 0⟩ := by
  -- both lines get a response
  let ctx : Context := ⟨⟨⟨0, 5, 0⟩⟩, ⟨none, some 3⟩⟩
  let ctx' : Context := ⟨⟨⟨7, 7, 0⟩⟩, ⟨none, some 3⟩⟩
  let host : Host (Action Unit) Unit Unit :=
    .withBuiltins (fun _ _ args => .fail args .typeError) fun _ _ => []
  have hresponse : (ctx.respond host (text "x") ⟨Heap.looped, (), [], []⟩).1 =
      .ok (.ok (text "(() . ...)")) := by decide +kernel
  have hresponse' : (ctx'.respond host (text "x") ⟨Heap.loopedElsewhere, (), [], []⟩).1 =
      .ok (.ok (text "(() . ...)")) := by decide +kernel
  have hrun : ctx.respond host (text "x") ⟨Heap.looped, (), [], []⟩ =
      (.ok (.ok (text "(() . ...)")), _) := Prod.ext hresponse rfl
  have hrun' : ctx'.respond host (text "x") ⟨Heap.loopedElsewhere, (), [], []⟩ =
      (.ok (.ok (text "(() . ...)")), _) := Prod.ext hresponse' rfl
  obtain ⟨-, -, ρ, h⟩ :=
    respond_agrees rfl (match_of_isomorphism Heap.looped_serves Heap.loopedElsewhere_serves
      Heap.looped_isomorphism) (text "x") hrun hrun'
  obtain ⟨after, hafter, -⟩ := ctx.execute_of_response host hrun h.wellFormed h.scope_isLive
  obtain ⟨after', hafter', -⟩ :=
    ctx'.execute_of_response host hrun' h.wellFormed' h.symm.scope_isLive
  obtain ⟨-, -, hisomorphic, -⟩ :=
    execute_isomorphic Heap.looped_serves Heap.loopedElsewhere_serves Heap.looped_isomorphism
      (text "x") hafter hafter'
  exact ⟨after, after', hafter, hafter', hisomorphic⟩

/-- **Sessions in two contexts** give the same cycles and log the same, line by line. -/
theorem session_isomorphic (lines : List Text) (h : store.heap.Serves Native.IsBuiltin scope)
    (h' : store'.heap.Serves Native.IsBuiltin scope') {f : Handle → Handle}
    (hf : IsIsomorphism f store.heap scope.chain store'.heap scope'.chain)
    {cycles cycles' : List Cycle} {after : Store (Action χ) ω ν} {after' : Store (Action χ) ω ν'}
    (hrun : lines.mapM ((Context.mk scope limits).execute (Host.withBuiltins custom observe))
      store = (.ok cycles, after))
    (hrun' : lines.mapM ((Context.mk scope' limits).execute (Host.withBuiltins custom' observe'))
      store' = (.ok cycles', after')) :
    cycles' = cycles ∧
      (∃ entries, after.log = entries ++ store.log ∧ after'.log = entries ++ store'.log) ∧
      ∃ g, IsIsomorphism g after.heap scope.chain after'.heap scope'.chain := by
  induction lines generalizing store store' f cycles cycles' with
  | nil =>
    cases hrun
    cases hrun'
    exact ⟨rfl, ⟨[], rfl, rfl⟩, f, hf⟩
  | cons line lines ih =>
    rw [List.mapM_cons] at hrun hrun'
    obtain ⟨cycle, middle, hline, hrun⟩ := Act.exists_of_run_bind hrun
    obtain ⟨rest, _, hrest, ⟨⟩⟩ := Act.exists_of_run_bind hrun
    obtain ⟨cycle', middle', hline', hrun'⟩ := Act.exists_of_run_bind hrun'
    obtain ⟨rest', _, hrest', ⟨⟩⟩ := Act.exists_of_run_bind hrun'
    obtain ⟨rfl, ⟨entries, hlog, hlog'⟩, ⟨g, hg⟩, hserves, hserves'⟩ :=
      execute_agrees rfl trivial (match_of_isomorphism h h' hf) line hline hline'
    obtain ⟨rfl, ⟨later, hlater, hlater'⟩, hiso⟩ := ih hserves hserves' hg hrest hrest'
    refine ⟨rfl, ⟨later ++ entries, ?_, ?_⟩, hiso⟩
    · rw [hlater, hlog, List.append_assoc]
    · rw [hlater', hlog', List.append_assoc]

end Sessions

end ConsoleLisp
