import ConsoleLisp.Proofs.Evaluation.Additive
import ConsoleLisp.Proofs.Layout.Actions
import ConsoleLisp.Proofs.Layout.Looking

/-!
# Procedures on two layouts

Two sessions are compared step by step. `Comparison.Holds` says that their machines are alike: the
heaps match, as many steps are counted and as many applications open, and the same entries have been
logged since the comparison began. `Comparison.Ends` is what is to be shown of two procedures run
from such machines.

Results:
* **`Ends.bind`**: a sequence ends as its parts do.
* `Ends.onHeap`, `Ends.look_bind`, `Ends.arguments_bind`, `Ends.evaluateAll`: what natives are made
  of.
-/

namespace ConsoleLisp

open Heap Procedure

/-- What two sessions are compared for: the layouts of their heaps, the limits of both, how the worlds
of their hosts are related, and the logs they began with. -/
structure Comparison (κ ω : Type) extends Layouts κ where
  limits : Limits
  world : ω → ω → Prop
  log : List LogEntry
  log' : List LogEntry

variable {κ ω ν ν' α β γ δ : Type}

/-- At every moment of a journal the heap was well formed and the scope could be walked. -/
def SoundPast (scope : Scope) (journal : List (Moment κ)) : Prop :=
  ∀ moment ∈ journal, ∀ heap ∈ moment.heap?, heap.WellFormed ∧ heap.ScopeEnds scope.chain

theorem SoundPast.nil (scope : Scope) : SoundPast scope ([] : List (Moment κ)) := by
  intro moment hm
  cases hm

theorem SoundPast.record {scope : Scope} {journal : List (Moment κ)} (h : SoundPast scope journal)
    {heap : Heap κ} (w : heap.WellFormed) (hends : heap.ScopeEnds scope.chain) {moment : Moment κ}
    (hheap : moment.heap? = none ∨ moment.heap? = some heap) :
    SoundPast scope (moment :: journal) := by
  refine List.forall_mem_cons.mpr ⟨fun heap' hmoment => ?_, h⟩
  rcases hheap with hnone | hsome
  · cases hnone.symm.trans hmoment
  · cases hsome.symm.trans hmoment
    exact ⟨w, hends⟩

namespace Comparison

/-- The machines of two sessions are alike. -/
structure Holds (c : Comparison κ ω) (ρ : Matching) (w w' : Machine κ ω (Moment κ)) : Prop where
  heap : c.Match ρ w.store.heap w'.store.heap
  world : c.world w.store.world w'.store.world
  log : ∃ entries, w.store.log = entries ++ c.log ∧ w'.store.log = entries ++ c.log'
  depth_eq : w'.depth = w.depth
  steps_eq : w'.steps = w.steps
  past : SoundPast c.scope w.store.journal
  past' : SoundPast c.scope' w'.store.journal

/-- Two runs on machines. The same applications are open after a part of the first as before it.
Without a depth limit there are the faults of a machine that has no room left. -/
def machines (c : Comparison κ ω) : Regime (Machine κ ω (Moment κ)) where
  holds := c.Holds
  since w w' := w'.depth = w.depth ∧ c.heaps.since w.store.heap w'.store.heap
  allows fault := c.heaps.allows fault ∨ c.limits.depth = none ∧ fault = .stackExhausted
  refl w := ⟨rfl, c.heaps.refl w.store.heap⟩
  trans h h' := ⟨h'.1.trans h.1, c.heaps.trans h.2 h'.2⟩

/-- How two procedures may end: with results that agree, or one of them in a fault. -/
abbrev Ends (c : Comparison κ ω) (P : Matching → α → β → Prop) (ρ : Matching)
    (w : Machine κ ω (Moment κ)) (x : Except Fault (Except Failure α) × Machine κ ω (Moment κ))
    (y : Except Fault (Except Failure β) × Machine κ ω (Moment κ)) : Prop :=
  c.machines.Ends (Concur P) ρ w x y

/-- The evaluators do alike where `depth` applications are open. -/
def Evaluates (c : Comparison κ ω) (depth : Nat)
    (ev ev' : Scope → Handle → Session κ ω (Moment κ) Outcome) : Prop :=
  ∀ ρ w w' e e', w.depth = depth → c.Holds ρ w w' → ρ e e' →
    c.Ends Matched ρ w (ev c.scope e w) (ev' c.scope' e' w')

/-- The natives of the heaps do alike on matched arguments. -/
def Respects (c : Comparison κ ω) (host : Host κ ω ν) (host' : Host κ ω ν') : Prop :=
  ∀ native, c.native native →
    ∀ (depth : Nat) (ev ev' : Scope → Handle → Session κ ω (Moment κ) Outcome) (ρ : Matching)
      (w w' : Machine κ ω (Moment κ)) (args args' : Handle),
      c.Evaluates depth ev ev' → w.depth = depth → c.Holds ρ w w' → ρ args args' →
      c.Ends Matched ρ w (exec ev (host.procedure native.action c.scope args) w)
        (exec ev' (host'.procedure native.action c.scope' args') w')

variable {c : Comparison κ ω} {ρ ρ' : Matching} {w w' t t' : Machine κ ω (Moment κ)}

/-- The heaps have changed. -/
theorem Holds.setHeap {heap heap' : Heap κ} (h : c.Holds ρ w w') (hheap : c.Match ρ' heap heap') :
    c.Holds ρ' { w with store := { w.store with heap := heap } }
      { w' with store := { w'.store with heap := heap' } } :=
  ⟨hheap, h.world, h.log, h.depth_eq, h.steps_eq, h.past, h.past'⟩

/-! ## Parts of native procedures -/

namespace Ends

variable {P : Matching → α → β → Prop} {Q : Matching → γ → δ → Prop}
  {ev ev' : Scope → Handle → Session κ ω (Moment κ) Outcome}

theorem pure {a : α} {b : β} (h : c.Holds ρ w w') (hab : P ρ a b) :
    c.Ends P ρ w (exec ev (pure a) w) (exec ev' (pure b) w') :=
  .returned (le_refl ρ) h (c.machines.refl w) (.ok hab)

theorem fail {payload payload' : Handle} {code : FailureCode} (h : c.Holds ρ w w')
    (hp : ρ payload payload') :
    c.Ends P ρ w (exec ev (fail payload code) w) (exec ev' (fail payload' code) w') :=
  .returned (le_refl ρ) h (c.machines.refl w) (.error code hp)

/-- **A sequence ends as its parts do**: a failure or a fault of the first part is its end. -/
theorem bind {p : Procedure κ ω α} {q : Procedure κ ω β} {f : α → Procedure κ ω γ}
    {g : β → Procedure κ ω δ} (h : c.Ends P ρ w (exec ev p w) (exec ev' q w'))
    (hk : ∀ ρ₁ a b w₁ w₁', ρ ≤ ρ₁ → c.Holds ρ₁ w₁ w₁' → c.machines.since w w₁ → P ρ₁ a b →
      c.Ends Q ρ₁ w₁ (exec ev (f a) w₁) (exec ev' (g b) w₁')) :
    c.Ends Q ρ w (exec ev (p >>= f) w) (exec ev' (q >>= g) w') := by
  rw [exec_bind, exec_bind]
  generalize exec ev p w = left at h
  generalize exec ev' q w' = right at h
  cases h with
  | returned hρ h hs hagree =>
    cases hagree with
    | ok hab => exact (hk _ _ _ _ _ hρ h hs hab).since hρ hs
    | error code hp => exact .returned hρ h hs (.error code hp)
  | left h hfault => exact .left h hfault
  | right h hfault => rcases left with ⟨_ | _ | _, _⟩ <;> exact .right h hfault

/-- Both runs look at their heaps and go on. -/
theorem look_bind {f : Heap κ → Except Fault α} {f' : Heap κ → Except Fault β}
    {g : α → Procedure κ ω γ} {g' : β → Procedure κ ω δ} {a : α} {b : β}
    (hf : f w.store.heap = .ok a) (hf' : f' w'.store.heap = .ok b)
    (hk : c.Ends Q ρ w (exec ev (g a) w) (exec ev' (g' b) w')) :
    c.Ends Q ρ w (exec ev (look f >>= g) w) (exec ev' (look f' >>= g') w') := by
  rw [exec_bind_ok (exec_look hf), exec_bind_ok (exec_look hf')]
  exact hk

/-- Two actions on the heaps. -/
theorem onHeap {action : HeapM κ α} {action' : HeapM κ β} (h : c.Holds ρ w w')
    (hx : c.heaps.Ends P ρ w.store.heap (action w.store.heap) (action' w'.store.heap)) :
    c.Ends P ρ w (exec ev (onHeap action) w) (exec ev' (onHeap action') w') := by
  rcases hrun : action w.store.heap with ⟨result, heap⟩
  rcases hrun' : action' w'.store.heap with ⟨result', heap'⟩
  rw [hrun, hrun'] at hx
  cases hx with
  | returned hρ hheap hs hab =>
    rw [exec_onHeap hrun, exec_onHeap hrun']
    exact .returned hρ (h.setHeap hheap) ⟨rfl, hs⟩ (.ok hab)
  | left hheap hfault =>
    rw [exec_onHeap_error hrun]
    exact .left (h.setHeap hheap) (.inl hfault)
  | right hheap hfault =>
    rw [exec_onHeap_error hrun']
    exact .right (h.setHeap hheap) (.inl hfault)

theorem log {level : LogLevel} {message : Text} (h : c.Holds ρ w w') :
    c.Ends Equal ρ w (exec ev (Procedure.log level message) w)
      (exec ev' (Procedure.log level message) w') := by
  obtain ⟨entries, hlog, hlog'⟩ := h.log
  have hentries : ∃ entries, ⟨level, message⟩ :: w.store.log = entries ++ c.log ∧
      ⟨level, message⟩ :: w'.store.log = entries ++ c.log' :=
    ⟨⟨level, message⟩ :: entries, congrArg _ hlog, congrArg _ hlog'⟩
  rw [exec_log, exec_log]
  exact .returned (le_refl ρ) ⟨h.heap, h.world, hentries, h.depth_eq, h.steps_eq, h.past, h.past'⟩
    ⟨rfl, c.heaps.refl w.store.heap⟩ (.ok rfl)

/-- An action on worlds that it leaves related. -/
theorem onWorld {action : StateM ω α} (h : c.Holds ρ w w')
    (hx : (action w.store.world).1 = (action w'.store.world).1 ∧
      c.world (action w.store.world).2 (action w'.store.world).2) :
    c.Ends Equal ρ w (exec ev (onWorld action) w) (exec ev' (onWorld action) w') :=
  .returned (le_refl ρ) ⟨h.heap, hx.2, h.log, h.depth_eq, h.steps_eq, h.past, h.past'⟩
    ⟨rfl, c.heaps.refl w.store.heap⟩ (.ok hx.1)

variable {depth : Nat}

theorem evaluate (hev : c.Evaluates depth ev ev') (hd : w.depth = depth) (h : c.Holds ρ w w')
    {e e' : Handle} (he : ρ e e') :
    c.Ends Matched ρ w (exec ev (Procedure.evaluate c.scope e) w)
      (exec ev' (Procedure.evaluate c.scope' e') w') := by
  rw [exec_evaluate, exec_evaluate]
  exact hev ρ w w' e e' hd h he

/-- The items of matched argument lists, which leave the machines as they are. -/
theorem arguments_bind {args args' : Handle} {arity : Arity} {f : List Handle → Procedure κ ω γ}
    {g : List Handle → Procedure κ ω δ} (h : c.Holds ρ w w') (hargs : ρ args args')
    (hk : ∀ items items', MatchedAll ρ items items' →
      c.Ends Q ρ w (exec ev (f items) w) (exec ev' (g items') w')) :
    c.Ends Q ρ w (exec ev (arguments args arity >>= f) w)
      (exec ev' (arguments args' arity >>= g) w') := by
  obtain ⟨split, split', hsplit, hsplit', hagree⟩ := h.heap.splitArguments hargs arity
  unfold arguments
  rw [bind_assoc, bind_assoc]
  refine .look_bind hsplit hsplit' ?_
  cases hagree with
  | ok hitems => exact hk _ _ hitems
  | error code hp => exact .fail h hp

theorem evaluateAll (hev : c.Evaluates depth ev ev') (hd : w.depth = depth) (h : c.Holds ρ w w')
    {items items' : List Handle} (hitems : MatchedAll ρ items items') :
    c.Ends MatchedAll ρ w (exec ev (Procedure.evaluateAll c.scope items) w)
      (exec ev' (Procedure.evaluateAll c.scope' items') w') := by
  induction items generalizing ρ w w' items' with
  | nil =>
    cases hitems
    exact .pure h .nil
  | cons e rest ih =>
    obtain - | ⟨he, hrest⟩ := hitems
    refine .bind (.evaluate hev hd h he) fun ρ₁ value value' w₁ w₁' hρ₁ h₁ hs₁ hvalue => ?_
    refine .bind (ih (hs₁.1.trans hd) h₁ (MatchedAll.mono hrest hρ₁))
      fun ρ₂ values values' w₂ w₂' hρ₂ h₂ _ hvalues => ?_
    exact .pure h₂ (.cons (hρ₂ _ _ hvalue) hvalues)

end Ends

end Comparison

end ConsoleLisp
