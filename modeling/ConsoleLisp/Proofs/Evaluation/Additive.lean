import ConsoleLisp.Proofs.Evaluation.Conduct
import ConsoleLisp.Proofs.Heap.Looking
import ConsoleLisp.Proofs.Scope.Prepended

/-!
# Evaluations that only add

Natives are arbitrary, but those of a console only add to the heap, and bind in one scope.
`tally` reads off the journal which calls are open and which bindings are complete by now;
`Outset.Additive` says of the heap, now and at every moment before, that it is the one at the outset
with the complete bindings. A machine may owe the journal a binding: it is made, but the native that
made it has not come back.

`Outset.Ends` is what is to be shown of each part of an evaluation: it comes back with a live value
or a live payload, or it ends in one of the faults that the outset allows, and either way the heap
is as `Additive` says.

Results:
* `Additive.record`: what the journal is owed is paid with the moment that records it.
* **`Ends.bind`**: a sequence ends as its parts do.
* `Ends.onHeap`, `Ends.bindScope`, `Ends.evaluateAll`: what natives are made of.
-/

namespace ConsoleLisp

open Heap

variable {κ ω ν α β : Type}

/-- The heap at a moment, when it is recorded. -/
def Moment.heap? : Moment κ → Option (Heap κ)
  | .enters _ heap _ => some heap
  | .noted _ heap => some heap
  | .leaves .. => none

/-- The first argument in an argument list. -/
def Heap.first? (heap : Heap κ) (args : Handle) : Option Handle :=
  ((heap.cell? args).bind Cell.pair?).map Prod.fst

/-- The first argument of each call that is open, the innermost call in front, and the bindings that
are complete, the newest in front. -/
structure Tally where
  calls : List (Option Handle)
  sets : List (Handle × Handle)

/-- The binding that is complete when the innermost call comes back with an outcome. -/
def completes (name : Text) : List (Option Handle) → Outcome → List (Handle × Handle)
  | some symbol :: _, .ok value => if name = Builtin.set.name then [(symbol, value)] else []
  | _, _ => []

/-- The tally of a journal, which has the newest moment in front. -/
def tally : List (Moment κ) → Tally
  | [] => ⟨[], []⟩
  | .noted (.call _ args) heap :: past =>
    ⟨heap.first? args :: (tally past).calls, (tally past).sets⟩
  | .noted (.return name outcome) _ :: past =>
    ⟨(tally past).calls.tail, completes name (tally past).calls outcome ++ (tally past).sets⟩
  | _ :: past => tally past

/-- What an evaluation starts from. -/
structure Outset (κ : Type) where
  heap : Heap κ
  scope : Scope
  limits : Limits

/-- The result of an action is live. -/
abbrev Live (heap : Heap κ) (value : Handle) : Prop := heap.isLive value = true

namespace Outset

variable {o : Outset κ} {owed : List (Handle × Handle)} {heap heap' : Heap κ}
  {journal : List (Moment κ)}

/-- The heap has the complete bindings and those that the journal is owed; so had it at every moment
before, with the bindings that were complete by then. -/
structure Additive (o : Outset κ) (owed : List (Handle × Handle)) (heap : Heap κ)
    (journal : List (Moment κ)) : Prop where
  adds : OnlyAdds o.heap o.scope (owed ++ (tally journal).sets) heap
  moments : ∀ moment past, moment :: past <:+ journal → ∀ h ∈ moment.heap?,
    OnlyAdds o.heap o.scope (tally (moment :: past)).sets h
  /-- Natives are called on live arguments. -/
  called : ∀ name args h, .noted (.call name args) h ∈ journal → h.isLive args = true
  /-- From moment to moment cells are only added. -/
  grows : (heap :: journal.filterMap Moment.heap?).Pairwise fun later earlier =>
    Grows o.scope.chain earlier later

/-- The faults that an evaluation may end in: the heap is full, or the room is spent that there is
without a depth limit. -/
def Allows (o : Outset κ) (fault : Fault) : Prop :=
  fault = o.heap.exhaustion ∨ o.limits.depth = none ∧ fault = .stackExhausted

/-- What an action may rely on after another one: the same applications and calls are open, what was
live is live, and atoms are as they were. -/
structure Since (w w' : Machine κ ω (Moment κ)) : Prop where
  depth_eq : w'.depth = w.depth
  calls_eq : (tally w'.store.journal).calls = (tally w.store.journal).calls
  isLive : ∀ e, w.store.heap.isLive e = true → w'.store.heap.isLive e = true
  atom : ∀ e c, c.pair? = none → w.store.heap.cell? e = some c → w'.store.heap.cell? e = some c

/-- The invariant of a machine. -/
abbrev Intact (o : Outset κ) (owed : List (Handle × Handle)) (w : Machine κ ω (Moment κ)) : Prop :=
  o.Additive owed w.store.heap w.store.journal

/-- How an action from a machine on may end. -/
inductive Ends (o : Outset κ) (owed : α → List (Handle × Handle)) (P : Heap κ → α → Prop)
    (w : Machine κ ω (Moment κ)) :
    Except Fault (Except Failure α) × Machine κ ω (Moment κ) → Prop
  | returned {a : α} {w' : Machine κ ω (Moment κ)} : o.Intact (owed a) w' → Since w w' →
      P w'.store.heap a → Ends o owed P w (.ok (.ok a), w')
  | failed {failure : Failure} {w' : Machine κ ω (Moment κ)} : o.Intact [] w' → Since w w' →
      w'.store.heap.isLive failure.payload = true → Ends o owed P w (.ok (.error failure), w')
  | faulted {fault : Fault} {w' : Machine κ ω (Moment κ)} : o.Intact [] w' → o.Allows fault →
      Ends o owed P w (.error fault, w')

/-- How an action may end that owes the journal nothing. -/
abbrev Settles (o : Outset κ) (P : Heap κ → α → Prop) (w : Machine κ ω (Moment κ)) :
    Except Fault (Except Failure α) × Machine κ ω (Moment κ) → Prop :=
  o.Ends (fun _ => []) P w

/-- The evaluator settles with a live value where `depth` applications are open. -/
def Evaluates (o : Outset κ) (depth : Nat)
    (ev : Scope → Handle → Session κ ω (Moment κ) Outcome) : Prop :=
  ∀ w e, w.depth = depth → o.Intact [] w → w.store.heap.isLive e = true →
    o.Settles Live w (ev o.scope e w)

/-! ## The invariant -/

namespace Additive

/-- The heap and the journal at the outset. -/
theorem init (hw : o.heap.WellFormed) {frame parent : Handle}
    (hscope : o.heap.cell? o.scope.chain = some (.pair frame parent)) :
    o.Additive [] o.heap [] :=
  ⟨.refl hw hscope, fun _ _ h => absurd (List.suffix_nil.mp h) (List.cons_ne_nil _ _), nofun,
    List.pairwise_singleton _ _⟩

/-- The heap grows as it may. -/
theorem grow (h : o.Additive owed heap journal) {owed' : List (Handle × Handle)}
    (hadds : OnlyAdds o.heap o.scope (owed' ++ (tally journal).sets) heap')
    (hg : Grows o.scope.chain heap heap') : o.Additive owed' heap' journal := by
  refine ⟨hadds, h.moments, h.called, ?_⟩
  obtain ⟨hnow, hpast⟩ := List.pairwise_cons.mp h.grows
  exact List.pairwise_cons.mpr ⟨fun earlier hearlier => (hnow earlier hearlier).trans hg, hpast⟩

/-- What the journal is owed is paid with the moment that records it. -/
theorem record (h : o.Additive owed heap journal) {moment : Moment κ}
    (hheap : moment.heap? = none ∨ moment.heap? = some heap)
    (hsets : (tally (moment :: journal)).sets = owed ++ (tally journal).sets)
    (hcalled : ∀ name args h, moment = .noted (.call name args) h → h.isLive args = true) :
    o.Additive [] heap (moment :: journal) := by
  have hnow : OnlyAdds o.heap o.scope (tally (moment :: journal)).sets heap := by
    rw [hsets]
    exact h.adds
  refine ⟨hnow, fun m past hsuffix h' hh' => ?_, fun name args h' hmem => ?_, ?_⟩
  · rcases List.suffix_cons_iff.mp hsuffix with heq | hsuffix
    · cases heq
      rcases hheap with hnone | hsome
      · cases hnone.symm.trans hh'
      · cases hsome.symm.trans hh'
        exact hnow
    · exact h.moments m past hsuffix h' hh'
  · rcases List.mem_cons.mp hmem with heq | hmem
    · exact hcalled name args h' heq.symm
    · exact h.called name args h' hmem
  · rcases hheap with hnone | hsome
    · rw [List.filterMap_cons_none hnone]
      exact h.grows
    · rw [List.filterMap_cons_some hsome]
      refine List.pairwise_cons.mpr ⟨List.forall_mem_cons.mpr ⟨.refl _ heap, ?_⟩, h.grows⟩
      exact (List.pairwise_cons.mp h.grows).1

end Additive

namespace Since

theorem refl (w : Machine κ ω (Moment κ)) : Since w w :=
  ⟨rfl, rfl, fun _ h => h, fun _ _ _ h => h⟩

theorem trans {w w' w'' : Machine κ ω (Moment κ)} (h : Since w w') (h' : Since w' w'') :
    Since w w'' :=
  ⟨h'.depth_eq.trans h.depth_eq, h'.calls_eq.trans h.calls_eq,
    fun e he => h'.isLive e (h.isLive e he), fun e c hp hc => h'.atom e c hp (h.atom e c hp hc)⟩

/-- The heap grows as it may. -/
theorem withHeap {w : Machine κ ω (Moment κ)} {sets : List (Handle × Handle)}
    (h : o.Intact owed w) (hadds : OnlyAdds o.heap o.scope sets heap')
    (hg : Grows o.scope.chain w.store.heap heap') :
    Since w { w with store := { w.store with heap := heap' } } := by
  refine ⟨rfl, rfl, fun e he => hg.isLive hadds.scope_isLive he,
    fun e c hp hc => hg.cell?_mono e c ?_ hc⟩
  -- an atom is not the pair of the scope
  rintro rfl
  obtain ⟨_, _, hscope⟩ := h.adds.exists_pair
  cases hscope.symm.trans hc
  cases hp

end Since

/-! ## Parts of native procedures -/

open Procedure

namespace Ends

variable {w w' : Machine κ ω (Moment κ)} {owed : α → List (Handle × Handle)}
  {P : Heap κ → α → Prop} {ev : Scope → Handle → Session κ ω (Moment κ) Outcome}

theorem pure {a : α} (h : o.Intact (owed a) w) (ha : P w.store.heap a) :
    o.Ends owed P w (exec ev (pure a) w) :=
  .returned h (.refl w) ha

theorem fail {payload : Handle} {code : FailureCode} (h : o.Intact [] w)
    (hp : w.store.heap.isLive payload = true) :
    o.Ends owed P w (exec ev (fail payload code) w) :=
  .failed h (.refl w) hp

theorem of_settles {result : Except Fault (Except Failure α) × Machine κ ω (Moment κ)}
    (h : o.Settles P w result) (howed : ∀ a, owed a = []) : o.Ends owed P w result := by
  rw [show owed = fun _ => [] from funext howed]
  exact h

theorem since {result : Except Fault (Except Failure α) × Machine κ ω (Moment κ)}
    (h : o.Ends owed P w' result) (hs : Since w w') : o.Ends owed P w result := by
  cases h with
  | returned h hs' ha => exact .returned h (hs.trans hs') ha
  | failed h hs' hp => exact .failed h (hs.trans hs') hp
  | faulted h hfault => exact .faulted h hfault

/-- Nothing is owed in the end. -/
theorem intact {result : Except Fault (Except Failure α)} (h : o.Settles P w (result, w')) :
    o.Intact [] w' := by
  cases h <;> assumption

/-- **A sequence ends as its parts do**: a failure or a fault of the first part is its end. -/
theorem bind {p : Procedure κ ω α} {f : α → Procedure κ ω β} {owed : β → List (Handle × Handle)}
    {Q : Heap κ → β → Prop} (hp : o.Settles P w (exec ev p w))
    (hf : ∀ a w', o.Intact [] w' → Since w w' → P w'.store.heap a →
      o.Ends owed Q w' (exec ev (f a) w')) : o.Ends owed Q w (exec ev (p >>= f) w) := by
  rw [exec_bind]
  generalize exec ev p w = result at hp
  cases hp with
  | returned h hs ha => exact (hf _ _ h hs ha).since hs
  | failed h hs hp => exact .failed h hs hp
  | faulted h hfault => exact .faulted h hfault

theorem look_bind {f : Heap κ → Except Fault α} {g : α → Procedure κ ω β} {a : α}
    {owed : β → List (Handle × Handle)} {Q : Heap κ → β → Prop} (h : f w.store.heap = .ok a)
    (hk : o.Ends owed Q w (exec ev (g a) w)) : o.Ends owed Q w (exec ev (look f >>= g) w) := by
  rw [exec_bind_ok (exec_look h)]
  exact hk

/-- An action that only adds to the heap. -/
theorem onHeap {action : HeapM κ α} (h : o.Intact [] w) (hx : Adding action w.store.heap P) :
    o.Settles P w (exec ev (onHeap action) w) := by
  obtain ⟨heap', w', hadds, hx⟩ := hx
  have hgrown := h.adds.grow w' hadds
  have hg := hadds.toExtends.grows o.scope.chain
  rcases hx with ⟨a, hrun, ha⟩ | hrun
  · rw [exec_onHeap hrun]
    exact .returned (h.grow hgrown hg) (.withHeap h hgrown hg) ha
  · rw [exec_onHeap_error hrun]
    exact .faulted (h.grow hgrown hg) (.inl h.adds.exhaustion_eq)

/-- A binding in the scope of the evaluation; the journal is owed it. -/
theorem bindScope {symbol value : Handle} {name : Text} (h : o.Intact [] w)
    (hs : w.store.heap.cell? symbol = some (.symbol name))
    (hv : w.store.heap.isLive value = true) :
    o.Ends (fun bound => [(symbol, bound)]) Live w
      (exec ev (do Procedure.onHeap (o.scope.bind symbol value); return value) w) := by
  obtain ⟨heap', hg, ⟨hrun, hadds⟩ | ⟨hrun, hadds⟩⟩ := h.adds.bind hs hv
  · rw [exec_bind, exec_onHeap_error hrun]
    exact .faulted (h.grow hadds hg) (.inl rfl)
  · rw [exec_bind_ok (exec_onHeap hrun)]
    exact .returned (h.grow hadds hg) (.withHeap h hadds hg) (hg.isLive hadds.scope_isLive hv)

theorem log {level : LogLevel} {message : Text} (h : o.Intact [] w) :
    o.Settles (fun _ _ => True) w (exec ev (log level message) w) :=
  .returned h ⟨rfl, rfl, fun _ he => he, fun _ _ _ hc => hc⟩ trivial

theorem onWorld {action : StateM ω α} (h : o.Intact [] w) :
    o.Settles (fun _ _ => True) w (exec ev (onWorld action) w) :=
  .returned h ⟨rfl, rfl, fun _ he => he, fun _ _ _ hc => hc⟩ trivial

variable {depth : Nat}

theorem evaluate (hev : o.Evaluates depth ev) (hd : w.depth = depth) (h : o.Intact [] w)
    {e : Handle} (he : w.store.heap.isLive e = true) :
    o.Settles Live w (exec ev (Procedure.evaluate o.scope e) w) := by
  rw [exec_evaluate]
  exact hev w e hd h he

/-- The items of an argument list, which leave the machine as it is. -/
theorem arguments_bind {args : Handle} {arity : Arity} {f : List Handle → Procedure κ ω α}
    (h : o.Intact [] w) (hargs : w.store.heap.isLive args = true)
    (hk : ∀ items, w.store.heap.listItems args = .ok (some items) →
      (∀ e ∈ items, w.store.heap.isLive e = true) → o.Ends owed P w (exec ev (f items) w)) :
    o.Ends owed P w (exec ev (arguments args arity >>= f) w) := by
  rcases h.adds.wellFormed.splitArguments_total hargs arity with
    ⟨code, hsplit⟩ | ⟨items, hsplit, -, hitems, hlive⟩
  · rw [exec_bind_error (exec_arguments_error hsplit)]
    exact .failed h (.refl w) hargs
  · rw [exec_bind_ok (exec_arguments hsplit)]
    exact hk items hitems hlive

theorem evaluateAll (hev : o.Evaluates depth ev) (hd : w.depth = depth) (h : o.Intact [] w)
    {items : List Handle} (hitems : ∀ e ∈ items, w.store.heap.isLive e = true) :
    o.Settles (fun heap values => ∀ v ∈ values, heap.isLive v = true) w
      (exec ev (Procedure.evaluateAll o.scope items) w) := by
  induction items generalizing w with
  | nil => exact .pure h nofun
  | cons e rest ih =>
    obtain ⟨he, hrest⟩ := List.forall_mem_cons.mp hitems
    refine .bind (.evaluate hev hd h he) fun value w₁ h₁ hs₁ hvalue => ?_
    refine .bind (ih (hs₁.depth_eq.trans hd) h₁ fun f hf => hs₁.isLive f (hrest f hf))
      fun values w₂ h₂ hs₂ hvalues => ?_
    exact .pure h₂ (List.forall_mem_cons.mpr ⟨hs₂.isLive value hvalue, hvalues⟩)

end Ends

end Outset

end ConsoleLisp
