import ConsoleLisp.Context
import ConsoleLisp.Proofs.Heap.Collection
import ConsoleLisp.Proofs.Evaluation.Lockstep

/-!
# One cycle of a context

A line is read, evaluated and printed, and then what the root scope does not reach is collected.
`Context.respond` is a cycle without its collection. A cycle that a fault ends stops where the fault
occurs, and then nothing is collected.

Results:
* `execute_eq`: a cycle is a response and a collection.
* `respond_of_unreadable`, `respond_of_evaluated`: lines that get a response.
* **`execute_of_response`**, `exists_response`: cycles that return.
* `execute_world`, `respond_world`: what a cycle leaves of the world.
* **`Abreast.execute`**: two cycles are in step when their evaluations are.
-/

namespace ConsoleLisp

open Heap

variable {κ ω ν α : Type}

/-- What a cycle gives for an outcome, once its subject is printed. -/
def Cycle.ofOutcome (output : Text) : Outcome → Cycle
  | .ok _ => .ok output
  | .error failure => .evalError output failure.code

namespace Context

/-- Read, evaluate and print. -/
def respond (ctx : Context) (host : Host κ ω ν) (line : Text) : StoreM κ ω ν Cycle := do
  match ← Store.onHeap (Heap.read line) with
  | .error error => return .parseError error.message error.location
  | .ok (e, _) =>
    let outcome ← ctx.evaluate host e
    let output ← Store.onHeap (Heap.view (·.format outcome.subject))
    return .ofOutcome output outcome

/-- **A cycle is a response and a collection.** -/
theorem execute_eq (ctx : Context) (host : Host κ ω ν) (line : Text) :
    ctx.execute host line = (do
      let cycle ← ctx.respond host line
      let _ ← ctx.collect host []
      return cycle) := by
  unfold execute respond
  rw [bind_assoc]
  refine congrArg _ (funext fun read => ?_)
  cases read with
  | error error => rfl
  | ok found =>
    dsimp only
    rw [bind_assoc]
    refine congrArg _ (funext fun outcome => ?_)
    rw [bind_assoc]
    refine congrArg _ (funext fun output => ?_)
    cases outcome <;> rfl

/-- The collection behind a line. -/
theorem collect_spec (ctx : Context) (host : Host κ ω ν) {store : Store κ ω ν}
    (w : store.heap.WellFormed) (hroot : store.heap.isLive ctx.scope.chain = true) :
    ∃ stats after, ctx.collect host [] store = (.ok stats, after) ∧ after.heap.WellFormed ∧
      store.heap.Collects [ctx.scope.chain] after.heap ∧ after.log = store.log := by
  have hroots : ∀ e ∈ [ctx.scope.chain], store.heap.isLive e = true :=
    List.forall_mem_singleton.mpr hroot
  obtain ⟨freed, heap', hrun, w', hcollects, -⟩ := Heap.collect_spec w hroots
  exact ⟨_, _, (Act.run_bind_ok (Store.run_onHeap hrun)).trans rfl, w', hcollects, rfl⟩

section Cycles

variable (ctx : Context) (host : Host κ ω ν) {line : Text} {store store₂ : Store κ ω ν}
  {heap₁ : Heap κ} {fault : Fault} {e : Handle} {stop : Nat} {cycle : Cycle}

/-- A heap that is full while a line is read ends the cycle. -/
theorem respond_of_read_fault (h : Heap.read line store.heap = (.error fault, heap₁)) :
    ctx.respond host line store = (.error fault, { store with heap := heap₁ }) :=
  Act.run_bind_error (Store.run_onHeap_error h)

/-- A line that cannot be read is reported. -/
theorem respond_of_unreadable {error : ReadError}
    (h : Heap.read line store.heap = (.ok (.error error), heap₁)) :
    ctx.respond host line store =
      (.ok (.parseError error.message error.location), { store with heap := heap₁ }) :=
  Act.run_bind_ok (Store.run_onHeap h)

/-- A fault of the evaluation ends the cycle. -/
theorem respond_of_evaluate_fault (h : Heap.read line store.heap = (.ok (.ok (e, stop)), heap₁))
    (heval : ConsoleLisp.evaluate host ctx.limits ctx.scope e { store with heap := heap₁ } =
      (.error fault, store₂)) :
    ctx.respond host line store = (.error fault, store₂) := by
  rw [respond, Act.run_bind_ok (Store.run_onHeap h)]
  exact Act.run_bind_error heval

/-- A line that is evaluated is printed. -/
theorem respond_of_evaluated (h : Heap.read line store.heap = (.ok (.ok (e, stop)), heap₁))
    {outcome : Outcome}
    (heval : ConsoleLisp.evaluate host ctx.limits ctx.scope e { store with heap := heap₁ } =
      (.ok outcome, store₂)) {output : Text}
    (hformat : store₂.heap.format outcome.subject = .ok output) :
    ctx.respond host line store = (.ok (.ofOutcome output outcome), store₂) := by
  have hview : (Heap.view (·.format outcome.subject)) store₂.heap = (.ok output, store₂.heap) :=
    congrArg (·, store₂.heap) hformat
  rw [respond, Act.run_bind_ok (Store.run_onHeap h)]
  exact (Act.run_bind_ok heval).trans (Act.run_bind_ok (Store.run_onHeap hview))

/-- A cycle that a fault ends collects nothing. -/
theorem execute_of_fault (h : ctx.respond host line store = (.error fault, store₂)) :
    ctx.execute host line store = (.error fault, store₂) := by
  rw [execute_eq]
  exact Act.run_bind_error h

/-- **A line with a response** returns it, and what the root scope does not reach is collected. -/
theorem execute_of_response (h : ctx.respond host line store = (.ok cycle, store₂))
    (w : store₂.heap.WellFormed) (hroot : store₂.heap.isLive ctx.scope.chain = true) :
    ∃ after, ctx.execute host line store = (.ok cycle, after) ∧ after.heap.WellFormed ∧
      store₂.heap.Collects [ctx.scope.chain] after.heap ∧ after.log = store₂.log := by
  obtain ⟨stats, after, hrun, hafter⟩ := ctx.collect_spec host w hroot
  refine ⟨after, ?_, hafter⟩
  rw [execute_eq, Act.run_bind_ok h]
  exact Act.run_bind_ok hrun

/-- A cycle that returns had a response. -/
theorem exists_response {after : Store κ ω ν}
    (h : ctx.execute host line store = (.ok cycle, after)) :
    ∃ store₂, ctx.respond host line store = (.ok cycle, store₂) := by
  rw [execute_eq] at h
  obtain ⟨cycle', store₂, hrun, h⟩ := Act.exists_of_run_bind h
  obtain ⟨_, _, -, ⟨⟩⟩ := Act.exists_of_run_bind h
  exact ⟨store₂, hrun⟩

end Cycles

/-! ## The world of a cycle

Only natives reach the world, so a cycle leaves the world that its evaluation leaves. -/

section World

/-- The world is as it was. -/
abbrev KeepsWorld (s s' : Store κ ω ν) : Prop := s'.world = s.world

theorem KeepsWorld.refl (s : Store κ ω ν) : KeepsWorld s s := Eq.refl s.world

theorem KeepsWorld.trans {s s' s'' : Store κ ω ν} (h : KeepsWorld s s') (h' : KeepsWorld s' s'') :
    KeepsWorld s s'' := Eq.trans h' h

variable (ctx : Context) (host : Host κ ω ν) {line : Text} {store : Store κ ω ν}

/-- A collection leaves it. -/
theorem execute_world :
    (ctx.execute host line store).2.world = (ctx.respond host line store).2.world := by
  rw [execute_eq]
  refine Across.tail KeepsWorld.refl _ (fun cycle => ?_) store
  have hcollect : Across KeepsWorld (ctx.collect host []) :=
    .bind KeepsWorld.refl .trans (fun _ => rfl) fun _ _ => rfl
  exact .bind KeepsWorld.refl .trans hcollect fun _ _ => rfl

/-- So does the reader. -/
theorem respond_world {e : Handle} {stop : Nat} {heap₁ : Heap κ}
    (h : Heap.read line store.heap = (.ok (.ok (e, stop)), heap₁)) :
    (ctx.respond host line store).2.world =
      (ConsoleLisp.evaluate host ctx.limits ctx.scope e { store with heap := heap₁ }).2.world := by
  rw [respond, Act.run_bind_ok (Store.run_onHeap h)]
  refine Across.tail KeepsWorld.refl _ (fun outcome => ?_) _
  exact .bind KeepsWorld.refl .trans (fun _ => rfl) fun _ _ => rfl

/-- And so does the event of a failure. -/
theorem evaluate_world (limits : Limits) (scope : Scope) (e : Handle) :
    (ConsoleLisp.evaluate host limits scope e store).2.world =
      (evaluateWith host limits limits.nesting scope e ⟨store, 0, 0⟩).2.store.world := by
  refine Across.tail KeepsWorld.refl _ (fun outcome _ => ?_) store
  cases outcome <;> rfl

end World

end Context

/-! ## Two cycles in step -/

section Abreast

variable {ω' ν' : Type} {host : Host κ ω ν} {host' : Host κ ω' ν'}
  {T : Store κ ω ν → Store κ ω' ν' → Prop}

/-- Stores that are related look alike to a cycle, and stay related when it changes the heap or
notes an event. -/
structure Abreast (host : Host κ ω ν) (host' : Host κ ω' ν')
    (T : Store κ ω ν → Store κ ω' ν' → Prop) : Prop where
  heap_eq {s : Store κ ω ν} {t : Store κ ω' ν'} : T s t → s.heap = t.heap
  heap {s : Store κ ω ν} {t : Store κ ω' ν'} (heap : Heap κ) : T s t →
    T { s with heap := heap } { t with heap := heap }
  note {s : Store κ ω ν} {t : Store κ ω' ν'} (event : Event) : T s t →
    T (s.note host event) (t.note host' event)

namespace Abreast

variable (a : Abreast host host' T)
include a

theorem onHeap (action : HeapM κ α) : InStep T (Store.onHeap action) (Store.onHeap action) := by
  rintro ⟨heap, world, log, journal⟩ ⟨_, world', log', journal'⟩ h
  cases a.heap_eq h
  exact ⟨rfl, a.heap (action heap).2 h⟩

theorem noted (event : Event) :
    InStep T (modify (Store.note host event)) (modify (Store.note host' event)) :=
  fun _ _ h => ⟨rfl, a.note event h⟩

/-- Evaluations from outside are in step when those of machines are. -/
theorem evaluate {S : Machine κ ω ν → Machine κ ω' ν' → Prop} {limits : Limits} {scope : Scope}
    {e : Handle} (h : InStep S (evaluateWith host limits limits.nesting scope e)
      (evaluateWith host' limits limits.nesting scope e))
    (hbegin : ∀ s t, T s t → S ⟨s, 0, 0⟩ ⟨t, 0, 0⟩) (hend : ∀ m m', S m m' → T m.store m'.store) :
    InStep T (evaluate host limits scope e) (evaluate host' limits scope e) := by
  refine InStep.bind (fun s t hst => ?_) fun outcome => ?_
  · obtain ⟨hresult, hafter⟩ := h _ _ (hbegin s t hst)
    exact ⟨hresult, hend _ _ hafter⟩
  · cases outcome with
    | ok value => exact .pure _
    | error failure => exact (a.noted _).bind fun _ => .pure _

theorem respond (ctx : Context) (line : Text)
    (h : ∀ e, InStep T (ConsoleLisp.evaluate host ctx.limits ctx.scope e)
      (ConsoleLisp.evaluate host' ctx.limits ctx.scope e)) :
    InStep T (ctx.respond host line) (ctx.respond host' line) := by
  refine (a.onHeap _).bind fun read => ?_
  cases read with
  | error error => exact .pure _
  | ok found =>
    exact (h found.1).bind fun outcome => (a.onHeap _).bind fun _ => .pure _

theorem collect (ctx : Context) (extraRoots : List Handle) :
    InStep T (ctx.collect host extraRoots) (ctx.collect host' extraRoots) :=
  (a.onHeap _).bind fun stats => (a.noted _).bind fun _ => .pure stats

/-- **Cycles are in step when their evaluations are.** -/
theorem execute (ctx : Context) (line : Text)
    (h : ∀ e, InStep T (ConsoleLisp.evaluate host ctx.limits ctx.scope e)
      (ConsoleLisp.evaluate host' ctx.limits ctx.scope e)) :
    InStep T (ctx.execute host line) (ctx.execute host' line) := by
  rw [Context.execute_eq, Context.execute_eq]
  exact (a.respond ctx line h).bind fun cycle => (a.collect ctx []).bind fun _ => .pure cycle

end Abreast

end Abreast

end ConsoleLisp
