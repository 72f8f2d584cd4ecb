import Mathlib.Logic.IsEmpty.Basic
import ConsoleLisp.Console.Basic
import ConsoleLisp.Proofs.Evaluation.Monitor
import ConsoleLisp.Proofs.Level.Force
import ConsoleLisp.Proofs.Memory.Session

/-!
# The forces on a level

What was seen of the natives of a console, and which forces were taken from the level, is the
history of its forces. `owed` adds up, from the left, the forces that the successful calls of
`rect-apply-force` have given to a rectangle since they were taken last. A `Chronicle` says how the
level changes along such a history: only where a call succeeds and where a force is taken.

Results:
* `Chronicle.bears`: at every moment each rectangle has the force that is owed to it.
* `Chronicle.answered`: what comes of each call.
* **`execute_chronicles`**: what is seen of a cycle is a chronicle of the level.
-/

namespace ConsoleLisp

open Heap

variable {χ σ ν α : Type}

/-! ## Histories of forces -/

/-- What is seen of the natives of a console. -/
abbrev Glimpse (χ σ : Type) := Sighting (ConsoleAction χ) (Stage σ)

/-- An entry in the history of the forces on a level. -/
inductive ForceEntry (χ σ : Type)
  | seen (glimpse : Glimpse χ σ)
  /-- The force on the rectangle with an id is taken. -/
  | taken (id : Text)

/-- The force that a native has given to the rectangle with an id: it is that of a call of
`rect-apply-force` with this id that has succeeded. -/
def Sighting.force? (id : Text) (glimpse : Glimpse χ σ) : Option Vec :=
  match glimpse.deed with
  | .ended (.custom .applyForce) args (.ok (.ok _)) =>
    match glimpse.heap.forceCall? args with
    | some (name, force) => if name = id then some force else none
    | none => none
  | _ => none

/-- What an entry makes of the force that is owed to a rectangle. -/
def ForceEntry.onto (id : Text) (total : Vec) : ForceEntry χ σ → Vec
  | .seen glimpse =>
    match glimpse.force? id with
    | some force => total.add force
    | none => total
  | .taken other => if other = id then .zero else total

/-- The force that is owed to the rectangle with an id: the sum, from zero and from the left, of
what was given to it since its force was taken last. -/
def owed (id : Text) (past : List (ForceEntry χ σ)) : Vec := past.foldl (ForceEntry.onto id) .zero

theorem owed_concat (id : Text) (past : List (ForceEntry χ σ)) (entry : ForceEntry χ σ) :
    owed id (past ++ [entry]) = entry.onto id (owed id past) :=
  List.foldl_concat ..

/-- Each rectangle has the force that is owed to it. -/
def Level.Bears (level : Level) (past : List (ForceEntry χ σ)) : Prop :=
  ∀ rect ∈ level.rects, rect.force = owed rect.id past

/-! ## One entry -/

namespace Level.Bears

variable {level : Level} {past : List (ForceEntry χ σ)}

/-- Something is seen that gives no force to any rectangle of the level. -/
theorem quiet (h : level.Bears past) {glimpse : Glimpse χ σ}
    (hnone : ∀ rect ∈ level.rects, glimpse.force? rect.id = none) :
    level.Bears (past ++ [.seen glimpse]) := by
  intro rect hrect
  rw [owed_concat, ForceEntry.onto, hnone rect hrect]
  exact h rect hrect

section Given

variable {heap : Heap (ConsoleAction χ)} {args value : Handle} {id : Text} {force : Vec}
  {stage : Stage σ} (hcall : heap.forceCall? args = some (id, force))
include hcall

/-- What the success of a call gives. -/
theorem force?_ended (other : Text) :
    (⟨.ended (.custom .applyForce) args (.ok (.ok value)), heap, stage⟩ :
      Glimpse χ σ).force? other = if id = other then some force else none := by
  simp only [Sighting.force?, hcall]

/-- A force is added to the one on its rectangle. -/
theorem applied (h : level.Bears past) : (level.applyForce id force).Bears (past ++
    [.seen ⟨.ended (.custom .applyForce) args (.ok (.ok value)), heap, stage⟩]) := by
  intro rect hrect
  obtain ⟨old, hold, rfl⟩ := List.mem_map.mp hrect
  rw [owed_concat, ForceEntry.onto, force?_ended hcall]
  by_cases hid : old.id = id
  · rw [if_pos hid, if_pos hid.symm]
    exact congrArg (·.add force) (h old hold)
  · rw [if_neg hid, if_neg (Ne.symm hid)]
    exact h old hold

/-- Without such a rectangle nothing changes. -/
theorem unknown (h : level.Bears past) (hrect : level.rect? id = none) : level.Bears (past ++
    [.seen ⟨.ended (.custom .applyForce) args (.ok (.ok value)), heap, stage⟩]) := by
  refine h.quiet fun rect hmem => ?_
  have hid : ¬ (rect.id == id) = true := List.find?_eq_none.mp hrect rect hmem
  rw [force?_ended hcall, if_neg fun heq => hid (beq_iff_eq.mpr heq.symm)]

end Given

/-- The force on a rectangle is taken. -/
theorem take (h : level.Bears past) (id : Text) :
    (level.takeForce id).2.Bears (past ++ [.taken id]) := by
  intro rect hrect
  obtain ⟨old, hold, rfl⟩ := List.mem_map.mp hrect
  rw [owed_concat, ForceEntry.onto]
  by_cases hid : old.id = id
  · rw [if_pos hid, if_pos hid.symm]
  · rw [if_neg hid, if_neg (Ne.symm hid)]
    exact h old hold

end Level.Bears

/-! ## Chronicles -/

/-- The native whose deed it is. -/
def Deed.action {κ : Type} : Deed κ → κ
  | .begun action _ | .ended action _ _ => action

/-- A history of the forces on a level, from one state of the level to another. -/
inductive Chronicle : Level → List (ForceEntry χ σ) → Level → Prop
  | nil (level : Level) : Chronicle level [] level
  /-- Another native begins or ends: the level stays as it is. -/
  | other {glimpse : Glimpse χ σ} {rest : List (ForceEntry χ σ)} {last : Level} :
      glimpse.deed.action ≠ .custom .applyForce → Chronicle glimpse.world.level rest last →
      Chronicle glimpse.world.level (.seen glimpse :: rest) last
  /-- A call, which ends at once. -/
  | call {heap : Heap (ConsoleAction χ)} {args : Handle} {stage : Stage σ} {outcome : Outcome}
      {level last : Level} {messages : List LogEntry} {rest : List (ForceEntry χ σ)} :
      LevelAction.Answers heap args stage.level outcome level messages →
      LevelAction.Runs heap args stage.level outcome level messages →
      Chronicle level rest last →
      Chronicle stage.level
        (.seen ⟨.begun (.custom .applyForce) args, heap, stage⟩ ::
          .seen ⟨.ended (.custom .applyForce) args (.ok outcome), heap, { stage with level }⟩ ::
          rest) last
  /-- The force on a rectangle is taken. -/
  | taken {level last : Level} {id : Text} {rest : List (ForceEntry χ σ)} :
      Chronicle (level.takeForce id).2 rest last → Chronicle level (.taken id :: rest) last

namespace Chronicle

variable {level level' level'' : Level} {entries later past : List (ForceEntry χ σ)}

theorem append (h : Chronicle level entries level') (h' : Chronicle level' later level'') :
    Chronicle level (entries ++ later) level'' := by
  induction h with
  | nil => exact h'
  | other hother _ ih => exact .other hother (ih h')
  | call hanswers hruns _ ih => exact .call hanswers hruns (ih h')
  | taken _ ih => exact .taken (ih h')

/-- At every moment of the history the rectangles bear what is owed to them by then. -/
def Borne (past entries : List (ForceEntry χ σ)) : Prop :=
  ∀ front glimpse later, entries = front ++ .seen glimpse :: later →
    glimpse.world.level.Bears (past ++ (front ++ [.seen glimpse]))

theorem Borne.cons {entry : ForceEntry χ σ}
    (hentry : ∀ glimpse, entry = .seen glimpse → glimpse.world.level.Bears (past ++ [entry]))
    (h : Borne (past ++ [entry]) entries) : Borne past (entry :: entries) := by
  intro front glimpse later hsplit
  cases front with
  | nil =>
    cases hsplit
    exact hentry glimpse rfl
  | cons first front =>
    cases hsplit
    have hrest := h front glimpse later rfl
    rwa [List.append_assoc] at hrest

/-- **What comes of each call**: it ends at once, as `Answers` says, and the level changes only as it
says there. -/
theorem answered (h : Chronicle level entries level') {front later : List (ForceEntry χ σ)}
    {heap : Heap (ConsoleAction χ)} {args : Handle} {stage : Stage σ}
    (hsplit : entries =
      front ++ .seen ⟨.begun (.custom .applyForce) args, heap, stage⟩ :: later) :
    ∃ outcome next messages rest,
      LevelAction.Answers heap args stage.level outcome next messages ∧
      LevelAction.Runs heap args stage.level outcome next messages ∧
      later = .seen ⟨.ended (.custom .applyForce) args (.ok outcome), heap,
        { stage with level := next }⟩ :: rest := by
  induction h generalizing front with
  | nil => cases front <;> cases hsplit
  | other hother _ ih =>
    cases front with
    | nil =>
      cases hsplit
      exact absurd rfl hother
    | cons _ front =>
      cases hsplit
      exact ih rfl
  | call hanswers hruns _ ih =>
    match front, hsplit with
    | [], hsplit =>
      cases hsplit
      exact ⟨_, _, _, _, hanswers, hruns, rfl⟩
    | [_], hsplit => cases hsplit
    | _ :: _ :: front, hsplit =>
      cases hsplit
      exact ih rfl
  | taken _ ih =>
    cases front with
    | nil => cases hsplit
    | cons _ front =>
      cases hsplit
      exact ih rfl

/-- A call that has ended began right before. -/
theorem begun (h : Chronicle level entries level') {front later : List (ForceEntry χ σ)}
    {heap : Heap (ConsoleAction χ)} {args : Handle} {stage : Stage σ}
    {result : Except Fault Outcome} (hsplit : entries =
      front ++ .seen ⟨.ended (.custom .applyForce) args result, heap, stage⟩ :: later) :
    ∃ before stage', front =
      before ++ [.seen ⟨.begun (.custom .applyForce) args, heap, stage'⟩] := by
  induction h generalizing front with
  | nil => cases front <;> cases hsplit
  | other hother _ ih =>
    cases front with
    | nil =>
      cases hsplit
      exact absurd rfl hother
    | cons _ front =>
      cases hsplit
      obtain ⟨before, stage', rfl⟩ := ih rfl
      exact ⟨_ :: before, stage', rfl⟩
  | call _ _ _ ih =>
    match front, hsplit with
    | [], hsplit => cases hsplit
    | [_], hsplit =>
      cases hsplit
      exact ⟨[], _, rfl⟩
    | _ :: _ :: front, hsplit =>
      cases hsplit
      obtain ⟨before, stage', rfl⟩ := ih rfl
      exact ⟨_ :: _ :: before, stage', rfl⟩
  | taken _ ih =>
    cases front with
    | nil => cases hsplit
    | cons _ front =>
      cases hsplit
      obtain ⟨before, stage', rfl⟩ := ih rfl
      exact ⟨_ :: before, stage', rfl⟩

end Chronicle

/-! ## What is seen of an evaluation -/

/-- A native begins in a well-formed heap and on live arguments. -/
def Sighting.IsSound {κ ω : Type} (s : Sighting κ ω) : Prop :=
  ∀ action args, s.deed = .begun action args →
    s.heap.WellFormed ∧ s.heap.isLive args = true

/-- What is seen on the way from one store to another is a chronicle of the level, as long as
natives begin as they should. -/
def Chronicles (s s' : Store (ConsoleAction χ) (Monitored (ConsoleAction χ) (Stage σ)) ν) : Prop :=
  ∃ glimpses, s'.seen = s.seen ++ glimpses ∧ ((∀ x ∈ glimpses, x.IsSound) →
    Chronicle s.world.world.level (glimpses.map .seen) s'.world.world.level)

namespace Chronicles

variable {s s' s'' : Store (ConsoleAction χ) (Monitored (ConsoleAction χ) (Stage σ)) ν}

/-- Neither the sightings nor the level change. -/
theorem quiet (hseen : s'.seen = s.seen) (hlevel : s'.world.world.level = s.world.world.level) :
    Chronicles s s' := by
  refine ⟨[], hseen.trans (List.append_nil _).symm, fun _ => ?_⟩
  rw [hlevel]
  exact .nil _

theorem trans (h : Chronicles s s') (h' : Chronicles s' s'') : Chronicles s s'' := by
  obtain ⟨glimpses, hseen, hchronicle⟩ := h
  obtain ⟨later, hseen', hchronicle'⟩ := h'
  refine ⟨glimpses ++ later, by rw [hseen', hseen, List.append_assoc], fun hsound => ?_⟩
  obtain ⟨hfirst, hrest⟩ := List.forall_mem_append.mp hsound
  rw [List.map_append]
  exact (hchronicle hfirst).append (hchronicle' hrest)

/-- Something quiet has gone before. -/
theorem after_quiet (h : Chronicles s' s'') (hseen : s'.seen = s.seen)
    (hlevel : s'.world.world.level = s.world.world.level) : Chronicles s s'' :=
  (quiet hseen hlevel).trans h

end Chronicles

/-- The same of machines. -/
abbrev Machine.Chronicles
    (m m' : Machine (ConsoleAction χ) (Monitored (ConsoleAction χ) (Stage σ)) ν) : Prop :=
  ConsoleLisp.Chronicles m.store m'.store

/-- Only the heap changes. -/
theorem Chronicles.onHeap (action : HeapM (ConsoleAction χ) α) :
    Across (Chronicles : Store (ConsoleAction χ) (Monitored _ (Stage σ)) ν → _ → Prop)
      (Store.onHeap action) := fun _ => .quiet rfl rfl

theorem spans_chronicles (host : Host (ConsoleAction χ) (Stage σ) ν) :
    Spans host.monitored Machine.Chronicles where
  refl _ := .quiet rfl rfl
  trans h h' := h.trans h'
  application _ _ _ _ _ _ := .quiet rfl rfl
  lowered _ _ := .quiet rfl rfl

section Calls

variable {ev : Scope → Handle →
  Session (ConsoleAction χ) (Monitored (ConsoleAction χ) (Stage σ)) ν Outcome}

/-- Another native begins or ends. -/
theorem chronicles_sighted (m : Machine (ConsoleAction χ) (Monitored (ConsoleAction χ) (Stage σ)) ν)
    (deed : Deed (ConsoleAction χ)) (h : deed.action ≠ .custom .applyForce) :
    Machine.Chronicles m (m.sighted deed) :=
  ⟨[⟨deed, m.store.heap, m.store.world.world⟩], List.reverse_cons, fun _ =>
    @Chronicle.other χ σ ⟨deed, m.store.heap, m.store.world.world⟩ [] _ h (.nil _)⟩

/-- A program that leaves the world alone. -/
theorem run_chronicles (hev : ∀ scope e, Across Machine.Chronicles (ev scope e))
    {p : Program (ConsoleAction χ) (Stage σ) α} (hp : p.Within True False) :
    Across Machine.Chronicles (p.lifted.run ev) := by
  induction p with
  | done | fault => exact fun m => .quiet rfl rfl
  | heap action next ih =>
    exact fun m => (ih (action m.store.heap).1 (hp _)
      { m with store := { m.store with heap := _ } }).after_quiet rfl rfl
  | world => exact hp.1.elim
  | evaluate scope e next ih => exact fun m => (hev scope e m).trans (ih _ (hp.2 _) _)
  | steps next ih => exact fun m => ih m.steps (hp _) m
  | log entry next ih =>
    exact fun m => (ih hp { m with store := { m.store with log := _ } }).after_quiet rfl rfl

/-- The call of a built-in native. -/
theorem builtin_chronicles (host : Host (ConsoleAction χ) (Stage σ) ν)
    (hev : ∀ scope e, Across Machine.Chronicles (ev scope e)) {name : Text} {b : Builtin}
    (hhost : host.procedure (.builtin b) = b.procedure) (scope : Scope) (args : Handle) :
    Across Machine.Chronicles (callNative host.monitored ev ⟨name, .builtin b⟩ scope args) := by
  intro m
  have hother : (.builtin b : ConsoleAction χ) ≠ .custom .applyForce := fun h => by cases h
  have hbegun : Machine.Chronicles m (m.calling host ⟨name, .builtin b⟩ args) :=
    (chronicles_sighted (m.calls host.monitored ⟨name, .builtin b⟩ args) (.begun (.builtin b) args)
      hother).after_quiet rfl rfl
  have hbody := run_chronicles hev (b.made scope args).within
    (m.calling host ⟨name, .builtin b⟩ args)
  rcases hrun : (b.procedure scope args).run.lifted.run ev
    (m.calling host ⟨name, .builtin b⟩ args) with ⟨result, m'⟩
  rw [hrun] at hbody
  have hended := chronicles_sighted m' (.ended (.builtin b) args result) hother
  rw [callNative_monitored (by rw [hhost]; exact hrun)]
  have hall := (hbegun.trans hbody).trans hended
  cases result with
  | error fault => exact hall
  | ok outcome => exact hall.trans (.quiet rfl rfl)

/-- A machine and the same machine under observation. -/
def Beside (seen : List (Glimpse χ σ)) (m : Machine (ConsoleAction χ) (Stage σ) ν)
    (m' : Machine (ConsoleAction χ) (Monitored (ConsoleAction χ) (Stage σ)) ν) : Prop :=
  m = m'.unmonitored ∧ m'.store.seen = seen

theorem lifts_beside (seen : List (Glimpse χ σ)) :
    Lifts (Beside seen : Machine (ConsoleAction χ) (Stage σ) ν → _ → Prop) where
  heap_eq h := h.1 ▸ rfl
  world_eq h := h.1 ▸ rfl
  steps_eq h := h.1 ▸ rfl
  heap _ h := ⟨h.1 ▸ rfl, h.2⟩
  world _ h := ⟨h.1 ▸ rfl, h.2⟩
  log _ h := ⟨h.1 ▸ rfl, h.2⟩

/-- The call of the action on the level. Its two sightings enclose nothing else. -/
theorem applyForce_chronicles (host : Host (ConsoleAction χ) (Stage σ) ν) {name : Text}
    (hhost : host.procedure (.custom .applyForce) = fun _ => LevelAction.applyForceTo)
    (scope : Scope) (args : Handle) :
    Across Machine.Chronicles
      (callNative host.monitored ev ⟨name, .custom .applyForce⟩ scope args) := by
  intro m
  let start := m.calling host ⟨name, .custom .applyForce⟩ args
  let refuse : Scope → Handle → Session (ConsoleAction χ) (Stage σ) ν Outcome :=
    fun _ _ => throw .stackExhausted
  -- the action evaluates nothing, so it does the same beside any evaluator
  have hbeside : InStep (Beside start.store.seen)
      ((LevelAction.applyForceTo args).run.run refuse)
      ((LevelAction.applyForceTo args).run.lifted.run ev) :=
    (lifts_beside _).run (LevelAction.applyForceTo_made args).within False.elim
  obtain ⟨hresult, hafter, hseen⟩ := hbeside start.unmonitored start ⟨rfl, rfl⟩
  rcases hrun : (LevelAction.applyForceTo args).run.lifted.run ev start with ⟨result, m'⟩
  rw [hrun] at hresult hafter hseen
  rw [callNative_monitored (by rw [hhost]; exact hrun)]
  have hall : Machine.Chronicles m (m'.sighted (.ended (.custom .applyForce) args result)) := by
    refine ⟨[⟨.begun (.custom .applyForce) args, m.store.heap, m.store.world.world⟩,
      ⟨.ended (.custom .applyForce) args result, m'.store.heap, m'.store.world.world⟩],
      ?_, fun hsound => ?_⟩
    · have hended : (m'.sighted (.ended (.custom .applyForce) args result)).store.seen =
          m'.store.seen ++ [_] := List.reverse_cons
      have hbegun : start.store.seen = m.store.seen ++ [_] := List.reverse_cons
      rw [hended, hseen, hbegun, List.append_assoc]
      rfl
    · obtain ⟨w, hargs⟩ := hsound _ List.mem_cons_self _ _ rfl
      obtain ⟨outcome, level, messages, hanswers, hruns⟩ :=
        LevelAction.applyForceTo_answers w hargs m.store.world.world.level
      have hends := hruns refuse start.unmonitored rfl rfl
      obtain ⟨rfl⟩ := hresult.symm.trans (congrArg Prod.fst hends)
      have hmachine := hafter.symm.trans (congrArg Prod.snd hends)
      have hheap : m'.store.heap = m.store.heap := congrArg (·.store.heap) hmachine
      have hworld : m'.store.world.world = { m.store.world.world with level := level } :=
        congrArg (·.store.world) hmachine
      show Chronicle m.store.world.world.level _ m'.store.world.world.level
      rw [hheap, hworld]
      exact .call hanswers hruns (.nil level)
  cases result with
  | error fault => exact hall
  | ok outcome => exact ConsoleLisp.Chronicles.trans hall (.quiet rfl rfl)

end Calls

/-! ## What is seen of a cycle -/

section Cycles

variable [IsEmpty χ]
  (custom : χ → Scope → Handle → Procedure (ConsoleAction χ) (Stage σ) Handle)
  (observe : Event → Heap (ConsoleAction χ) → List ν)

theorem evaluateWith_chronicles (limits : Limits) (fuel : Nat) (scope : Scope) (e : Handle) :
    Across Machine.Chronicles
      (evaluateWith (Host.withBuiltins (LevelAction.procedure custom) observe).monitored limits fuel
        scope e) := by
  refine (spans_chronicles _).evaluateWith (fun ev hev native scope args => ?_) limits fuel scope e
  obtain ⟨name, b | _ | action⟩ := native
  · exact builtin_chronicles _ hev rfl scope args
  · exact applyForce_chronicles _ rfl scope args
  · exact isEmptyElim action

theorem evaluate_chronicles (limits : Limits) (scope : Scope) (e : Handle) :
    Across Chronicles (evaluate
      (Host.withBuiltins (LevelAction.procedure custom) observe).monitored limits scope e) := by
  refine .bind (fun _ => .quiet rfl rfl) .trans
    (fun s => evaluateWith_chronicles custom observe limits limits.nesting scope e ⟨s, 0, 0⟩)
    fun outcome s => ?_
  cases outcome <;> exact .quiet rfl rfl

/-- **A cycle.** What is seen of it is a chronicle of the level, as long as natives begin as they
should. -/
theorem execute_chronicles (ctx : Context) (line : Text) :
    Across Chronicles (ctx.execute
      (Host.withBuiltins (LevelAction.procedure custom) observe).monitored line) := by
  rw [Context.execute_eq]
  have hrefl : ∀ s : Store (ConsoleAction χ) (Monitored _ (Stage σ)) ν, Chronicles s s :=
    fun _ => .quiet rfl rfl
  refine .bind hrefl .trans (.bind hrefl .trans (.onHeap _) fun read => ?_) fun cycle =>
    .bind hrefl .trans (.bind hrefl .trans (.onHeap _) fun stats _ => .quiet rfl rfl) fun _ => hrefl
  cases read with
  | error error => exact hrefl
  | ok found =>
    exact .bind hrefl .trans (evaluate_chronicles custom observe ctx.limits ctx.scope found.1)
      fun outcome => .bind hrefl .trans (.onHeap _) fun _ => hrefl

end Cycles

/-! ## Natives begin as they should -/

section Sound

variable (custom : χ → Scope → Handle → Procedure (ConsoleAction χ) (Stage σ) Handle)
  (observe : Event → Heap (ConsoleAction χ) → List ν) {bound : List Binding}
  {store : Store (ConsoleAction χ) (Stage σ) ν}

/-- What begins in an evaluation was called there, at a moment when cells had only been added. -/
theorem evaluateWith_sound {limits : Limits} {scope : Scope} {e : Handle}
    (h : store.heap.Rooted Native.IsStandard scope bound) (he : store.heap.isLive e = true) :
    ∀ x ∈ (evaluateWith (Host.withBuiltins (LevelAction.procedure custom) observe).monitored limits
      limits.nesting scope e ⟨store.monitored, 0, 0⟩).2.store.seen, x.IsSound := by
  intro x hx action args hdeed
  let host := Host.withBuiltins (LevelAction.procedure custom) observe
  obtain ⟨_, w, hwatched⟩ := Session.exists_watched host limits scope e store
  obtain ⟨frame, hscope, -⟩ := h.exists_frame
  have hadditive :=
    (standard_settles custom observe h.wellFormed hscope he h.natives hwatched).intact
  have hstart : Journaled store.watched ⟨store.monitored, 0, 0⟩ :=
    ⟨rfl, rfl, rfl, rfl, fun _ hs => absurd hs List.not_mem_nil⟩
  have hjournaled := (watchedEvaluate_journaled host limits limits.nesting scope e _ _ hstart).2
  rw [hwatched.run_eq] at hjournaled
  obtain ⟨name, hcall⟩ := hjournaled.called x (List.mem_reverse.mp hx) action args hdeed
  obtain ⟨later, past, hsplit⟩ := List.append_of_mem hcall
  exact ⟨(hadditive.moments _ past ⟨later, hsplit.symm⟩ x.heap rfl).wellFormed,
    hadditive.called name args x.heap hcall⟩

/-- **A cycle on a rooted heap.** -/
theorem execute_sound (ctx : Context) (line : Text)
    (h : store.heap.Rooted Native.IsStandard ctx.scope bound) :
    ∀ x ∈ (ctx.execute (Host.withBuiltins (LevelAction.procedure custom) observe).monitored line
      store.monitored).2.seen, x.IsSound := by
  rw [Store.seen, ctx.execute_world]
  rcases hread : Heap.read line store.monitored.heap with ⟨read, heap₁⟩
  obtain ⟨w₁, hadds, hlive⟩ := read_hidden h line hread
  rcases read with fault | error | ⟨e, stop⟩
  · rw [ctx.respond_of_read_fault _ hread]
    exact fun _ hx => absurd hx List.not_mem_nil
  · rw [ctx.respond_of_unreadable _ hread]
    exact fun _ hx => absurd hx List.not_mem_nil
  · rw [ctx.respond_world _ hread, Context.evaluate_world]
    let store₁ : Store (ConsoleAction χ) (Stage σ) ν := { store with heap := heap₁ }
    have h₁ : store₁.heap.Rooted Native.IsStandard ctx.scope bound := h.adds w₁ hadds
    exact evaluateWith_sound custom observe h₁ (hlive e stop rfl).1

end Sound

end ConsoleLisp
