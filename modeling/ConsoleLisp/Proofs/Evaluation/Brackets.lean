import ConsoleLisp.Proofs.Evaluation.Monitor
import ConsoleLisp.Proofs.Memory.Session

/-!
# What a host is told of a cycle

The events that a host is told of are those of calls and returns, one for a failure and one for the
collection. `Bracketed` compares the calls and returns with what was seen of the natives themselves:
when no native throws, every call is followed by its return, with well bracketed events in between,
and the return carries the name of the call and the outcome that the native really had. `Reports`
says the same of the events of a whole cycle.

Results:
* `Bracketed.append`: well bracketed events one after another.
* `evaluateWith_brackets`: the events of an evaluation are well bracketed.
* **`execute_reports`**: the events of a cycle.
-/

namespace ConsoleLisp

variable {κ ω ν α : Type}

/-- A native has thrown. -/
def Deed.isThrow : Deed κ → Bool
  | .ended _ _ (.error _) => true
  | _ => false

/-- An event that a host is told of; the application of a form is none. -/
def Moment.isTold : Moment κ → Bool
  | .noted (.application ..) _ => false
  | .noted .. => true
  | _ => false

/-- The events that a host is told of, in order. -/
def told (journal : List (Moment κ)) : List (Moment κ) := (journal.filter Moment.isTold).reverse

theorem told_append (journal past : List (Moment κ)) :
    told (journal ++ past) = told past ++ told journal := by
  rw [told, List.filter_append, List.reverse_append]
  rfl

/-- Events of calls and returns, and what was seen of the natives meanwhile, both in order. Each
return has the name of its call and the outcome of the native. -/
inductive Bracketed : List (Moment κ) → List (Sighting κ ω) → Prop
  | nil : Bracketed [] []
  | call {native : Native κ} {args : Handle} {outcome : Outcome} {begun ended : Heap κ}
      {world world' : ω} {inner rest : List (Moment κ)} {sightings later : List (Sighting κ ω)} :
      Bracketed inner sightings → Bracketed rest later →
      Bracketed
        (.noted (.call native.name args) begun ::
          (inner ++ .noted (.return native.name outcome) ended :: rest))
        (⟨.begun native.action args, begun, world⟩ ::
          (sightings ++ ⟨.ended native.action args (.ok outcome), ended, world'⟩ :: later))

/-- The events of a cycle, and what was seen of the natives meanwhile. -/
inductive Reports : Cycle → List (Moment κ) → List (Sighting κ ω) → Prop
  /-- The line cannot be read: nothing but the collection. -/
  | unread {message : Text} {location : Location} {stats : Collected} {heap : Heap κ} :
      Reports (.parseError message location) [.noted (.collected stats) heap] []
  /-- The evaluation returns: its calls, then the collection. -/
  | returned {output : Text} {brackets : List (Moment κ)} {sightings : List (Sighting κ ω)}
      {stats : Collected} {heap : Heap κ} : Bracketed brackets sightings →
      Reports (.ok output) (brackets ++ [.noted (.collected stats) heap]) sightings
  /-- The evaluation fails: its calls, then its failure, then the collection. The output of the
  cycle is the payload of the failure, printed, and its code that of the failure. -/
  | failed {output : Text} {failure : Failure} {brackets : List (Moment κ)}
      {sightings : List (Sighting κ ω)} {stats : Collected} {heap heap' : Heap κ} :
      Bracketed brackets sightings → heap.format failure.payload = .ok output →
      Reports (.evalError output failure.code)
        (brackets ++ [.noted (.failed failure) heap, .noted (.collected stats) heap']) sightings

/-- Well bracketed events one after another. -/
theorem Bracketed.append {events later : List (Moment κ)} {sightings later' : List (Sighting κ ω)}
    (h : Bracketed events sightings) (h' : Bracketed later later') :
    Bracketed (events ++ later) (sightings ++ later') := by
  induction h with
  | nil => exact h'
  | call hinner _ _ ih =>
    rw [List.cons_append, List.append_assoc, List.cons_append, List.cons_append, List.append_assoc]
    exact .call hinner ih

/-! ## Evaluations -/

/-- From one store to another, a host is told of these events, and this is seen. -/
structure Tells (events : List (Moment κ)) (sightings : List (Sighting κ ω))
    (s s' : Store κ (Monitored κ ω) (Moment κ)) : Prop where
  told_eq : told s'.journal = told s.journal ++ events
  seen_eq : s'.seen = s.seen ++ sightings

theorem Tells.trans {events later : List (Moment κ)} {sightings later' : List (Sighting κ ω)}
    {s s' s'' : Store κ (Monitored κ ω) (Moment κ)} (h : Tells events sightings s s')
    (h' : Tells later later' s' s'') : Tells (events ++ later) (sightings ++ later') s s'' :=
  ⟨by rw [h'.told_eq, h.told_eq, List.append_assoc],
    by rw [h'.seen_eq, h.seen_eq, List.append_assoc]⟩

/-- A host is told of an event. -/
theorem Tells.note (host : Host κ ω ν) (s : Store κ (Monitored κ ω) (Moment κ)) {event : Event}
    (h : (Moment.noted event s.heap).isTold = true) :
    Tells [.noted event s.heap] [] s (s.note host.watching.monitored event) := by
  refine ⟨?_, (List.append_nil _).symm⟩
  refine (told_append [.noted event s.heap] s.journal).trans ?_
  rw [told, told, List.filter_cons_of_pos h]
  rfl

/-- The events of a machine are well bracketed, unless a native has thrown. -/
def Brackets (m m' : Machine κ (Monitored κ ω) (Moment κ)) : Prop :=
  ∃ events sightings, Tells events sightings m.store m'.store ∧
    ((∀ s ∈ sightings, s.deed.isThrow = false) → Bracketed events sightings)

/-- Neither the journal nor the sightings change. -/
theorem Brackets.quiet {m m' : Machine κ (Monitored κ ω) (Moment κ)}
    (hjournal : told m'.store.journal = told m.store.journal)
    (hseen : m'.store.seen = m.store.seen) : Brackets m m' :=
  ⟨[], [], ⟨hjournal.trans (List.append_nil _).symm, hseen.trans (List.append_nil _).symm⟩,
    fun _ => .nil⟩

theorem Brackets.trans {m m' m'' : Machine κ (Monitored κ ω) (Moment κ)} (h : Brackets m m')
    (h' : Brackets m' m'') : Brackets m m'' := by
  obtain ⟨events, sightings, htells, hbrackets⟩ := h
  obtain ⟨later, later', htells', hbrackets'⟩ := h'
  refine ⟨_, _, htells.trans htells', fun hquiet => ?_⟩
  obtain ⟨hfirst, hrest⟩ := List.forall_mem_append.mp hquiet
  exact (hbrackets hfirst).append (hbrackets' hrest)

/-- Something quiet has gone before. -/
theorem Brackets.after_quiet {m m' m'' : Machine κ (Monitored κ ω) (Moment κ)}
    (h : Brackets m' m'') (hjournal : told m'.store.journal = told m.store.journal)
    (hseen : m'.store.seen = m.store.seen) : Brackets m m'' :=
  (Brackets.quiet hjournal hseen).trans h

theorem spans_brackets (host : Host κ ω ν) :
    Spans host.watching.monitored
      (Brackets : Machine κ (Monitored κ ω) (Moment κ) → Machine κ (Monitored κ ω) _ → Prop) where
  refl _ := .quiet rfl rfl
  trans := .trans
  application _ _ _ _ _ _ := .quiet rfl rfl
  lowered _ _ := .quiet rfl rfl

section Calls

variable {ev : Scope → Handle → Session κ (Monitored κ ω) (Moment κ) Outcome}

/-- A program in a monitored world tells and writes down nothing by itself. -/
theorem run_brackets (hev : ∀ scope e, Across Brackets (ev scope e)) (p : Program κ ω α) :
    Across Brackets (p.lifted.run ev) := by
  induction p with
  | done | fault => exact fun m => .quiet rfl rfl
  | heap action next ih =>
    exact fun m => (ih (action m.store.heap).1
      { m with store := { m.store with heap := _ } }).after_quiet rfl rfl
  | world action next ih =>
    exact fun m => (ih (action m.store.world.world).1 { m with store :=
      { m.store with world := { m.store.world with world := _ } } }).after_quiet rfl rfl
  | evaluate scope e next ih => exact fun m => (hev scope e m).trans (ih _ _)
  | steps next ih => exact fun m => ih m.steps m
  | log entry next ih =>
    exact fun m => (ih { m with store := { m.store with log := _ } }).after_quiet rfl rfl

/-- A call is told, and so is its return unless the native throws. -/
theorem callNative_brackets (host : Host κ ω ν) (hev : ∀ scope e, Across Brackets (ev scope e))
    (native : Native κ) (scope : Scope) (args : Handle) :
    Across Brackets (callNative host.watching.monitored ev native scope args) := by
  intro m
  obtain ⟨events, sightings, htells, hbrackets⟩ := run_brackets hev
    (host.procedure native.action scope args).run (m.calling host.watching native args)
  rcases hrun : (host.procedure native.action scope args).run.lifted.run ev
    (m.calling host.watching native args) with ⟨result, m'⟩
  rw [hrun] at htells
  have hbegun : Tells [.noted (.call native.name args) m.store.heap]
      [⟨.begun native.action args, m.store.heap, m.store.world.world⟩] m.store
      (m.calling host.watching native args).store := by
    refine ⟨(Tells.note host m.store rfl).told_eq, ?_⟩
    exact List.reverse_cons
  have hended : ∀ result, Tells []
      [⟨.ended native.action args result, m'.store.heap, m'.store.world.world⟩] m'.store
      (m'.sighted (.ended native.action args result)).store := fun result =>
    ⟨(List.append_nil _).symm, List.reverse_cons⟩
  rw [callNative_monitored hrun]
  cases result with
  | error fault =>
    refine ⟨_, _, (hbegun.trans htells).trans (hended _), fun hquiet => ?_⟩
    have hthrow := hquiet ⟨.ended native.action args (.error fault), m'.store.heap, _⟩
      (List.mem_append_right _ List.mem_cons_self)
    cases hthrow
  | ok outcome =>
    have hreturn : Tells [.noted (.return native.name outcome) m'.store.heap] [] _ _ :=
      Tells.note host (m'.sighted (.ended native.action args (.ok outcome))).store rfl
    refine ⟨_, _, ((hbegun.trans htells).trans (hended _)).trans hreturn, fun hquiet => ?_⟩
    have hinner : Bracketed events sightings := hbrackets fun s hs => hquiet s
      (List.mem_append_left _ (List.mem_append_left _ (List.mem_append_right _ hs)))
    simpa using @Bracketed.call _ _ native _ _ _ _ _ _ _ _ _ _ hinner .nil

end Calls

/-- **The events of an evaluation are well bracketed**, unless a native throws. -/
theorem evaluateWith_brackets (host : Host κ ω ν) (limits : Limits) (fuel : Nat) (scope : Scope)
    (e : Handle) : Across Brackets (evaluateWith host.watching.monitored limits fuel scope e) :=
  (spans_brackets host).evaluateWith (fun _ hev => callNative_brackets host hev) limits fuel scope e

/-! ## Cycles -/

section Cycles

variable {host : Host κ ω ν} {limits : Limits} {scope : Scope} {e : Handle}
  {s s' : Store κ (Monitored κ ω) (Moment κ)}

/-- What a host is told of the outcome of an evaluation from outside. -/
def Outcome.told (heap : Heap κ) : Outcome → List (Moment κ)
  | .ok _ => []
  | .error failure => [.noted (.failed failure) heap]

/-- An evaluation from outside is told like any other, and then its failure. -/
theorem evaluate_tells {outcome : Outcome}
    (h : evaluate host.watching.monitored limits scope e s = (.ok outcome, s')) :
    ∃ brackets sightings, Tells (brackets ++ outcome.told s'.heap) sightings s s' ∧
      ((∀ x ∈ sightings, x.deed.isThrow = false) → Bracketed brackets sightings) := by
  obtain ⟨brackets, sightings, htells, hbrackets⟩ :=
    evaluateWith_brackets host limits limits.nesting scope e ⟨s, 0, 0⟩
  rcases hrun : evaluateWith host.watching.monitored limits limits.nesting scope e ⟨s, 0, 0⟩ with
    ⟨result, m⟩
  rw [hrun] at htells
  refine ⟨brackets, sightings, ?_, hbrackets⟩
  rcases result with fault | failure | _
  · rw [run_evaluate_error hrun] at h
    cases h
  · rw [run_evaluate hrun] at h
    cases h
    have hfailed : Tells [.noted (.failed failure) m.store.heap] [] m.store _ :=
      Tells.note host m.store rfl
    have hall := htells.trans hfailed
    rwa [List.append_nil] at hall
  · rw [run_evaluate hrun] at h
    cases h
    rwa [Outcome.told, List.append_nil]

/-- The events of a cycle before its collection, and what the collection adds to them. -/
theorem respond_reports {ctx : Context} {line : Text} {cycle : Cycle}
    (h : ctx.respond host.watching.monitored line s = (.ok cycle, s')) :
    ∃ events sightings, Tells events sightings s s' ∧
      ((∀ x ∈ sightings, x.deed.isThrow = false) → ∀ stats heap,
        Reports cycle (events ++ [.noted (.collected stats) heap]) sightings) := by
  rw [Context.respond] at h
  obtain ⟨read, s₁, hread, h⟩ := Act.exists_of_run_bind h
  have hs₁ : { s with heap := (Heap.read line s.heap).2 } = s₁ := congrArg Prod.snd hread
  subst hs₁
  cases read with
  | error error =>
    cases h
    exact ⟨[], [], ⟨(List.append_nil _).symm, (List.append_nil _).symm⟩, fun _ _ _ => .unread⟩
  | ok found =>
    obtain ⟨outcome, s₂, heval, h⟩ := Act.exists_of_run_bind h
    obtain ⟨output, s₃, hview, h⟩ := Act.exists_of_run_bind h
    have hformat : s₂.heap.format outcome.subject = .ok output := congrArg Prod.fst hview
    have hs₃ : s₂ = s₃ := congrArg Prod.snd hview
    subst hs₃
    cases h
    obtain ⟨brackets, sightings, htells, hbrackets⟩ := evaluate_tells heval
    refine ⟨_, _, ⟨htells.told_eq, htells.seen_eq⟩, fun hquiet stats heap => ?_⟩
    cases outcome with
    | ok value =>
      rw [Outcome.told, List.append_nil]
      exact .returned (hbrackets hquiet)
    | error failure =>
      rw [Outcome.told, List.append_assoc]
      exact .failed (hbrackets hquiet) hformat

/-- A collection is told when it has run. -/
theorem Context.collect_tells (ctx : Context) {stats : Collected}
    (h : ctx.collect host.watching.monitored [] s = (.ok stats, s')) :
    Tells [.noted (.collected stats) s'.heap] [] s s' := by
  rw [Context.collect] at h
  obtain ⟨stats', s₁, hcollect, h⟩ := Act.exists_of_run_bind h
  have hs₁ : { s with heap := (Heap.collect [ctx.scope.chain] s.heap).2 } = s₁ :=
    congrArg Prod.snd hcollect
  subst hs₁
  cases h
  let swept := { s with heap := (Heap.collect [ctx.scope.chain] s.heap).2 }
  have hnoted : Tells [.noted (.collected stats) swept.heap] [] swept _ := .note host swept rfl
  exact ⟨hnoted.told_eq, hnoted.seen_eq⟩

/-- **What a host is told of a cycle that returns.** The cycle does the same under observation. When
no native throws meanwhile, the events of calls and returns are well bracketed: each return has the
name of its call, and the outcome that the native returned. Behind them comes the failure, if and
only if the cycle reports one, with the payload that it prints and its code, and the collection is
the last event, also where the line cannot be read. -/
theorem execute_reports (ctx : Context) (host : Host κ ω ν) (line : Text)
    {store after : Store κ ω (Moment κ)} {cycle : Cycle}
    (hrun : ctx.execute host.watching line store = (.ok cycle, after)) :
    ∃ observed events,
      ctx.execute host.watching.monitored line store.monitored = (.ok cycle, observed) ∧
      observed.unmonitored = after ∧ told after.journal = told store.journal ++ events ∧
      ((∀ x ∈ observed.seen, x.deed.isThrow = false) → Reports cycle events observed.seen) := by
  obtain ⟨hresult, hafter⟩ := ctx.execute_unmonitored host.watching line store store.monitored rfl
  rw [hrun] at hresult hafter
  rcases hmonitored : ctx.execute host.watching.monitored line store.monitored with ⟨_, observed⟩
  rw [hmonitored] at hresult hafter
  cases hresult
  rw [Context.execute_eq] at hmonitored
  obtain ⟨cycle', s₁, hrespond, h⟩ := Act.exists_of_run_bind hmonitored
  obtain ⟨stats, s₂, hcollect, h⟩ := Act.exists_of_run_bind h
  cases h
  obtain ⟨events, sightings, htells, hreports⟩ := respond_reports hrespond
  have hcollected := (ctx.collect_tells hcollect)
  have hall := htells.trans hcollected
  have hseen : observed.seen = sightings := by
    rw [hall.seen_eq]
    exact List.append_nil _
  have hunmonitored : after = observed.unmonitored := hafter
  subst hunmonitored
  refine ⟨observed, events ++ [.noted (.collected stats) observed.heap], rfl, rfl, ?_, ?_⟩
  · exact hall.told_eq
  · rw [hseen]
    exact fun hquiet => hreports hquiet stats observed.heap

end Cycles

/-- A call that fails because the form in its arguments has no operator. -/
theorem execute_reports_unbound : ∃ (ctx : Context)
    (host : Host (Action (LevelAction Unit)) (Stage Unit) Unit)
    (store after : Store (Action (LevelAction Unit)) (Stage Unit)
      (Moment (Action (LevelAction Unit))))
    (events : List (Moment (Action (LevelAction Unit))))
    (seen : List (Sighting (Action (LevelAction Unit)) (Stage Unit))),
    ctx.execute host.watching (text "(+ 1 (nope))") store =
      (.ok (.evalError (text "nope") .unboundSymbol), after) ∧
    told after.journal = told store.journal ++ events ∧
    Reports (.evalError (text "nope") .unboundSymbol) events seen ∧ seen.length = 2 := by
  let ctx := Context.standard.1
  let host : Host (Action (LevelAction Unit)) (Stage Unit) Unit :=
    .withBuiltins (LevelAction.procedure fun _ _ args => .fail args .typeError) fun _ _ => []
  let start : Store (Action (LevelAction Unit)) (Stage Unit) (Moment (Action (LevelAction Unit))) :=
    ⟨Context.standard.2, ⟨.empty, ()⟩, [], []⟩
  let line := text "(+ 1 (nope))"
  have hnatives : ∀ n ∈ (Options.default (Action (LevelAction Unit))).natives, n.2.IsStandard :=
    nofun
  obtain ⟨bound, hrooted⟩ := (create_rooted Context.create_standard hnatives).1
  have hanswer : (ctx.respond host.watching line start).1 =
      .ok (.evalError (text "nope") .unboundSymbol) := by
    decide +kernel
  have hrespond : ctx.respond host.watching line start =
      (.ok (.evalError (text "nope") .unboundSymbol), _) := Prod.ext hanswer rfl
  obtain ⟨_, hadvances⟩ := respond_advances _ _ ctx line hrooted hrespond
  obtain ⟨after, hafter, -⟩ := ctx.execute_of_response host.watching hrespond
    hadvances.rooted.wellFormed hadvances.rooted.scope_isLive
  obtain ⟨observed, events, hobserved, -, htold, hreports⟩ := execute_reports ctx host line hafter
  have hseen : observed.seen =
      (ctx.respond host.watching.monitored line start.monitored).2.seen := by
    rw [Store.seen, Store.seen, ← Context.execute_world, hobserved]
  have hquiet : ∀ x ∈ (ctx.respond host.watching.monitored line start.monitored).2.seen,
      x.deed.isThrow = false := by decide +kernel
  have hlength : (ctx.respond host.watching.monitored line start.monitored).2.seen.length = 2 := by
    decide +kernel
  rw [hseen] at hreports
  exact ⟨ctx, host, start, after, events, _, hafter, htold, hreports hquiet, hlength⟩

end ConsoleLisp
