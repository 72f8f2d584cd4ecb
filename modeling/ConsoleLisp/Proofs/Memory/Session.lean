import ConsoleLisp.Proofs.Evaluation.Cycle
import ConsoleLisp.Proofs.Evaluation.FrameEffect
import ConsoleLisp.Proofs.Evaluation.Safety
import ConsoleLisp.Proofs.Memory.Creation
import ConsoleLisp.Proofs.Memory.Ledger

/-!
# The memory of a session

A line adds cells, among them the bindings of the `set`s that come back while it is evaluated, and
the collection behind it takes away what is not reached from the root scope. A line that a fault ends
is not collected, and what it has bound stays. `Advances` says what a line makes of the heap before
the collection; it is the same for lines that return and lines that do not.

Results:
* **`respond_advances`**: what a line makes of the heap.
* `execute_keeps`: with the collection behind it.
* `since_keeps`: any number of lines, some of which may end in a fault.
* **`session_memory`**: the sessions of a new context.
-/

namespace ConsoleLisp

open Heap

variable {κ χ ω ν σ : Type}

/-- A value does not reach a scope that is hidden. -/
theorem Layouts.Match.not_reach {l : Layouts κ} {ρ : Matching} {heap heap' : Heap κ}
    (h : l.Match ρ heap heap') (hhidden : l.hidden) {e e' : Handle} (he : ρ e e') :
    ¬ Reach heap.cell? [e] l.scope.chain := by
  intro hreach
  have hmatched : ∃ f', ρ l.scope.chain f' := by
    refine hreach.of_closed (P := fun f => ∃ f', ρ f f')
      (List.forall_mem_singleton.mpr ⟨e', he⟩) ?_
    rintro f ⟨f', hf⟩ p hp
    obtain ⟨c, c', hc, -, hmatch⟩ := h.cells f f' hf
    rw [hc] at hp
    cases hmatch with
    | pair hhead htail =>
      cases hp
      exact ⟨⟨_, hhead⟩, _, htail⟩
    | nil | number | symbol | string | native => cases hp
  obtain ⟨f', hf⟩ := hmatched
  exact h.not_matched hhidden f' hf

/-- A scope that is hidden is not below its frame. -/
theorem Layouts.Match.frame_not_reach {l : Layouts κ} {ρ : Matching} {heap heap' : Heap κ}
    (h : l.Match ρ heap heap') (hhidden : l.hidden) {frame parent : Handle}
    (hc : heap.cell? l.scope.chain = some (.pair frame parent)) :
    ¬ Reach heap.cell? [frame] l.scope.chain := by
  obtain ⟨_, _, _, _, hc', -, hmatched, -⟩ := h.frames
  cases hc.symm.trans hc'
  exact h.not_reach hhidden hmatched

/-- Where nothing was bound, cells were added and no more. -/
theorem Heap.OnlyAdds.extends {heap heap' : Heap κ} {scope : Scope}
    (h : OnlyAdds heap scope [] heap') : Extends heap heap' := by
  obtain ⟨old, new, parent, hscope, hscope', hfront⟩ := h.frame
  cases hfront
  refine ⟨h.grows.id_eq, h.grows.maxSlots_eq, fun e c hc => ?_⟩
  by_cases heq : e = scope.chain
  · rw [heq, hscope] at hc
    rw [heq, hscope', hc]
  · exact h.grows.cell?_mono e c heq hc

/-- What any number of lines make of a rooted heap: there are the bindings of the entries in front of
those from before, which hold what they held. -/
structure Keeps (native : Native κ → Prop) (scope : Scope) (bound : List Binding) (heap : Heap κ)
    (entries : List (Completion κ)) (made : List Binding) (heap' : Heap κ) : Prop where
  rooted : heap'.Rooted native scope (made ++ bound)
  stands : List.Forall₂ (Stands heap') entries made
  same : ∀ binding ∈ bound, heap.SameBelow binding.value heap'

/-- What a line makes of it before anything is collected: without entries cells are added and no
more. -/
structure Advances (native : Native κ → Prop) (scope : Scope) (bound : List Binding)
    (heap : Heap κ) (entries : List (Completion κ)) (made : List Binding) (heap' : Heap κ) : Prop
    extends Keeps native scope bound heap entries made heap' where
  quiet : entries = [] → Extends heap heap'

section Lines

variable {native : Native κ → Prop} {scope : Scope} {bound made made' : List Binding}
  {entries entries' : List (Completion κ)} {heap heap' heap'' : Heap κ}

/-- Cells are added. -/
theorem Advances.of_adds (h : heap.Rooted native scope bound) (w' : heap'.WellFormed)
    (hadds : Adds heap heap') : Advances native scope bound heap [] [] heap' :=
  ⟨⟨h.adds w' hadds, .nil,
    fun _ hb => hadds.toExtends.sameBelow h.wellFormed (h.isLive_value hb)⟩,
    fun _ => hadds.toExtends⟩

/-- No line. -/
theorem Keeps.refl (h : heap.Rooted native scope bound) :
    Keeps native scope bound heap [] [] heap :=
  ⟨h, .nil, fun _ _ => .refl heap _⟩

/-- Entries stand as long as their values stay as they are. -/
theorem Stands.all_later (h : List.Forall₂ (Stands heap) entries made)
    (hsame : ∀ binding ∈ made, heap.SameBelow binding.value heap') :
    List.Forall₂ (Stands heap') entries made := by
  induction h with
  | nil => exact .nil
  | cons hstands _ ih =>
    obtain ⟨hhead, htail⟩ := List.forall_mem_cons.mp hsame
    exact .cons (hstands.later hhead) (ih htail)

/-- **One after the other.** -/
theorem Keeps.trans (h : Keeps native scope bound heap entries made heap')
    (h' : Keeps native scope (made ++ bound) heap' entries' made' heap'') :
    Keeps native scope bound heap (entries' ++ entries) (made' ++ made) heap'' := by
  refine ⟨?_, List.rel_append h'.stands (Stands.all_later h.stands fun binding hb => ?_),
    fun binding hb => ?_⟩
  · rw [List.append_assoc]
    exact h'.rooted
  · exact h'.same binding (List.mem_append_left bound hb)
  · exact (h.same binding hb).trans (h'.same binding (List.mem_append_right made hb))

/-- A collection from the scope takes nothing away that is bound. -/
theorem Keeps.collect (h : Keeps native scope bound heap entries made heap')
    (w'' : heap''.WellFormed) (hc : heap'.Collects [scope.chain] heap'') :
    Keeps native scope bound heap entries made heap'' := by
  have hsame : ∀ binding ∈ made ++ bound, heap'.SameBelow binding.value heap'' :=
    fun _ hb => hc.sameBelow (h.rooted.reach_value hb).1
  refine ⟨h.rooted.collect w'' hc, Stands.all_later h.stands fun binding hb => ?_,
    fun binding hb => ?_⟩
  · exact hsame binding (List.mem_append_left bound hb)
  · exact (h.same binding hb).trans (hsame binding (List.mem_append_right made hb))

/-- Cells were added before. -/
theorem Advances.after_adds (h' : Advances native scope bound heap' entries made heap'')
    (h : heap.Rooted native scope bound) (hadds : Adds heap heap') :
    Advances native scope bound heap entries made heap'' := by
  refine ⟨⟨h'.rooted, h'.stands, fun binding hb => ?_⟩, fun hquiet =>
    hadds.toExtends.trans (h'.quiet hquiet)⟩
  exact (hadds.toExtends.sameBelow h.wellFormed (h.isLive_value hb)).trans (h'.same binding hb)

end Lines

/-- The `set`s that come back while a line is executed, the latest in front. -/
def Context.completed (ctx : Context) (host : Host κ ω ν) (line : Text) (store : Store κ ω ν) :
    List (Completion κ) :=
  match Heap.read line store.heap with
  | (.ok (.ok (e, _)), heap) =>
    completions (watchedEvaluate host ctx.limits ctx.limits.nesting ctx.scope e
      { store with heap := heap }.watched).2.store.journal
  | _ => []

section Evaluation

variable (custom : χ → Scope → Handle → Procedure (Action (LevelAction χ)) (Stage σ) Handle)
  (observe : Event → Heap (Action (LevelAction χ)) → List ν)
  {store : Store (Action (LevelAction χ)) (Stage σ) ν} {bound : List Binding}

/-- A rooted heap matches itself with the scope hidden, as far as values reach that do not reach the
scope. -/
theorem match_itself (store : Store (Action (LevelAction χ)) ω ν) (limits : Limits)
    {scope : Scope} {bound : List Binding}
    (h : store.heap.Rooted Native.IsStandard scope bound) {frame parent : Handle}
    (hscope : store.heap.cell? scope.chain = some (.pair frame parent)) {roots : List Handle}
    (hroots : ∀ e ∈ roots, store.heap.isLive e = true ∧ ¬ Reach store.heap.cell? [e] scope.chain) :
    (Comparison.itself store scope limits True).Match
      (fun f f' => f = f' ∧ store.heap.Reaches (frame :: roots) f) store.heap store.heap := by
  have w := h.wellFormed
  obtain ⟨hframe, hparent⟩ := w.parts_isLive hscope
  have hlive : ∀ e ∈ frame :: roots, store.heap.isLive e = true :=
    List.forall_mem_cons.mpr ⟨hframe, fun e he => (hroots e he).1⟩
  obtain ⟨front, hfront, -, hhidden⟩ := h.exists_frame
  cases hfront.symm.trans hscope
  refine Layouts.match_reached w hlive hscope (.root (List.mem_cons_of_mem _ List.mem_cons_self))
    (.root List.mem_cons_self) h.scopeEnds (fun f procedure _ hc => h.natives f procedure hc)
    fun _ hreach => ?_
  rcases (reaches_iff_kept w _).mp hreach with hnil | hreach
  · rw [hnil, w.cell?_nil] at hscope
    cases hscope
  · obtain ⟨f, hf, hbelow⟩ := hreach.exists_root
    rcases List.mem_cons.mp hf with rfl | hf
    · exact hhidden hbelow
    · exact (hroots f hf).2 hbelow

/-- **Reading** adds cells, and what is read does not reach the scope. -/
theorem read_hidden {store : Store (Action (LevelAction χ)) ω ν} {scope : Scope}
    {bound : List Binding} (h : store.heap.Rooted Native.IsStandard scope bound) (line : Text)
    {result : Except Fault (Except ReadError (Handle × Nat))}
    {heap₁ : Heap (Action (LevelAction χ))} (hrun : Heap.read line store.heap = (result, heap₁)) :
    heap₁.WellFormed ∧ Adds store.heap heap₁ ∧ ∀ e stop, result = .ok (.ok (e, stop)) →
      heap₁.isLive e = true ∧ ¬ Reach heap₁.cell? [e] scope.chain := by
  obtain ⟨_, w₁, hadds, hread⟩ := read_adding line h.wellFormed
  obtain rfl : _ = heap₁ := by
    rcases hread with ⟨_, hread, -⟩ | hread
    · exact (Prod.mk.inj (hread.symm.trans hrun)).2
    · exact (Prod.mk.inj (hread.symm.trans hrun)).2
  refine ⟨w₁, hadds, fun e stop hresult => ?_⟩
  obtain ⟨frame, hscope, -⟩ := h.exists_frame
  have hnone : ∀ e ∈ ([] : List Handle), store.heap.isLive e = true ∧
      ¬ Reach store.heap.cell? [e] scope.chain := by
    intro e he
    cases he
  have hmatch := match_itself store ⟨none, none⟩ h hscope hnone
  have hends := Layouts.read_ends line hmatch
  rw [hrun, hresult] at hends
  cases hends with
  | returned _ hmatched _ halike =>
    cases halike with
    | ok he =>
      have hmatched : Layouts.Match _ _ _ _ := hmatched
      exact ⟨hmatched.isLive he, hmatched.not_reach trivial he⟩

/-- An evaluation leaves the scope hidden: beside itself it gets hold of nothing that is not
matched. -/
theorem evaluate_hides {limits : Limits} {scope : Scope} {e : Handle}
    (h : store.heap.Rooted Native.IsStandard scope bound) (he : store.heap.isLive e = true)
    (hhidden : ¬ Reach store.heap.cell? [e] scope.chain) {result : Except Fault Outcome}
    {w : Machine (Action (LevelAction χ)) (Stage σ) (Moment (Action (LevelAction χ)))}
    (hwatched : Session.Watched (Host.withBuiltins (LevelAction.procedure custom) observe) limits
      scope e store result w) {frame parent : Handle}
    (hc : w.store.heap.cell? scope.chain = some (.pair frame parent)) :
    ¬ Reach w.store.heap.cell? [frame] scope.chain := by
  obtain ⟨front, hscope, -⟩ := h.exists_frame
  have hmatch := match_itself store limits h hscope (List.forall_mem_singleton.mpr ⟨he, hhidden⟩)
  have hreach : store.heap.Reaches [front, e] e :=
    .root (List.mem_cons_of_mem _ (List.mem_cons_of_mem _ List.mem_cons_self))
  have hends := evaluate_itself custom observe hmatch ⟨rfl, hreach⟩ hwatched
  cases hends with
  | returned _ h' | left h' => exact h'.heap.frame_not_reach trivial hc
  | right h' => exact h'.heap.symm.frame_not_reach trivial hc

/-- **An evaluation** of an expression that does not reach the scope. -/
theorem evaluate_advances {limits : Limits} {scope : Scope} {e : Handle}
    (h : store.heap.Rooted Native.IsStandard scope bound) (he : store.heap.isLive e = true)
    (hhidden : ¬ Reach store.heap.cell? [e] scope.chain) {result : Except Fault Outcome}
    {w : Machine (Action (LevelAction χ)) (Stage σ) (Moment (Action (LevelAction χ)))}
    (hwatched : Session.Watched (Host.withBuiltins (LevelAction.procedure custom) observe) limits
      scope e store result w) :
    (∃ made, Advances Native.IsStandard scope bound store.heap
      (completions w.store.journal) made w.store.heap) ∧
      ∀ outcome, result = .ok outcome → w.store.heap.isLive outcome.subject = true := by
  obtain ⟨frame, hscope, -⟩ := h.exists_frame
  have hhidden' : ∀ frame parent, w.store.heap.cell? scope.chain = some (.pair frame parent) →
      ¬ Reach w.store.heap.cell? [frame] scope.chain :=
    fun _ _ => evaluate_hides custom observe h he hhidden hwatched
  have hsettles := standard_settles custom observe h.wellFormed hscope he h.natives hwatched
  have hadditive := hsettles.intact
  refine ⟨?_, fun outcome hresult => ?_⟩
  · obtain ⟨made, hnames, hrooted⟩ := h.onlyAdds hadditive.adds hhidden'
    refine ⟨made, ⟨hrooted, hadditive.stands hrooted hnames, fun binding hb => ?_⟩,
      fun hquiet => ?_⟩
    · exact hrooted.sameBelow hadditive.adds.grows h.wellFormed (List.mem_append_right _ hb)
        (h.isLive_value hb)
    · have hsets := completions_sets w.store.journal
      rw [hquiet] at hsets
      have hadds := hadditive.adds
      rw [← hsets] at hadds
      exact hadds.extends
  · subst hresult
    cases hsettles with
    | returned _ _ hvalue => exact hvalue
    | failed _ _ hp => exact hp

/-- **What a line makes of the heap**, whether it gets a response or ends in a fault. -/
theorem respond_advances (ctx : Context) (line : Text)
    (h : store.heap.Rooted Native.IsStandard ctx.scope bound) {result : Except Fault Cycle}
    {after : Store (Action (LevelAction χ)) (Stage σ) ν}
    (hrun : ctx.respond (Host.withBuiltins (LevelAction.procedure custom) observe) line store =
      (result, after)) :
    ∃ made, Advances Native.IsStandard ctx.scope bound store.heap
      (ctx.completed (Host.withBuiltins (LevelAction.procedure custom) observe) line store) made
      after.heap := by
  rcases hread : Heap.read line store.heap with ⟨read, heap₁⟩
  obtain ⟨w₁, hadds, hhidden⟩ := read_hidden h line hread
  have h₁ := h.adds w₁ hadds
  unfold Context.completed
  rw [hread]
  rcases read with fault | error | ⟨e, stop⟩
  · cases (ctx.respond_of_read_fault _ hread).symm.trans hrun
    exact ⟨[], .of_adds h w₁ hadds⟩
  · cases (ctx.respond_of_unreadable _ hread).symm.trans hrun
    exact ⟨[], .of_adds h w₁ hadds⟩
  obtain ⟨he, hhidden⟩ := hhidden e stop rfl
  let store₁ : Store (Action (LevelAction χ)) (Stage σ) ν := { store with heap := heap₁ }
  obtain ⟨outcome, w, hwatched⟩ := Session.exists_watched
    (Host.withBuiltins (LevelAction.procedure custom) observe) ctx.limits ctx.scope e store₁
  have hrooted : store₁.heap.Rooted Native.IsStandard ctx.scope bound := h₁
  obtain ⟨⟨made, hadvances⟩, hlive⟩ := evaluate_advances custom observe hrooted he hhidden hwatched
  have hheap := hwatched.store_eq.1
  have hresult := hwatched.result_eq
  rcases heval : evaluate (Host.withBuiltins (LevelAction.procedure custom) observe) ctx.limits
    ctx.scope e store₁ with ⟨evaluated, store₂⟩
  rw [heval] at hheap hresult
  subst hresult
  refine ⟨made, ?_⟩
  dsimp only
  rw [hwatched.run_eq]
  have hafter : after = store₂ := by
    cases evaluated with
    | error fault =>
      cases (ctx.respond_of_evaluate_fault _ hread heval).symm.trans hrun
      rfl
    | ok outcome =>
      have hshown := hadvances.rooted.wellFormed.walksEnd hadvances.rooted.scopeEnds
      obtain ⟨out, hformat, -⟩ := hshown.texts _ _ (hlive outcome rfl)
      rw [← hheap] at hformat
      cases (ctx.respond_of_evaluated _ hread heval hformat).symm.trans hrun
      rfl
  rw [hafter, hheap]
  exact hadvances.after_adds h hadds

/-- **A line** keeps what is bound. When it returns, nothing is left over, and without a `set` that
came back the heap is as it was. -/
theorem execute_keeps (ctx : Context) (line : Text)
    (h : store.heap.Rooted Native.IsStandard ctx.scope bound) {result : Except Fault Cycle}
    {after : Store (Action (LevelAction χ)) (Stage σ) ν}
    (hrun : ctx.execute (Host.withBuiltins (LevelAction.procedure custom) observe) line store =
      (result, after)) :
    (∃ made, Keeps Native.IsStandard ctx.scope bound store.heap
      (ctx.completed (Host.withBuiltins (LevelAction.procedure custom) observe) line store) made
      after.heap) ∧
    ∀ cycle, result = .ok cycle → after.heap.IsTidy ctx.scope.chain ∧
      (ctx.completed (Host.withBuiltins (LevelAction.procedure custom) observe) line store = [] →
        store.heap.IsTidy ctx.scope.chain → ∀ e, after.heap.cell? e = store.heap.cell? e) := by
  rcases hresponse : ctx.respond (Host.withBuiltins (LevelAction.procedure custom) observe) line
    store with ⟨response, middle⟩
  obtain ⟨made, hadvances⟩ := respond_advances custom observe ctx line h hresponse
  cases response with
  | error fault =>
    cases (ctx.execute_of_fault _ hresponse).symm.trans hrun
    exact ⟨⟨made, hadvances.toKeeps⟩, nofun⟩
  | ok cycle =>
    have w := hadvances.rooted.wellFormed
    have hroot := hadvances.rooted.scope_isLive
    obtain ⟨_, hexecute, w', hcollects, -⟩ := ctx.execute_of_response _ hresponse w hroot
    cases hexecute.symm.trans hrun
    refine ⟨⟨made, hadvances.toKeeps.collect w' hcollects⟩, fun _ _ =>
      ⟨hcollects.isTidy w w' hroot, fun hquiet htidy => ?_⟩⟩
    exact htidy.cell?_eq h.wellFormed h.scope_isLive (hadvances.quiet hquiet) hcollects

end Evaluation

/-! ## Sessions -/

namespace Context

variable (ctx : Context) (host : Host κ ω ν)

/-- The store after these lines, the latest of them in front. -/
def since : List Text → Store κ ω ν → Store κ ω ν
  | [], store => store
  | line :: past, store => (ctx.execute host line (since past store)).2

/-- The `set`s that came back in these lines, the latest in front. -/
def ledger : List Text → Store κ ω ν → List (Completion κ)
  | [], _ => []
  | line :: past, store => ctx.completed host line (ctx.since host past store) ++ ledger past store

/-- The latest of these lines, if there is one, did not end in a fault. -/
def Returned : List Text → Store κ ω ν → Prop
  | [], _ => True
  | line :: past, store => ∃ cycle, (ctx.execute host line (ctx.since host past store)).1 = .ok cycle

end Context

section Sessions

variable (custom : χ → Scope → Handle → Procedure (Action (LevelAction χ)) (Stage σ) Handle)
  (observe : Event → Heap (Action (LevelAction χ)) → List ν)
  {store : Store (Action (LevelAction χ)) (Stage σ) ν} {bound : List Binding} {ctx : Context}

/-- **Lines one after the other** keep what is bound, whether they return or not. -/
theorem since_keeps (h : store.heap.Rooted Native.IsStandard ctx.scope bound) (past : List Text) :
    ∃ made, Keeps Native.IsStandard ctx.scope bound store.heap
      (ctx.ledger (Host.withBuiltins (LevelAction.procedure custom) observe) past store) made
      (ctx.since (Host.withBuiltins (LevelAction.procedure custom) observe) past store).heap := by
  induction past with
  | nil => exact ⟨[], .refl h⟩
  | cons line past ih =>
    obtain ⟨made, hpast⟩ := ih
    obtain ⟨⟨made', hline⟩, -⟩ := execute_keeps custom observe ctx line hpast.rooted rfl
    exact ⟨made' ++ made, hpast.trans hline⟩

/-- After a line that returned nothing is left over. -/
theorem since_isTidy (h : store.heap.Rooted Native.IsStandard ctx.scope bound)
    (htidy : store.heap.IsTidy ctx.scope.chain) {past : List Text}
    (hreturned : ctx.Returned (Host.withBuiltins (LevelAction.procedure custom) observe) past
      store) :
    (ctx.since (Host.withBuiltins (LevelAction.procedure custom) observe) past store).heap.IsTidy
      ctx.scope.chain := by
  cases past with
  | nil => exact htidy
  | cons line past =>
    obtain ⟨made, hpast⟩ := since_keeps custom observe h past
    obtain ⟨cycle, hcycle⟩ := hreturned
    exact ((execute_keeps custom observe ctx line hpast.rooted rfl).2 cycle hcycle).1

/-- **Sessions neither leak nor lose memory.** In a new context with no natives but the builtins and
those of the levels, after lines of which some may have ended in a fault, a line returns. Then the
live handles are nil and those that the root scope reaches. Every `set` that ever came back still has
its binding, in front of those the context was made with, and everything below its value is as it was
when it came back. When no `set` came back during the line and the one before it had returned, the
live handles and their contents are what they were. -/
theorem session_memory {id : Nat} {options : Options (Action (LevelAction χ))}
    {heap : Heap (Action (LevelAction χ))} (hcreate : Context.create id options = .ok (ctx, heap))
    (hnatives : ∀ n ∈ options.natives, n.2.IsStandard) (world : Stage σ) (log : List LogEntry)
    (journal : List ν) (past : List Text) (line : Text) {cycle : Cycle}
    {before after : Store (Action (LevelAction χ)) (Stage σ) ν}
    (hbefore : ctx.since (Host.withBuiltins (LevelAction.procedure custom) observe) past
      ⟨heap, world, log, journal⟩ = before)
    (hrun : ctx.execute (Host.withBuiltins (LevelAction.procedure custom) observe) line before =
      (.ok cycle, after)) :
    (∀ e, after.heap.isLive e = true ↔ after.heap.Kept [ctx.scope.chain] e) ∧
    (∃ made bound, heap.bindings ctx.scope = .ok bound ∧
      after.heap.bindings ctx.scope = .ok (made ++ bound) ∧
      (∀ binding ∈ bound, heap.SameBelow binding.value after.heap) ∧
      List.Forall₂ (Stands after.heap)
        (ctx.ledger (Host.withBuiltins (LevelAction.procedure custom) observe) (line :: past)
          ⟨heap, world, log, journal⟩) made) ∧
    (ctx.completed (Host.withBuiltins (LevelAction.procedure custom) observe) line before = [] →
      ctx.Returned (Host.withBuiltins (LevelAction.procedure custom) observe) past
        ⟨heap, world, log, journal⟩ →
      ∀ e, after.heap.cell? e = before.heap.cell? e) := by
  obtain ⟨⟨bound, h⟩, htidy⟩ := create_rooted hcreate hnatives
  let start : Store (Action (LevelAction χ)) (Stage σ) ν := ⟨heap, world, log, journal⟩
  have hstart : start.heap.Rooted Native.IsStandard ctx.scope bound := h
  subst hbefore
  obtain ⟨made, hpast⟩ := since_keeps custom observe hstart past
  obtain ⟨⟨made', hline⟩, hreturns⟩ := execute_keeps custom observe ctx line hpast.rooted hrun
  obtain ⟨htidied, hquiet⟩ := hreturns cycle rfl
  have hkeeps := hpast.trans hline
  refine ⟨htidied, ⟨made' ++ made, bound, h.bindings_eq, hkeeps.rooted.bindings_eq, hkeeps.same,
    hkeeps.stands⟩, fun hcompleted hreturned => ?_⟩
  exact hquiet hcompleted (since_isTidy custom observe hstart htidy hreturned)

end Sessions

/-- A new context with the built-in natives, and its heap. -/
@[irreducible] def Context.standard : Context × Heap (Action (LevelAction Unit)) :=
  (Context.create 1 (.default (Action (LevelAction Unit)))).toOption.get (by decide +kernel)

theorem Context.create_standard :
    Context.create 1 (.default (Action (LevelAction Unit))) = .ok Context.standard := by
  unfold Context.standard
  exact eq_ok_get_toOption _

/-- A line that binds `x`, and then a line that cannot be read. -/
theorem session_memory_set : ∃ (ctx : Context) (heap : Heap (Action (LevelAction Unit)))
    (before after : Store (Action (LevelAction Unit)) (Stage Unit) Unit) (value : Handle)
    (bound : List Binding),
    Context.create 1 (.default (Action (LevelAction Unit))) = .ok (ctx, heap) ∧
    ctx.since (.withBuiltins (LevelAction.procedure fun _ _ args => .fail args .typeError)
      fun _ _ => []) [text "(set x 1)"] ⟨heap, ⟨.empty, ()⟩, [], []⟩ = before ∧
    ctx.execute (.withBuiltins (LevelAction.procedure fun _ _ args => .fail args .typeError)
        fun _ _ => []) (text ")") before =
      (.ok (.parseError (text "Unexpected ')' at 1:1") ⟨1, 1, 0⟩), after) ∧
    heap.bindings ctx.scope = .ok bound ∧
    after.heap.bindings ctx.scope = .ok (⟨text "x", value⟩ :: bound) ∧
    after.heap.cell? value = some (.number (Number.ofNat 1)) ∧
    (∀ e, after.heap.isLive e = true ↔ after.heap.Kept [ctx.scope.chain] e) ∧
    ∀ e, after.heap.cell? e = before.heap.cell? e := by
  let ctx := Context.standard.1
  let start : Store (Action (LevelAction Unit)) (Stage Unit) Unit :=
    ⟨Context.standard.2, ⟨.empty, ()⟩, [], []⟩
  let host : Host (Action (LevelAction Unit)) (Stage Unit) Unit :=
    .withBuiltins (LevelAction.procedure fun _ _ args => .fail args .typeError) fun _ _ => []
  have hnatives : ∀ n ∈ (Options.default (Action (LevelAction Unit))).natives, n.2.IsStandard :=
    nofun
  obtain ⟨bound, hrooted⟩ := (create_rooted Context.create_standard hnatives).1
  have hstart : start.heap.Rooted Native.IsStandard ctx.scope bound := hrooted
  -- the line that binds gets a response
  have hset : (ctx.respond host (text "(set x 1)") start).1 = .ok (.ok (text "1")) := by
    decide +kernel
  have hrespond : ctx.respond host (text "(set x 1)") start = (.ok (.ok (text "1")), _) :=
    Prod.ext hset rfl
  obtain ⟨_, hadvances⟩ := respond_advances _ _ ctx (text "(set x 1)") hstart hrespond
  obtain ⟨before, hbefore, -⟩ := ctx.execute_of_response host hrespond
    hadvances.rooted.wellFormed hadvances.rooted.scope_isLive
  have hsince : ctx.since host [text "(set x 1)"] start = before := congrArg Prod.snd hbefore
  have hlength : (ctx.completed host (text "(set x 1)") start).length = 1 := by decide +kernel
  have hentries : ∀ entry ∈ ctx.completed host (text "(set x 1)") start,
      entry.heap.cell? entry.symbol = some (.symbol (text "x")) ∧
      entry.heap.cell? entry.value = some (.number (Number.ofNat 1)) := by decide +kernel
  obtain ⟨entry, hentry⟩ := List.length_eq_one_iff.mp hlength
  rw [hentry] at hentries
  obtain ⟨hsymbol, hvalue⟩ := hentries entry List.mem_cons_self
  -- and so does the one that cannot be read
  obtain ⟨_, hkeeps⟩ := since_keeps _ _ hstart [text "(set x 1)"]
  have hread : Heap.read (text ")") before.heap =
      (.ok (.error (.unexpectedClose ⟨1, 1, 0⟩)), before.heap) := rfl
  have hunread := ctx.respond_of_unreadable host hread
  rw [← hsince] at hunread
  obtain ⟨after, hafter, -⟩ := ctx.execute_of_response host hunread
    hkeeps.rooted.wellFormed hkeeps.rooted.scope_isLive
  obtain ⟨htidy, ⟨made, bound', hbound, hbindings, -, hstands⟩, hquiet⟩ :=
    session_memory _ _ Context.create_standard hnatives ⟨.empty, ()⟩ [] [] [text "(set x 1)"]
      (text ")") rfl hafter
  have hledger : ctx.ledger host [text ")", text "(set x 1)"] start = [entry] := by
    have hnone : ctx.completed host (text ")") (ctx.since host [text "(set x 1)"] start) = [] :=
      rfl
    rw [Context.ledger, hnone, Context.ledger]
    exact (List.append_nil _).trans hentry
  rw [hledger] at hstands
  obtain ⟨⟨name, value⟩, _, hone, hnil, rfl⟩ := List.forall₂_cons_left_iff.mp hstands
  cases hnil
  refine ⟨ctx, start.heap, _, after, value, bound', Context.create_standard, rfl, hafter, hbound,
    ?_, ?_, htidy, hquiet rfl ⟨_, congrArg Prod.fst hbefore⟩⟩
  · cases hone.symbol.symm.trans hsymbol
    exact hbindings
  · rw [show value = entry.value from hone.value_eq]
    exact (hone.same _ (.root List.mem_cons_self)).trans hvalue

end ConsoleLisp
