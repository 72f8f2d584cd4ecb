import ConsoleLisp.Proofs.Acyclic.Evaluation
import ConsoleLisp.Proofs.Memory.Session

/-!
# Scripts build no cycles

A context is made with a sealed heap, and every line that is executed in it makes tame requests
only, whether it returns or ends in a fault. So no heap that a session goes through has a pair that
contains itself, and what is printed for a line is the text of a tree.

Results:
* `create_sealed`: the heap of a new context is sealed.
* `Context.execute_abides`: a line makes tame requests only.
* `Context.execute_prints`: the text that a line gives.
* **`scripts_build_no_cycles`**: the sessions of a new context.
-/

namespace ConsoleLisp

open Heap

variable {κ χ ω ν σ α : Type}

/-! ## New contexts -/

namespace Heap

variable {allowed : Native κ → Prop} {heap heap' : Heap κ} {scope : Scope}

/-- A root scope in a new heap. -/
theorem root_sealed {id : Nat} {maxSlots : Number} (hcreate : create id maxSlots = .ok heap)
    (hrun : Scope.root heap = (.ok scope, heap')) : heap'.Sealed allowed scope.chain := by
  have w := create_wellFormed hcreate
  have hnil := w.cell?_nil
  rw [Scope.root, Act.run_bind_ok (nil_spec w)] at hrun
  obtain ⟨chain, heap₁, hpair, ⟨⟩⟩ := Act.exists_of_run_bind hrun
  obtain ⟨w', hu, hnew⟩ := pair_of_ok w (isLive_of_cell? hnil) (isLive_of_cell? hnil) hpair
  have hne : heap.nilHandle ≠ chain := by
    rintro rfl
    cases hnew.symm.trans hnil
  -- there was no pair before
  have hnone : ∀ part f, ¬ heap.PartOf part f := by
    rintro part f ⟨head, tail, hc, -⟩
    rw [eq_nilHandle_of_create hcreate hc, hnil] at hc
    cases hc
  have hfounded : WellFounded heap'.PartOf := by
    refine hu.founded ⟨fun f => ⟨_, fun part hp => absurd hp (hnone part f)⟩⟩ (hnone chain) ?_
    rintro _ _ ⟨⟩
    exact ⟨hne, hne⟩
  refine ⟨w', fun f procedure hc => ?_, ⟨_, _, (hu.cell?_eq chain).trans (if_pos rfl)⟩,
    fun f hp => ?_, hfounded⟩
  · rw [hu.cell?_eq] at hc
    split at hc
    · cases hc
    · rw [eq_nilHandle_of_create hcreate hc, hnil] at hc
      cases hc
  · by_cases hf : f = chain
    · obtain ⟨_, _, ⟨⟩, hp⟩ := hu.partOf_self (hf ▸ hp)
      exact hp.elim (Ne.symm hne) (Ne.symm hne)
    · exact hnone chain f (hu.partOf_of_ne hf hp)

theorem install_abides {root : Handle} {natives : NativeSet κ}
    (hnatives : ∀ n ∈ natives, allowed n.2) :
    Abides allowed root (natives.install ⟨root⟩ : HeapM κ Unit) fun _ => True := by
  induction natives with
  | nil => exact .pure trivial
  | cons n rest ih =>
    obtain ⟨hn, hrest⟩ := List.forall_mem_cons.mp hnatives
    rw [NativeSet.install, List.forM]
    have hfirst : Abides allowed root (NativeSet.bindNative ⟨root⟩ n.1 n.2 : HeapM κ Unit)
        fun _ => True :=
      (handle_abides (.symbol n.1) trivial rfl).bind fun symbol hsymbol =>
        (handle_abides (.native n.2) hn rfl).bind fun value hvalue => bind_abides hsymbol hvalue
    exact hfirst.bind fun _ _ => ih hrest

end Heap

/-- What is printed is live. -/
theorem Heap.isLive_of_format {heap : Heap κ} {e : Handle} {output : Text}
    (h : heap.format e = .ok output) : heap.isLive e = true := by
  cases hin : heap.inspect e with
  | ok c => exact isLive_of_cell? (inspect_eq_ok_iff.mp hin)
  | error fault =>
    have hopen : (Writer.empty (.atMost maxPrintLength)).isCut = false := rfl
    have hwrite : heap.write maxPrintDepth [] e (.empty (.atMost maxPrintLength)) =
        .error fault := by
      generalize maxPrintDepth = depth
      cases depth <;> rw [write, if_neg (Bool.eq_false_iff.mp hopen), hin]
    rw [Heap.format, Heap.formatWithin, hwrite] at h
    cases h

/-- **The heap of a new context is sealed.** -/
theorem create_sealed {id : Nat} {options : Options (Action (LevelAction χ))} {ctx : Context}
    {heap : Heap (Action (LevelAction χ))} (hcreate : Context.create id options = .ok (ctx, heap))
    (hnatives : ∀ n ∈ options.natives, n.2.IsStandard) :
    heap.Sealed Native.IsStandard ctx.scope.chain := by
  obtain ⟨_, heap₀, heap₁, natives, hnew, hscope, hinstall, hstandard⟩ :=
    exists_of_create hcreate hnatives
  have hroot : heap₁.Sealed Native.IsStandard ctx.scope.chain := root_sealed hnew hscope
  have hinstalls : Heap.Abides Native.IsStandard ctx.scope.chain (natives.install ctx.scope)
      fun _ => True := install_abides hstandard
  have hleads := (hinstalls heap₁ hroot).1
  have hafter : ((natives.install ctx.scope : HeapM _ Unit) heap₁).2 = heap :=
    congrArg Prod.snd hinstall
  rw [hafter] at hleads
  exact hleads.seal hroot

/-! ## Lines -/

section Lines

variable {host : Host κ ω ν} {allowed : Native κ → Prop} {root : Handle}

namespace Store.Abides

variable {P : α → Prop} {β : Type} {Q : β → Prop}

theorem pure {a : α} (h : P a) : Abides host allowed root (pure a : StoreM κ ω ν α) P :=
  Act.Abides.pure (Store.regime host allowed root) h

theorem bind {x : StoreM κ ω ν α} {f : α → StoreM κ ω ν β} (hx : Abides host allowed root x P)
    (hf : ∀ a, P a → Abides host allowed root (f a) Q) : Abides host allowed root (x >>= f) Q :=
  Act.Abides.bind (Store.regime host allowed root) hx hf

theorem onHeap {action : HeapM κ α} (h : Heap.Abides allowed root action P) :
    Abides host allowed root (Store.onHeap action : StoreM κ ω ν α) P := by
  intro s hs
  obtain ⟨hleads, hP⟩ := h s.heap hs
  exact ⟨.of_leads hleads rfl, hP⟩

theorem note (event : Event) :
    Abides host allowed root (modify (Store.note host event) : StoreM κ ω ν Unit)
      fun _ => True :=
  fun s _ => ⟨.note event s, fun _ _ => trivial⟩

end Store.Abides

/-- An evaluation from outside. -/
theorem evaluate_abides (hhost : host.Abides allowed root) (limits : Limits) {e : Handle}
    (he : e ≠ root) :
    Store.Abides host allowed root (evaluate host limits ⟨root⟩ e) fun outcome =>
      outcome.subject ≠ root := by
  have hsession : Store.Abides host allowed root (show StoreM κ ω ν Outcome from fun store =>
      ((evaluateWith host limits limits.nesting ⟨root⟩ e ⟨store, 0, 0⟩).1,
        (evaluateWith host limits limits.nesting ⟨root⟩ e ⟨store, 0, 0⟩).2.store))
      fun outcome => outcome.subject ≠ root :=
    fun s hs => evaluateWith_abides hhost limits limits.nesting e he ⟨s, 0, 0⟩ hs
  refine Store.Abides.bind hsession fun outcome hsubject => ?_
  cases outcome with
  | ok value => exact .pure hsubject
  | error failure => exact (Store.Abides.note _).bind fun _ _ => .pure hsubject

namespace Context

variable {ctx : Context}

/-- **A line makes tame requests only**, whether it returns or ends in a fault. -/
theorem execute_abides (hhost : host.Abides allowed ctx.scope.chain) (line : Text) :
    Store.Abides host allowed ctx.scope.chain (ctx.execute host line) fun _ => True := by
  have hcollect : Store.Abides host allowed ctx.scope.chain (ctx.collect host []) fun _ => True :=
    (Store.Abides.onHeap (collect_abides List.mem_cons_self)).bind fun _ _ =>
      (Store.Abides.note _).bind fun _ _ => .pure trivial
  refine (Store.Abides.onHeap (read_abides line)).bind fun read hread => ?_
  cases read with
  | error error => exact hcollect.bind fun _ _ => .pure trivial
  | ok found =>
    have hview : ∀ e, Store.Abides host allowed ctx.scope.chain
        (Store.onHeap (Heap.view (·.format e)) : StoreM κ ω ν Text) fun _ => True :=
      fun _ => Store.Abides.onHeap (view_abides fun _ _ _ _ => trivial)
    exact (evaluate_abides hhost ctx.limits (hread found.1 found.2 rfl)).bind fun outcome _ =>
      (hview outcome.subject).bind fun _ _ => hcollect.bind fun _ _ => .pure trivial

/-- Any number of lines. -/
theorem since_passes (hhost : host.Abides allowed ctx.scope.chain) {start : Store κ ω ν}
    (h : start.heap.Sealed allowed ctx.scope.chain) (lines : List Text) :
    start.Passes host allowed ctx.scope.chain (ctx.since host lines start) := by
  induction lines with
  | nil => exact .refl start
  | cons line past ih =>
    exact ih.trans (execute_abides hhost line (ctx.since host past start) (ih.leads.seal h)).1

/-- What a line that returns gives: the message of a line that cannot be read, or the text of the
tree that the value or the payload unfolds to. A list is elided in it only where it is nested too
deep. -/
inductive Prints (ctx : Context) (host : Host κ ω ν) (line : Text) (s : Store κ ω ν) : Cycle → Prop
  | unreadable (message : Text) (location : Location) :
      Prints ctx host line s (.parseError message location)
  | printed {e : Handle} {stop : Nat} {heap₁ : Heap κ} {outcome : Outcome} {middle : Store κ ω ν}
      {output : Text} {t : Tree κ} : Heap.read line s.heap = (.ok (.ok (e, stop)), heap₁) →
      ctx.evaluate host e { s with heap := heap₁ } = (.ok outcome, middle) →
      Unfolds middle.heap outcome.subject t → output = t.format →
      (t.nesting ≤ maxPrintDepth → output = Text.cutAt maxPrintLength t.unelided) →
      Prints ctx host line s (.ofOutcome output outcome)

/-- **The text that a line gives** is that of a tree. -/
theorem execute_prints (hhost : host.Abides allowed ctx.scope.chain) {s after : Store κ ω ν}
    (h : s.heap.Sealed allowed ctx.scope.chain) {line : Text} {cycle : Cycle}
    (hrun : ctx.execute host line s = (.ok cycle, after)) : ctx.Prints host line s cycle := by
  obtain ⟨s', hresponse⟩ := ctx.exists_response host hrun
  have hreads := (read_abides line : Heap.Abides allowed ctx.scope.chain _ _) s.heap h
  rcases hread : Heap.read line s.heap with ⟨fault | error | ⟨e, stop⟩, heap₁⟩
  · cases (ctx.respond_of_read_fault host hread).symm.trans hresponse
  · cases (ctx.respond_of_unreadable host hread).symm.trans hresponse
    exact .unreadable _ _
  rw [hread] at hreads
  have h₁ : heap₁.Sealed allowed ctx.scope.chain := hreads.1.seal h
  rw [respond, Act.run_bind_ok (Store.run_onHeap hread)] at hresponse
  obtain ⟨outcome, middle, heval, hresponse⟩ := Act.exists_of_run_bind hresponse
  obtain ⟨output, _, hview, ⟨⟩⟩ := Act.exists_of_run_bind hresponse
  have hformat : middle.heap.format outcome.subject = .ok output := congrArg Prod.fst hview
  have hmiddle : middle.heap.Sealed allowed ctx.scope.chain := by
    have hpasses : Store.Passes host allowed ctx.scope.chain { s with heap := heap₁ }
        (ctx.evaluate host e { s with heap := heap₁ }).2 :=
      (evaluate_abides hhost ctx.limits (hreads.2 _ rfl e stop rfl) { s with heap := heap₁ } h₁).1
    rw [heval] at hpasses
    exact hpasses.leads.seal h₁
  obtain ⟨t, ht⟩ := hmiddle.wellFormed.exists_unfolds (hmiddle.founded.apply outcome.subject)
    (isLive_of_format hformat)
  have houtput : output = t.format :=
    Except.ok.inj (hformat.symm.trans (format_spec (fun _ _ hc => hc) ht))
  refine .printed hread heval ht houtput fun hnesting => ?_
  rw [houtput, Tree.format, Tree.render_eq_unelided hnesting]

end Context

end Lines

/-! ## Sessions -/

/-- Nothing in the heap is cyclic: no pair is a part of its own parts, the scope is reached from
itself only, and lookups in it stop. -/
structure Heap.Orderly (scope : Scope) (heap : Heap κ) : Prop where
  acyclic : ∀ e, ¬ Relation.TransGen heap.PartOf e e
  hidden : ∀ e, heap.isLive e = true → e ≠ scope.chain → ¬ Reach heap.cell? [e] scope.chain
  lookups : ∀ name, ∃ found, heap.lookupName scope name = .ok found ∧
    ChainWalk heap name scope.chain found

/-- Public operations, one after another, and the heap is orderly behind each of them. -/
abbrev Heap.StaysOrderly (scope : Scope) : Heap κ → Heap κ → Prop :=
  Relation.ReflTransGen fun heap heap' =>
    ∃ request : Request κ, (request.perform heap).2 = heap' ∧ heap'.Orderly scope

section Orderly

variable {allowed : Native κ → Prop} {scope : Scope} {heap heap' : Heap κ}

theorem Heap.Sealed.orderly (h : heap.Sealed allowed scope.chain) : heap.Orderly scope :=
  ⟨h.not_transGen, fun _ _ he => h.not_reach he, h.walks⟩

theorem Heap.Leads.staysOrderly (hl : Leads allowed scope.chain heap heap') :
    StaysOrderly scope heap heap' := by
  refine Relation.ReflTransGen.mono ?_ _ _ hl
  rintro heap heap' ⟨request, hrun, h'⟩
  exact ⟨request, hrun, h'.orderly⟩

end Orderly

section Sessions

variable (custom : χ → Scope → Handle → Procedure (Action (LevelAction χ)) (Stage σ) Handle)
  (observe : Event → Heap (Action (LevelAction χ)) → List ν) {ctx : Context}

/-- **Scripts build no cycles.** In a new context with no natives but the builtins and those of the
levels, lines are executed, some of which may end in a fault. From the heap that the context was
made with, public operations lead to the one behind the lines, and the heap is orderly behind every
single one of them: no pair contains itself, the root scope is reached from no other live cell, and
lookups in it stop. Whatever is noted of a heap meanwhile is noted of one on the way. The next line
that returns gives the text of a tree, in which a list is elided only where it is nested too
deep. -/
theorem scripts_build_no_cycles {id : Nat} {options : Options (Action (LevelAction χ))}
    {heap : Heap (Action (LevelAction χ))} (hcreate : Context.create id options = .ok (ctx, heap))
    (hnatives : ∀ n ∈ options.natives, n.2.IsStandard) (world : Stage σ) (log : List LogEntry)
    (journal : List ν) (past : List Text)
    {before : Store (Action (LevelAction χ)) (Stage σ) ν}
    (hbefore : ctx.since (Host.withBuiltins (LevelAction.procedure custom) observe) past
      ⟨heap, world, log, journal⟩ = before) :
    heap.Orderly ctx.scope ∧ StaysOrderly ctx.scope heap before.heap ∧
    (∀ note ∈ before.journal, note ∈ journal ∨ ∃ event moment,
      StaysOrderly ctx.scope heap moment ∧ StaysOrderly ctx.scope moment before.heap ∧
        note ∈ observe event moment) ∧
    ∀ line cycle after,
      ctx.execute (Host.withBuiltins (LevelAction.procedure custom) observe) line before =
        (.ok cycle, after) →
      ctx.Prints (Host.withBuiltins (LevelAction.procedure custom) observe) line before cycle := by
  have h := create_sealed hcreate hnatives
  have hhost := standard_abides custom observe ctx.scope.chain
  let start : Store (Action (LevelAction χ)) (Stage σ) ν := ⟨heap, world, log, journal⟩
  have hstart : start.heap.Sealed Native.IsStandard ctx.scope.chain := h
  have hpasses := Context.since_passes hhost hstart past
  rw [hbefore] at hpasses
  refine ⟨h.orderly, hpasses.leads.staysOrderly, fun note hnote => ?_, fun line cycle after hrun =>
    Context.execute_prints hhost (hpasses.leads.seal h) hrun⟩
  rcases hpasses.noted note hnote with hnote | ⟨event, moment, hto, hfrom, hnote⟩
  · exact .inl hnote
  · exact .inr ⟨event, moment, hto.staysOrderly, hfrom.staysOrderly, hnote⟩

end Sessions

/-- A line that makes a pair. -/
theorem scripts_build_no_cycles_cons : ∃ after,
    Context.standard.2.Orderly Context.standard.1.scope ∧
    Context.standard.1.execute (.withBuiltins (LevelAction.procedure fun _ _ args =>
        .fail args .typeError) fun _ _ => []) (text "(cons 1 2)")
      ⟨Context.standard.2, ⟨.empty, ()⟩, [], ([] : List Unit)⟩ =
        (.ok (.ok (text "(1 . 2)")), after) ∧
    Context.standard.1.Prints (.withBuiltins (LevelAction.procedure fun _ _ args =>
        .fail args .typeError) fun _ _ => []) (text "(cons 1 2)")
      ⟨Context.standard.2, ⟨.empty, ()⟩, [], ([] : List Unit)⟩ (.ok (text "(1 . 2)")) := by
  let start : Store (Action (LevelAction Unit)) (Stage Unit) Unit :=
    ⟨Context.standard.2, ⟨.empty, ()⟩, [], []⟩
  let host : Host (Action (LevelAction Unit)) (Stage Unit) Unit :=
    .withBuiltins (LevelAction.procedure fun _ _ args => .fail args .typeError) fun _ _ => []
  have hnatives : ∀ n ∈ (Options.default (Action (LevelAction Unit))).natives, n.2.IsStandard :=
    nofun
  obtain ⟨bound, hrooted⟩ := (create_rooted Context.create_standard hnatives).1
  have hstart : start.heap.Rooted Native.IsStandard Context.standard.1.scope bound := hrooted
  have hpair : (Context.standard.1.respond host (text "(cons 1 2)") start).1 =
      .ok (.ok (text "(1 . 2)")) := by decide +kernel
  have hrespond : Context.standard.1.respond host (text "(cons 1 2)") start =
      (.ok (.ok (text "(1 . 2)")), _) := Prod.ext hpair rfl
  obtain ⟨_, hadvances⟩ :=
    respond_advances _ _ Context.standard.1 (text "(cons 1 2)") hstart hrespond
  obtain ⟨after, hrun, -⟩ := Context.standard.1.execute_of_response host hrespond
    hadvances.rooted.wellFormed hadvances.rooted.scope_isLive
  obtain ⟨horderly, -, -, hprints⟩ :=
    scripts_build_no_cycles (fun _ _ args => .fail args .typeError) (fun _ _ => ([] : List Unit))
      Context.create_standard hnatives ⟨.empty, ()⟩ [] [] [] rfl
  exact ⟨after, horderly, hrun, hprints _ _ _ hrun⟩

end ConsoleLisp
