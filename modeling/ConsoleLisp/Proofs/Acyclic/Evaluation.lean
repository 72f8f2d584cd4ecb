import ConsoleLisp.Proofs.Acyclic.Requests
import ConsoleLisp.Proofs.Evaluation.Conduct
import ConsoleLisp.Proofs.Evaluation.Confinement
import ConsoleLisp.Proofs.Scope.Walks

/-!
# Evaluations that build no cycle

Scripts never get hold of the root scope: it is part of no pair, so it is neither an item of a list
nor the value of a binding. So every request that a native of a console makes is tame.
`Store.Passes` says that requests lead from one store to another which leave the heap sealed, and
that what was noted meanwhile was noted of heaps on the way.

Results:
* `Sealed.walks`: lookups in the root scope of a sealed heap stop.
* **`Builtin.abides`**, `LevelAction.applyForceTo_abides`: the natives of a console.
* **`evaluateWith_abides`**: an evaluation, by induction on the nesting.
-/

namespace ConsoleLisp

open Heap

variable {κ χ ω ν σ α β : Type}

/-! ## Looking at a sealed heap -/

/-- The result is as `P` says, or its payload is not the root scope. -/
def Fine (root : Handle) (P : α → Prop) : Except Failure α → Prop
  | .ok a => P a
  | .error failure => failure.payload ≠ root

namespace Heap.Sealed

variable {allowed : Native κ → Prop} {root : Handle} {heap : Heap κ}

/-- The root scope runs out: neither the chain nor a frame comes back to itself. -/
theorem scopeEnds (h : heap.Sealed allowed root) : heap.ScopeEnds root := by
  have htails : ∀ e, heap.Acyclic e := by
    intro e f _ hcycle
    have hback := (Relation.transGen_swap (r := heap.TailOf)).mpr hcycle
    refine h.not_transGen f (Relation.TransGen.mono (fun tail e htail => ?_) f f hback)
    obtain ⟨head, hc⟩ := htail
    exact ⟨head, tail, hc, .inr rfl⟩
  obtain ⟨frame, parent, hc⟩ := h.root_pair
  exact (scopeEnds_iff h.wellFormed (isLive_of_cell? hc)).mpr
    ⟨htails root, fun _ frame _ _ _ => htails frame⟩

/-- **Lookups stop.** -/
theorem walks (h : heap.Sealed allowed root) (name : Text) :
    ∃ found, heap.lookupName ⟨root⟩ name = .ok found ∧ ChainWalk heap name root found :=
  @WellFormed.chainWalk κ heap h.wellFormed ⟨root⟩ h.scopeEnds name

theorem binding_ne (h : heap.Sealed allowed root) {e : Handle} {binding : Binding}
    (hb : heap.binding? e = .ok (some binding)) : binding.value ≠ root := by
  obtain ⟨parts, hparts, hb⟩ := exists_of_except_bind hb
  cases parts with
  | none => cases hb
  | some parts =>
    obtain ⟨name, hname, hb⟩ := exists_of_except_bind hb
    obtain ⟨_, -, rfl⟩ := Option.map_eq_some_iff.mp (Except.ok.inj hb)
    exact (h.parts_ne (cell?_of_pair? hparts)).2

/-- What is looked at as a pair. -/
theorem inspect_ne (h : heap.Sealed allowed root) {e : Handle} {c : Cell κ}
    (hin : heap.inspect e = .ok c) : ∀ p ∈ c.pair?, p.1 ≠ root ∧ p.2 ≠ root := by
  intro p hp
  cases c with
  | pair head tail =>
    cases hp
    exact h.parts_ne (inspect_eq_ok_iff.mp hin)
  | nil | number | symbol | string | native => cases hp

/-- What is bound is not the root scope. -/
theorem lookupName_ne (h : heap.Sealed allowed root) {name : Text} {value : Handle}
    (hfound : heap.lookupName ⟨root⟩ name = .ok (some value)) : value ≠ root := by
  have hframe : ∀ {cursor : Handle} {found : Option Handle}, FrameWalk heap name cursor found →
      ∀ v ∈ found, v ≠ root := by
    intro cursor found hwalk
    induction hwalk with
    | done => exact nofun
    | found _ hb =>
      rintro _ ⟨⟩
      exact h.binding_ne hb
    | next _ _ _ _ ih => exact ih
  have hchain : ∀ {cursor : Handle} {found : Option Handle}, ChainWalk heap name cursor found →
      ∀ v ∈ found, v ≠ root := by
    intro cursor found hwalk
    induction hwalk with
    | done => exact nofun
    | found _ hwalk => exact hframe hwalk
    | next _ _ _ ih => exact ih
  obtain ⟨found, heq, hwalk⟩ := h.walks name
  cases hfound.symm.trans heq
  exact hchain hwalk value rfl

/-- The items of a list are not the root scope. -/
theorem listItems_ne (h : heap.Sealed allowed root) {e : Handle} {items : List Handle}
    (hitems : heap.listItems e = .ok (some items)) : ∀ f ∈ items, f ≠ root := by
  have hwalk : ∀ (fuel : Nat) (met : List Handle) (e : Handle), (∀ f ∈ met, f ≠ root) →
      heap.walkList fuel met e = .ok (some items) → ∀ f ∈ items, f ≠ root := by
    intro fuel
    induction fuel with
    | zero =>
      intro met e hmet hrun
      cases hrun
    | succ fuel ih =>
      intro met e hmet hrun
      rw [walkList] at hrun
      cases hin : heap.inspect e with
      | error fault =>
        rw [hin] at hrun
        cases hrun
      | ok c =>
        rw [hin] at hrun
        cases c with
        | nil =>
          cases hrun
          exact fun f hf => hmet f (List.mem_reverse.mp hf)
        | pair head tail =>
          exact ih (head :: met) tail
            (List.forall_mem_cons.mpr ⟨(h.parts_ne (inspect_eq_ok_iff.mp hin)).1, hmet⟩) hrun
        | number | symbol | string | native => cases hrun
  exact hwalk _ [] e (List.forall_mem_nil _) hitems

/-- Neither is an argument, nor the list of arguments where it is refused. -/
theorem splitArguments_ne (h : heap.Sealed allowed root) {args : Handle} (hargs : args ≠ root)
    {arity : Arity} {result : Except Failure (List Handle)}
    (hrun : heap.splitArguments args arity = .ok result) :
    Fine root (fun items => ∀ e ∈ items, e ≠ root) result := by
  obtain ⟨items, hitems, hrun⟩ := exists_of_except_bind hrun
  cases items with
  | none =>
    cases hrun
    exact hargs
  | some items =>
    dsimp only at hrun
    split at hrun
    · cases hrun
      exact h.listItems_ne hitems
    · cases hrun
      exact hargs

end Heap.Sealed

/-! ## Stores and sessions -/

/-- Tame requests lead from one store to the other, and what was noted meanwhile was noted of heaps
on the way. -/
structure Store.Passes (host : Host κ ω ν) (allowed : Native κ → Prop) (root : Handle)
    (s s' : Store κ ω ν) : Prop where
  leads : Leads allowed root s.heap s'.heap
  noted : ∀ note ∈ s'.journal, note ∈ s.journal ∨ ∃ event moment,
    Leads allowed root s.heap moment ∧ Leads allowed root moment s'.heap ∧
      note ∈ host.observe event moment

section Contracts

variable {host : Host κ ω ν} {allowed : Native κ → Prop} {root : Handle}

namespace Store.Passes

theorem refl (s : Store κ ω ν) : s.Passes host allowed root s := ⟨.refl, fun _ h => .inl h⟩

theorem trans {s s' s'' : Store κ ω ν} (h : s.Passes host allowed root s')
    (h' : s'.Passes host allowed root s'') : s.Passes host allowed root s'' := by
  refine ⟨h.leads.trans h'.leads, fun note hnote => ?_⟩
  rcases h'.noted note hnote with hnote | ⟨event, moment, hbefore, hafter, hnote⟩
  · rcases h.noted note hnote with hnote | ⟨event, moment, hbefore, hafter, hnote⟩
    · exact .inl hnote
    · exact .inr ⟨event, moment, hbefore, hafter.trans h'.leads, hnote⟩
  · exact .inr ⟨event, moment, h.leads.trans hbefore, hafter, hnote⟩

/-- An event is noted of the heap as it is. -/
theorem note (event : Event) (s : Store κ ω ν) :
    s.Passes host allowed root (s.note host event) := by
  refine ⟨.refl, fun note hnote => ?_⟩
  rcases List.mem_append.mp hnote with hnote | hnote
  · exact .inr ⟨event, s.heap, .refl, .refl, hnote⟩
  · exact .inl hnote

/-- Nothing has been noted meanwhile. -/
theorem of_leads {s s' : Store κ ω ν} (hl : Leads allowed root s.heap s'.heap)
    (hj : s'.journal = s.journal) : s.Passes host allowed root s' :=
  ⟨hl, fun _ hnote => .inl (hj ▸ hnote)⟩

end Store.Passes

/-- The action on a store makes tame requests only. -/
abbrev Store.Abides (host : Host κ ω ν) (allowed : Native κ → Prop) (root : Handle)
    (x : StoreM κ ω ν α) (P : α → Prop) : Prop :=
  Act.Abides (fun s => s.heap.Sealed allowed root) (Store.Passes host allowed root) x P

theorem Store.regime (host : Host κ ω ν) (allowed : Native κ → Prop) (root : Handle) :
    Act.Regime (fun s => s.heap.Sealed allowed root) (Store.Passes host allowed root) where
  refl := .refl
  trans := .trans
  keep h hp := hp.leads.seal h

/-- So does the action of a session. -/
abbrev Session.Abides (host : Host κ ω ν) (allowed : Native κ → Prop) (root : Handle)
    (x : Session κ ω ν α) (P : α → Prop) : Prop :=
  Act.Abides (fun m : Machine κ ω ν => m.store.heap.Sealed allowed root)
    (fun m m' => m.store.Passes host allowed root m'.store) x P

theorem Session.regime (host : Host κ ω ν) (allowed : Native κ → Prop) (root : Handle) :
    Act.Regime (fun m : Machine κ ω ν => m.store.heap.Sealed allowed root)
      (fun m m' => m.store.Passes host allowed root m'.store) where
  refl m := .refl m.store
  trans := .trans
  keep h hp := hp.leads.seal h

namespace Session.Abides

variable {P : α → Prop} {Q : β → Prop}

theorem pure {a : α} (h : P a) : Abides host allowed root (pure a : Session κ ω ν α) P :=
  Act.Abides.pure (Session.regime host allowed root) h

theorem bind {x : Session κ ω ν α} {f : α → Session κ ω ν β} (hx : Abides host allowed root x P)
    (hf : ∀ a, P a → Abides host allowed root (f a) Q) : Abides host allowed root (x >>= f) Q :=
  Act.Abides.bind (Session.regime host allowed root) hx hf

/-- Looking makes no request. -/
theorem look {f : Heap κ → Except Fault α}
    (h : ∀ heap, heap.Sealed allowed root → ∀ a, f heap = .ok a → P a) :
    Abides host allowed root (Session.look f : Session κ ω ν α) P :=
  fun m hm => ⟨.refl m.store, fun a ha => h m.store.heap hm a ha⟩

theorem note (event : Event) :
    Abides host allowed root (Session.note host event) fun _ => True :=
  fun m _ => ⟨.note event m.store, fun _ _ => trivial⟩

theorem deeper {body : Session κ ω ν α} (h : Abides host allowed root body P) :
    Abides host allowed root (Session.deeper body) P :=
  fun m hm => h { m with depth := m.depth + 1 } hm

end Session.Abides

/-- Whatever is evaluated in the root scope, requests are tame, and neither the value nor the
payload is the root scope. -/
def Session.Tame (host : Host κ ω ν) (allowed : Native κ → Prop) (root : Handle)
    (ev : Scope → Handle → Session κ ω ν Outcome) : Prop :=
  ∀ e, e ≠ root → Session.Abides host allowed root (ev ⟨root⟩ e) fun outcome =>
    outcome.subject ≠ root

/-! ## Procedures -/

namespace Procedure

/-- The procedure makes tame requests only, where the evaluator does. -/
def Abides (host : Host κ ω ν) (allowed : Native κ → Prop) (root : Handle) (p : Procedure κ ω α)
    (P : α → Prop) : Prop :=
  ∀ ev, Session.Tame host allowed root ev →
    Session.Abides host allowed root (exec ev p) (Fine root P)

namespace Abides

variable {P : α → Prop} {Q : β → Prop}

theorem pure {a : α} (h : P a) : Abides host allowed root (pure a : Procedure κ ω α) P :=
  fun _ _ => Session.Abides.pure h

theorem throw {failure : Failure} (h : failure.payload ≠ root) :
    Abides host allowed root (throw failure : Procedure κ ω α) P :=
  fun _ _ => Session.Abides.pure h

theorem fail {payload : Handle} {code : FailureCode} (h : payload ≠ root) :
    Abides host allowed root (fail payload code : Procedure κ ω α) P :=
  .throw h

theorem bind {p : Procedure κ ω α} {f : α → Procedure κ ω β} (hp : Abides host allowed root p P)
    (hf : ∀ a, P a → Abides host allowed root (f a) Q) :
    Abides host allowed root (p >>= f) Q := by
  intro ev hev
  have hsequence : exec ev (p >>= f) = exec ev p >>= fun result => match result with
      | .ok a => exec ev (f a)
      | .error failure => Pure.pure (.error failure) := by
    funext m
    rw [exec_bind, Act.run_bind]
    rcases exec ev p m with ⟨_ | _ | _, _⟩ <;> rfl
  rw [hsequence]
  refine (hp ev hev).bind fun result hresult => ?_
  cases result with
  | ok a => exact hf a hresult ev hev
  | error failure => exact .pure hresult

theorem onHeap {action : HeapM κ α} (h : Heap.Abides allowed root action P) :
    Abides host allowed root (onHeap action : Procedure κ ω α) P := by
  intro ev _ m hm
  obtain ⟨hleads, hP⟩ := h m.store.heap hm
  rcases hrun : action m.store.heap with ⟨fault | a, heap⟩ <;> rw [hrun] at hleads hP
  · rw [exec_onHeap_error hrun]
    exact ⟨.of_leads hleads rfl, nofun⟩
  · rw [exec_onHeap hrun]
    refine ⟨.of_leads hleads rfl, ?_⟩
    rintro _ ⟨⟩
    exact hP a rfl

theorem look {f : Heap κ → Except Fault α}
    (h : ∀ heap, heap.Sealed allowed root → ∀ a, f heap = .ok a → P a) :
    Abides host allowed root (look f : Procedure κ ω α) P :=
  onHeap (view_abides h)

/-- Looking at what does not matter. -/
theorem glance (f : Heap κ → Except Fault α) :
    Abides host allowed root (Procedure.look f : Procedure κ ω α) fun _ => True :=
  look fun _ _ _ _ => trivial

theorem onWorld (action : StateM ω α) :
    Abides host allowed root (onWorld action : Procedure κ ω α) fun _ => True :=
  fun _ _ m _ => ⟨.of_leads .refl rfl, by rintro _ ⟨⟩; trivial⟩

theorem log (level : LogLevel) (message : Text) :
    Abides host allowed root (log level message : Procedure κ ω Unit) fun _ => True :=
  fun _ _ m _ => ⟨.of_leads .refl rfl, by rintro _ ⟨⟩; trivial⟩

theorem evaluate {e : Handle} (he : e ≠ root) :
    Abides host allowed root (evaluate ⟨root⟩ e : Procedure κ ω Handle) (· ≠ root) := by
  intro ev hev m hm
  rw [exec_evaluate]
  obtain ⟨hpasses, houtcome⟩ := hev e he m hm
  refine ⟨hpasses, fun outcome hrun => ?_⟩
  cases outcome with
  | ok value => exact houtcome _ hrun
  | error failure => exact houtcome _ hrun

/-! ### What natives are made of -/

theorem arguments {args : Handle} (hargs : args ≠ root) (arity : Arity) :
    Abides host allowed root (arguments args arity : Procedure κ ω (List Handle))
      fun items => ∀ e ∈ items, e ≠ root := by
  refine (look fun heap h result hrun => h.splitArguments_ne hargs hrun).bind
    fun result hresult => ?_
  cases result with
  | ok items => exact .pure hresult
  | error failure => exact .throw hresult

theorem evaluateAll {items : List Handle} (hitems : ∀ e ∈ items, e ≠ root) :
    Abides host allowed root (evaluateAll ⟨root⟩ items : Procedure κ ω (List Handle))
      fun values => ∀ value ∈ values, value ≠ root := by
  induction items with
  | nil => exact .pure nofun
  | cons e rest ih =>
    obtain ⟨he, hrest⟩ := List.forall_mem_cons.mp hitems
    exact (evaluate he).bind fun value hvalue => (ih hrest).bind fun values hvalues =>
      .pure (List.forall_mem_cons.mpr ⟨hvalue, hvalues⟩)

theorem mapM {f : α → Procedure κ ω β}
    (hf : ∀ a, Abides host allowed root (f a) fun _ => True) (items : List α) :
    Abides host allowed root (items.mapM f) fun _ => True := by
  induction items with
  | nil => exact .pure trivial
  | cons a rest ih =>
    rw [List.mapM_cons]
    exact (hf a).bind fun _ _ => ih.bind fun _ _ => .pure trivial

end Abides

end Procedure

end Contracts

/-! ## The natives of a console -/

namespace Builtin

open Procedure

variable {host : Host κ ω ν} {allowed : Native κ → Prop} {root args : Handle}

theorem numbers_abides {operands : List (Handle × Handle)} (h : ∀ p ∈ operands, p.1 ≠ root) :
    Procedure.Abides host allowed root (numbers operands : Procedure κ ω (List Number))
      fun _ => True := by
  induction operands with
  | nil => exact .pure trivial
  | cons operand rest ih =>
    obtain ⟨hoperand, hrest⟩ := List.forall_mem_cons.mp h
    refine (Abides.glance _).bind fun cell _ => ?_
    generalize cell.number? = number
    cases number with
    | none => exact .fail hoperand
    | some n => exact (ih hrest).bind fun _ _ => .pure trivial

theorem evaluateSequence_abides {last : Handle} (hlast : last ≠ root) {items : List Handle}
    (hitems : ∀ e ∈ items, e ≠ root) :
    Procedure.Abides host allowed root
      (evaluateSequence ⟨root⟩ last items : Procedure κ ω Handle) (· ≠ root) := by
  induction items generalizing last with
  | nil => exact .pure hlast
  | cons e rest ih =>
    obtain ⟨he, hrest⟩ := List.forall_mem_cons.mp hitems
    exact (Abides.evaluate he).bind fun value hvalue => ih hvalue hrest

/-- **The built-in procedures** make tame requests only. -/
theorem abides (b : Builtin) (hargs : args ≠ root) :
    Procedure.Abides host allowed root (b.procedure ⟨root⟩ args : Procedure κ ω Handle)
      (· ≠ root) := by
  cases b with
  | quote =>
    refine (Abides.arguments hargs _).bind fun items hitems => ?_
    split
    · exact .pure (hitems _ List.mem_cons_self)
    · exact .fail hargs
  | list =>
    exact (Abides.arguments hargs _).bind fun items hitems =>
      (Abides.evaluateAll hitems).bind fun values hvalues => .onHeap (list_abides hvalues)
  | cons =>
    refine (Abides.arguments hargs _).bind fun items hitems =>
      (Abides.evaluateAll hitems).bind fun values hvalues => ?_
    split
    · obtain ⟨hhead, htail⟩ := List.forall_mem_cons.mp hvalues
      exact .onHeap (pair_abides hhead (htail _ List.mem_cons_self))
    · exact .fail hargs
  | part which =>
    refine (Abides.arguments hargs _).bind fun items hitems => ?_
    split
    · have he := hitems _ List.mem_cons_self
      refine (Abides.evaluate he).bind fun value _ => ?_
      refine (Abides.look fun _ h _ hin => h.inspect_ne hin).bind fun cell hcell => ?_
      cases cell with
      | pair head tail =>
        obtain ⟨hhead, htail⟩ := hcell _ rfl
        cases which with
        | head => exact .pure hhead
        | tail => exact .pure htail
      | nil | number | symbol | string | native => exact .fail he
    · exact .fail hargs
  | arithmetic operation =>
    refine (Abides.arguments hargs _).bind fun items hitems =>
      (Abides.evaluateAll hitems).bind fun values _ => ?_
    have hoperands : ∀ p ∈ items.zip values, p.1 ≠ root := fun p hp =>
      hitems p.1 (List.of_mem_zip hp).1
    exact (numbers_abides hoperands).bind fun numbers _ =>
      .onHeap (handle_abides (.number (operation.fold numbers)) trivial rfl)
  | begin =>
    exact (Abides.arguments hargs _).bind fun items hitems =>
      (Abides.onHeap nil_abides).bind fun nil hnil => evaluateSequence_abides hnil hitems
  | set =>
    refine (Abides.arguments hargs _).bind fun items hitems => ?_
    split
    · rename_i name e
      have hname := hitems name List.mem_cons_self
      have he := hitems e (List.mem_cons_of_mem _ List.mem_cons_self)
      refine (Abides.glance _).bind fun symbol _ => ?_
      split
      · exact .fail hname
      · exact (Abides.evaluate he).bind fun value hvalue =>
          (Abides.onHeap (bind_abides hname hvalue)).bind fun _ _ => .pure hvalue
    · exact .fail hargs
  | print =>
    exact (Abides.arguments hargs _).bind fun items hitems =>
      (Abides.evaluateAll hitems).bind fun values _ =>
        (Abides.mapM (fun _ => .glance _) values).bind fun _ _ =>
          (Abides.log _ _).bind fun _ _ => .onHeap nil_abides

end Builtin

namespace LevelAction

open Procedure

/-- The action on a level asks for nothing but nil. -/
theorem applyForceTo_abides {host : Host κ (Stage σ) ν} {allowed : Native κ → Prop}
    {root args : Handle} (hargs : args ≠ root) :
    Procedure.Abides host allowed root (applyForceTo args) (· ≠ root) := by
  refine (Abides.arguments hargs _).bind fun items _ => ?_
  split
  · refine (Abides.glance _).bind fun id _ => ?_
    refine (Abides.glance _).bind fun force _ => ?_
    split
    · refine (Abides.onWorld _).bind fun stage _ => ?_
      split
      · exact (Abides.log _ _).bind fun _ _ => .onHeap nil_abides
      · exact (Abides.onWorld _).bind fun _ _ =>
          (Abides.log _ _).bind fun _ _ => .onHeap nil_abides
    · exact .fail hargs
  · exact .fail hargs

end LevelAction

/-- The natives that are allowed make tame requests only. -/
def Host.Abides (host : Host κ ω ν) (allowed : Native κ → Prop) (root : Handle) : Prop :=
  ∀ native, allowed native → ∀ args, args ≠ root →
    Procedure.Abides host allowed root (host.procedure native.action ⟨root⟩ args) (· ≠ root)

/-- **The natives of a console make tame requests only.** -/
theorem standard_abides
    (custom : χ → Scope → Handle → Procedure (Action (LevelAction χ)) (Stage σ) Handle)
    (observe : Event → Heap (Action (LevelAction χ)) → List ν) (root : Handle) :
    (Host.withBuiltins (LevelAction.procedure custom) observe).Abides Native.IsStandard root := by
  intro native hnative args hargs
  obtain ⟨⟨name, _⟩, hmem, rfl⟩ := List.mem_map.mp hnative
  rcases List.mem_append.mp hmem with hmem | hmem
  · obtain ⟨b, -, heq⟩ := List.mem_map.mp hmem
    cases heq
    exact b.abides hargs
  · cases List.mem_singleton.mp hmem
    exact LevelAction.applyForceTo_abides hargs

/-! ## The evaluator -/

section Evaluator

variable {host : Host κ ω ν} {allowed : Native κ → Prop} {root : Handle}
  {ev : Scope → Handle → Session κ ω ν Outcome} {head args : Handle}

theorem callNative_abides (hhost : host.Abides allowed root)
    (hev : Session.Tame host allowed root ev) {native : Native κ} (hnative : allowed native)
    (hargs : args ≠ root) :
    Session.Abides host allowed root (callNative host ev native ⟨root⟩ args) fun outcome =>
      outcome.subject ≠ root := by
  refine (Session.Abides.note _).bind fun _ _ => ?_
  refine Session.Abides.bind (hhost native hnative args hargs ev hev) fun outcome houtcome => ?_
  refine (Session.Abides.note _).bind fun _ _ => .pure ?_
  cases outcome with
  | ok value => exact houtcome
  | error failure => exact houtcome

theorem applyForm_abides (hhost : host.Abides allowed root)
    (hev : Session.Tame host allowed root ev) (hhead : head ≠ root) (hargs : args ≠ root) :
    Session.Abides host allowed root (applyForm host ev ⟨root⟩ head args) fun outcome =>
      outcome.subject ≠ root := by
  have hoperator : Session.Abides host allowed root (operatorOf ev ⟨root⟩ head) fun outcome =>
      outcome.subject ≠ root := by
    refine (Session.Abides.look (P := fun _ => True) fun _ _ _ _ => trivial).bind fun kind _ => ?_
    cases kind with
    | symbol | pair => exact hev head hhead
    | nil | number | string | native => exact .pure hhead
  rw [applyForm_eq]
  refine hoperator.bind fun operator hsubject => ?_
  cases operator with
  | error failure => exact .pure hsubject
  | ok operator =>
    refine (Session.Abides.look (P := fun cell => ∀ native, cell = .native native →
      allowed native) fun heap h cell hin native hcell => ?_).bind fun cell hcell => ?_
    · subst hcell
      exact h.natives operator native (inspect_eq_ok_iff.mp hin)
    · cases cell with
      | native native => exact callNative_abides hhost hev (hcell native rfl) hargs
      | nil | number | symbol | string | pair => exact .pure hhead

theorem dispatch_abides (hhost : host.Abides allowed root)
    (hev : Session.Tame host allowed root ev) (limits : Limits) {form : Handle}
    (hform : form ≠ root) (hhead : head ≠ root) (hargs : args ≠ root) :
    Session.Abides host allowed root (dispatch host limits ev ⟨root⟩ form head args) fun outcome =>
      outcome.subject ≠ root := by
  have hcount : Session.Abides host allowed root
      (modify fun m : Machine κ ω ν => { m with steps := m.steps + 1 }) fun _ => True :=
    fun m _ => ⟨.refl m.store, fun _ _ => trivial⟩
  have hget : Session.Abides host allowed root (get : Session κ ω ν (Machine κ ω ν))
      fun _ => True := fun m _ => ⟨.refl m.store, fun _ _ => trivial⟩
  refine hget.bind fun m _ => ?_
  dsimp only
  split
  · exact (Session.Abides.note _).bind fun _ _ => .pure hform
  · refine .deeper ?_
    refine hcount.bind fun _ _ => ?_
    refine hget.bind fun m _ => ?_
    split
    · exact (Session.Abides.note _).bind fun _ _ => .pure hform
    · exact (Session.Abides.note _).bind fun _ _ => applyForm_abides hhost hev hhead hargs

/-- **An evaluation makes tame requests only**, and neither its value nor its payload is the root
scope. By induction on the nesting. -/
theorem evaluateWith_abides (hhost : host.Abides allowed root) (limits : Limits) (fuel : Nat) :
    Session.Tame host allowed root (evaluateWith host limits fuel) := by
  induction fuel with
  | zero => exact fun _ _ => Act.Abides.throw (Session.regime host allowed root) _
  | succ fuel ih =>
    intro e he
    refine (Session.Abides.look fun _ h _ hin => h.inspect_ne hin).bind fun cell hcell => ?_
    cases cell with
    | pair head tail =>
      obtain ⟨hhead, htail⟩ := hcell _ rfl
      exact dispatch_abides hhost ih limits he hhead htail
    | nil | number | string | native => exact .pure he
    | symbol name =>
      refine (Session.Abides.look (P := fun found => ∀ value ∈ found, value ≠ root)
        fun heap h found hfound value hvalue => ?_).bind fun found hfound => ?_
      · cases hvalue
        exact h.lookupName_ne hfound
      · cases found with
        | some value => exact .pure (hfound value rfl)
        | none => exact .pure he

end Evaluator

end ConsoleLisp
