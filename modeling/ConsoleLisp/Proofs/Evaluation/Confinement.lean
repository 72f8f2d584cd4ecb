import ConsoleLisp.Level.Natives
import ConsoleLisp.Proofs.Evaluation.Additive

/-!
# Natives that only add

One lemma for each built-in procedure and one for the action on a level: with live arguments it ends
as `Outset.Ends` says, whatever the evaluator below it is, as long as that one settles. Only `set`
owes the journal anything when it comes back, and that is the binding of its first argument.

Results:
* `set_ends`: the one native that binds.
* **`standard_confines`**: the natives of a console.
-/

namespace ConsoleLisp

open Heap Procedure

/-- A built-in native or the action on a level. -/
def Native.IsStandard {χ : Type} (native : Native (Action (LevelAction χ))) : Prop :=
  let natives : NativeSet (Action (LevelAction χ)) := Builtin.natives ++ LevelAction.natives
  native ∈ natives.map Prod.snd

instance {χ : Type} [DecidableEq χ] (native : Native (Action (LevelAction χ))) :
    Decidable native.IsStandard :=
  inferInstanceAs (Decidable (native ∈ _))

variable {κ χ ω ν σ α : Type}

/-- Every native in the heap ends as it may, when it is called on live arguments: what it owes the
journal is the binding that is complete when it comes back. -/
def Outset.Confines (o : Outset κ) (host : Host κ ω ν) : Prop :=
  ∀ e native, o.heap.cell? e = some (.native native) →
    ∀ (depth : Nat) (ev : Scope → Handle → Session κ ω (Moment κ) Outcome)
      (w : Machine κ ω (Moment κ)) (args : Handle) (calls : List (Option Handle)),
      o.Evaluates depth ev → w.depth = depth → o.Intact [] w → w.store.heap.isLive args = true →
      o.Ends
        (fun value => completes native.name (w.store.heap.first? args :: calls) (.ok value)) Live w
        (exec ev (host.procedure native.action o.scope args) w)

theorem completes_of_ne {name : Text} (h : name ≠ Builtin.set.name) (calls : List (Option Handle))
    (outcome : Outcome) : completes name calls outcome = [] := by
  unfold completes
  split
  · exact if_neg h
  · rfl

theorem completes_error (name : Text) (calls : List (Option Handle)) (failure : Failure) :
    completes name calls (.error failure) = [] := by
  rcases calls with _ | ⟨_ | _, _⟩ <;> rfl

section Natives

variable {o : Outset κ} {depth : Nat} {ev : Scope → Handle → Session κ ω (Moment κ) Outcome}
  {w : Machine κ ω (Moment κ)} {args : Handle}

theorem quote_settles (h : o.Intact [] w) (hargs : w.store.heap.isLive args = true) :
    o.Settles Live w (exec ev (Builtin.quote.procedure o.scope args) w) := by
  refine .arguments_bind h hargs fun items _ hitems => ?_
  split
  · exact .pure h (hitems _ List.mem_cons_self)
  · exact .fail h hargs

theorem list_settles (hev : o.Evaluates depth ev) (hd : w.depth = depth) (h : o.Intact [] w)
    (hargs : w.store.heap.isLive args = true) :
    o.Settles Live w (exec ev (Builtin.list.procedure o.scope args) w) := by
  refine .arguments_bind h hargs fun items _ hitems => ?_
  refine .bind (.evaluateAll hev hd h hitems) fun values w₁ h₁ _ hvalues => ?_
  exact .onHeap h₁ (list_adding h₁.adds.wellFormed hvalues)

theorem cons_settles (hev : o.Evaluates depth ev) (hd : w.depth = depth) (h : o.Intact [] w)
    (hargs : w.store.heap.isLive args = true) :
    o.Settles Live w (exec ev (Builtin.cons.procedure o.scope args) w) := by
  refine .arguments_bind h hargs fun items _ hitems => ?_
  refine .bind (.evaluateAll hev hd h hitems) fun values w₁ h₁ hs₁ hvalues => ?_
  split
  · have hhead := hvalues _ List.mem_cons_self
    have htail := hvalues _ (List.mem_cons_of_mem _ List.mem_cons_self)
    exact .onHeap h₁ ((pair_adding h₁.adds.wellFormed hhead htail).imp fun _ _ hc =>
      isLive_of_cell? hc.2)
  · exact .fail h₁ (hs₁.isLive args hargs)

theorem part_settles (hev : o.Evaluates depth ev) (hd : w.depth = depth) (h : o.Intact [] w)
    (hargs : w.store.heap.isLive args = true) (which : PairPart) :
    o.Settles Live w (exec ev ((Builtin.part which).procedure o.scope args) w) := by
  refine .arguments_bind h hargs fun items _ hitems => ?_
  split
  · have he := hitems _ List.mem_cons_self
    refine .bind (.evaluate hev hd h he) fun value w₁ h₁ hs₁ hvalue => ?_
    obtain ⟨c, hin, hc⟩ := exists_inspect hvalue
    refine .look_bind hin ?_
    cases c with
    | pair head tail =>
      obtain ⟨hhead, htail⟩ := h₁.adds.wellFormed.parts_isLive hc
      cases which with
      | head => exact .pure h₁ hhead
      | tail => exact .pure h₁ htail
    | nil | number | symbol | string | native => exact .fail h₁ (hs₁.isLive _ he)
  · exact .fail h hargs

theorem numbers_settles (h : o.Intact [] w) {operands : List (Handle × Handle)}
    (hoperands : ∀ p ∈ operands, w.store.heap.isLive p.1 = true ∧ w.store.heap.isLive p.2 = true) :
    o.Settles (fun _ _ => True) w (exec ev (Builtin.numbers operands) w) := by
  induction operands generalizing w with
  | nil => exact .pure h trivial
  | cons operand rest ih =>
    obtain ⟨hoperand, hrest⟩ := List.forall_mem_cons.mp hoperands
    obtain ⟨c, hin, -⟩ := exists_inspect hoperand.2
    refine .look_bind hin ?_
    generalize c.number? = number
    cases number with
    | none => exact .fail h hoperand.1
    | some n => exact .bind (ih h hrest) fun _ _ h₁ _ _ => .pure h₁ trivial

theorem arithmetic_settles (hev : o.Evaluates depth ev) (hd : w.depth = depth) (h : o.Intact [] w)
    (hargs : w.store.heap.isLive args = true) (operation : Operation) :
    o.Settles Live w (exec ev ((Builtin.arithmetic operation).procedure o.scope args) w) := by
  refine .arguments_bind h hargs fun items _ hitems => ?_
  refine .bind (.evaluateAll hev hd h hitems) fun values w₁ h₁ hs₁ hvalues => ?_
  have hoperands : ∀ p ∈ items.zip values,
      w₁.store.heap.isLive p.1 = true ∧ w₁.store.heap.isLive p.2 = true := fun p hp =>
    ⟨hs₁.isLive p.1 (hitems p.1 (List.of_mem_zip hp).1), hvalues p.2 (List.of_mem_zip hp).2⟩
  refine .bind (numbers_settles h₁ hoperands) fun numbers w₂ h₂ _ _ => ?_
  refine .onHeap h₂ ((allocate_adding h₂.adds.wellFormed (partsLive_atom rfl) ?_).imp fun _ _ hc =>
    isLive_of_cell? hc.2)
  exact nofun

theorem evaluateSequence_settles (hev : o.Evaluates depth ev) (hd : w.depth = depth)
    (h : o.Intact [] w) {last : Handle} (hlast : w.store.heap.isLive last = true)
    {items : List Handle} (hitems : ∀ e ∈ items, w.store.heap.isLive e = true) :
    o.Settles Live w (exec ev (Builtin.evaluateSequence o.scope last items) w) := by
  induction items generalizing w last with
  | nil => exact .pure h hlast
  | cons e rest ih =>
    obtain ⟨he, hrest⟩ := List.forall_mem_cons.mp hitems
    refine .bind (.evaluate hev hd h he) fun value w₁ h₁ hs₁ hvalue => ?_
    exact ih (hs₁.depth_eq.trans hd) h₁ hvalue fun f hf => hs₁.isLive f (hrest f hf)

theorem nil_settles (h : o.Intact [] w) : o.Settles Live w (exec ev (onHeap Heap.nil) w) :=
  .onHeap h ((nil_adding h.adds.wellFormed).imp fun _ _ hc => isLive_of_cell? hc)

theorem begin_settles (hev : o.Evaluates depth ev) (hd : w.depth = depth) (h : o.Intact [] w)
    (hargs : w.store.heap.isLive args = true) :
    o.Settles Live w (exec ev (Builtin.begin.procedure o.scope args) w) := by
  refine .arguments_bind h hargs fun items _ hitems => ?_
  refine .bind (nil_settles h) fun nil w₁ h₁ hs₁ hnil => ?_
  exact evaluateSequence_settles hev (hs₁.depth_eq.trans hd) h₁ hnil fun e he =>
    hs₁.isLive e (hitems e he)

/-- **The one native that binds**: it owes the journal its first argument and its value. -/
theorem set_ends (hev : o.Evaluates depth ev) (hd : w.depth = depth) (h : o.Intact [] w)
    (hargs : w.store.heap.isLive args = true) (calls : List (Option Handle)) :
    o.Ends (fun value =>
        completes Builtin.set.name (w.store.heap.first? args :: calls) (.ok value)) Live
      w (exec ev (Builtin.set.procedure o.scope args) w) := by
  refine .arguments_bind h hargs fun items hlist hitems => ?_
  split
  · rename_i name e
    have hname := hitems name List.mem_cons_self
    obtain ⟨c, hin, hc⟩ := exists_inspect hname
    refine .look_bind (a := c.symbolName?) (by rw [symbolName?, hin]; rfl) ?_
    cases c with
    | symbol text =>
      obtain ⟨tail, hcell⟩ := WellFormed.cell?_of_listItems hlist
      have hfirst : w.store.heap.first? args = some name := by
        rw [first?, hcell]
        rfl
      have he := hitems e (List.mem_cons_of_mem _ List.mem_cons_self)
      refine .bind (.evaluate hev hd h he) fun value w₁ h₁ hs₁ hvalue => ?_
      -- the symbol was looked at before the value was evaluated; no atom has changed since
      rw [hfirst]
      exact .bindScope h₁ (hs₁.atom name _ rfl hc) hvalue
    | nil | number | string | pair | native => exact .fail h hname
  · exact .fail h hargs

theorem displays_settle (h : o.Intact [] w) {values : List Handle}
    (hvalues : ∀ v ∈ values, w.store.heap.isLive v = true) :
    o.Settles (fun _ _ => True) w
      (exec ev (values.mapM fun value => look (·.display value)) w) := by
  induction values with
  | nil => exact .pure h trivial
  | cons value rest ih =>
    obtain ⟨hvalue, hrest⟩ := List.forall_mem_cons.mp hvalues
    obtain ⟨shown, hshown⟩ := h.adds.wellFormed.display_total hvalue
    rw [List.mapM_cons]
    exact .look_bind hshown (.bind (ih hrest) fun _ _ h₁ _ _ => .pure h₁ trivial)

theorem print_settles (hev : o.Evaluates depth ev) (hd : w.depth = depth) (h : o.Intact [] w)
    (hargs : w.store.heap.isLive args = true) :
    o.Settles Live w (exec ev (Builtin.print.procedure o.scope args) w) := by
  refine .arguments_bind h hargs fun items _ hitems => ?_
  refine .bind (.evaluateAll hev hd h hitems) fun values w₁ h₁ _ hvalues => ?_
  refine .bind (displays_settle h₁ hvalues) fun texts w₂ h₂ _ _ => ?_
  exact .bind (.log h₂) fun _ _ h₃ _ _ => nil_settles h₃

/-- A built-in procedure other than `set` owes the journal nothing. -/
theorem builtin_settles (hev : o.Evaluates depth ev) (hd : w.depth = depth) (h : o.Intact [] w)
    (hargs : w.store.heap.isLive args = true) {b : Builtin} (hb : b ≠ .set) :
    o.Settles Live w (exec ev (b.procedure o.scope args) w) := by
  cases b with
  | quote => exact quote_settles h hargs
  | list => exact list_settles hev hd h hargs
  | cons => exact cons_settles hev hd h hargs
  | part which => exact part_settles hev hd h hargs which
  | arithmetic operation => exact arithmetic_settles hev hd h hargs operation
  | begin => exact begin_settles hev hd h hargs
  | set => exact absurd rfl hb
  | print => exact print_settles hev hd h hargs

end Natives

section Level

variable {o : Outset κ} {ev : Scope → Handle → Session κ (Stage σ) (Moment κ) Outcome}
  {w : Machine κ (Stage σ) (Moment κ)} {args : Handle}

/-- The action on a level changes the level and the log, and not the heap. -/
theorem applyForceTo_settles (h : o.Intact [] w) (hargs : w.store.heap.isLive args = true) :
    o.Settles Live w (exec ev (LevelAction.applyForceTo args) w) := by
  refine .arguments_bind h hargs fun items _ hitems => ?_
  split
  · obtain ⟨c, hin, -⟩ := exists_inspect (hitems _ List.mem_cons_self)
    obtain ⟨force, hforce⟩ := h.adds.wellFormed.forceOf_total
      (hitems _ (List.mem_cons_of_mem _ List.mem_cons_self))
    refine .look_bind hin (.look_bind hforce ?_)
    split
    · refine .bind (.onWorld h) fun stage w₁ h₁ _ _ => ?_
      split
      · exact .bind (.log h₁) fun _ _ h₂ _ _ => nil_settles h₂
      · exact .bind (.onWorld h₁) fun _ _ h₂ _ _ =>
          .bind (.log h₂) fun _ _ h₃ _ _ => nil_settles h₃
    · exact .fail h hargs
  · exact .fail h hargs

end Level

/-- Only `set` has the name of `set`. -/
theorem Builtin.name_ne {b : Builtin} (h : b ≠ .set) : b.name ≠ Builtin.set.name := by
  cases b with
  | part which => cases which <;> decide
  | arithmetic operation => cases operation <;> decide
  | quote | list | cons | begin | print => decide
  | set => exact absurd rfl h

theorem LevelAction.name_ne :
    NativeSet.qualifiedName (text "rect") (text "apply-force") ≠ Builtin.set.name := by
  decide

/-- **The natives of a console only add**, and bind where `set` does. -/
theorem standard_confines {o : Outset (Action (LevelAction χ))}
    (custom : χ → Scope → Handle → Procedure (Action (LevelAction χ)) (Stage σ) Handle)
    (observe : Event → Heap (Action (LevelAction χ)) → List ν)
    (hnatives : ∀ e native, o.heap.cell? e = some (.native native) → native.IsStandard) :
    o.Confines (Host.withBuiltins (LevelAction.procedure custom) observe) := by
  intro e native hc depth ev w args calls hev hd h hargs
  obtain ⟨⟨name, _⟩, hmem, rfl⟩ := List.mem_map.mp (hnatives e native hc)
  rcases List.mem_append.mp hmem with hmem | hmem
  · obtain ⟨b, -, heq⟩ := List.mem_map.mp hmem
    cases heq
    by_cases hb : b = .set
    · subst hb
      exact set_ends hev hd h hargs calls
    · exact (builtin_settles hev hd h hargs hb).of_settles fun value =>
        completes_of_ne (Builtin.name_ne hb) _ _
  · cases List.mem_singleton.mp hmem
    exact (applyForceTo_settles h hargs).of_settles fun value =>
      completes_of_ne LevelAction.name_ne _ _

end ConsoleLisp
