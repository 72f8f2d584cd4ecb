import ConsoleLisp.Proofs.Evaluation.Confinement
import ConsoleLisp.Proofs.Layout.Procedure

/-!
# The natives of a console on two layouts

One lemma for each built-in procedure: on matched arguments it does alike in both heaps, whatever the
evaluators below it are, as long as those do. The worlds of the hosts do not matter to them. The
action on a level does alike where the worlds are equal.

Results:
* `numbers_agree`, `evaluateSequence_agree`, `displays_agree`: the loops of the procedures.
* **`builtin_agrees`**, `applyForceTo_agrees`.
* **`respects_of_builtin`**, **`respects_of_standard`**: whole hosts.
-/

namespace ConsoleLisp

open Heap Layouts Procedure

namespace Comparison

variable {κ χ ω ν ν' σ : Type}

section Builtins

variable {c : Comparison κ ω} {ρ : Matching} {depth : Nat}
  {ev ev' : Scope → Handle → Session κ ω (Moment κ) Outcome} {w w' : Machine κ ω (Moment κ)}
  {args args' : Handle}

theorem quote_agrees (h : c.Holds ρ w w') (hargs : ρ args args') :
    c.Ends Matched ρ w (exec ev (Builtin.quote.procedure c.scope args) w)
      (exec ev' (Builtin.quote.procedure c.scope' args') w') := by
  refine .arguments_bind h hargs fun items items' hitems => ?_
  cases hitems with
  | nil => exact .fail h hargs
  | cons hquoted hrest =>
    cases hrest with
    | nil => exact .pure h hquoted
    | cons => exact .fail h hargs

theorem list_agrees (hev : c.Evaluates depth ev ev') (hd : w.depth = depth) (h : c.Holds ρ w w')
    (hargs : ρ args args') :
    c.Ends Matched ρ w (exec ev (Builtin.list.procedure c.scope args) w)
      (exec ev' (Builtin.list.procedure c.scope' args') w') := by
  refine .arguments_bind h hargs fun items items' hitems => ?_
  refine .bind (.evaluateAll hev hd h hitems) fun ρ₁ values values' w₁ w₁' _ h₁ _ hvalues => ?_
  exact .onHeap h₁ (list_ends h₁.heap hvalues)

theorem cons_agrees (hev : c.Evaluates depth ev ev') (hd : w.depth = depth) (h : c.Holds ρ w w')
    (hargs : ρ args args') :
    c.Ends Matched ρ w (exec ev (Builtin.cons.procedure c.scope args) w)
      (exec ev' (Builtin.cons.procedure c.scope' args') w') := by
  refine .arguments_bind h hargs fun items items' hitems => ?_
  refine .bind (.evaluateAll hev hd h hitems) fun ρ₁ values values' w₁ w₁' hρ₁ h₁ _ hvalues => ?_
  have hfail : ρ₁ args args' := hρ₁ _ _ hargs
  cases hvalues with
  | nil => exact .fail h₁ hfail
  | cons hhead hrest =>
    cases hrest with
    | nil => exact .fail h₁ hfail
    | cons htail hrest =>
      cases hrest with
      | nil => exact .onHeap h₁ (pair_ends h₁.heap hhead htail)
      | cons => exact .fail h₁ hfail

theorem part_agrees (hev : c.Evaluates depth ev ev') (hd : w.depth = depth) (h : c.Holds ρ w w')
    (hargs : ρ args args') (which : PairPart) :
    c.Ends Matched ρ w (exec ev ((Builtin.part which).procedure c.scope args) w)
      (exec ev' ((Builtin.part which).procedure c.scope' args') w') := by
  refine .arguments_bind h hargs fun items items' hitems => ?_
  cases hitems with
  | nil => exact .fail h hargs
  | cons he hrest =>
    cases hrest with
    | cons => exact .fail h hargs
    | nil =>
      refine .bind (.evaluate hev hd h he) fun ρ₁ value value' w₁ w₁' hρ₁ h₁ _ hvalue => ?_
      obtain ⟨cell, cell', hin, hin', hmatch⟩ := h₁.heap.inspect hvalue
      refine .look_bind hin hin' ?_
      cases hmatch with
      | pair hhead htail =>
        cases which with
        | head => exact .pure h₁ hhead
        | tail => exact .pure h₁ htail
      | nil | number | symbol | string | native => exact .fail h₁ (hρ₁ _ _ he)

/-- Matched values are the same numbers, or the first that is none is matched. -/
theorem numbers_agree (h : c.Holds ρ w w') {items items' values values' : List Handle}
    (hitems : MatchedAll ρ items items') (hvalues : MatchedAll ρ values values') :
    c.Ends Equal ρ w (exec ev (Builtin.numbers (items.zip values)) w)
      (exec ev' (Builtin.numbers (items'.zip values')) w') := by
  induction hitems generalizing values values' with
  | nil => exact .pure h rfl
  | cons he _ ih =>
    cases hvalues with
    | nil => exact .pure h rfl
    | cons hvalue hrest =>
      obtain ⟨cell, cell', hin, hin', hmatch⟩ := h.heap.inspect hvalue
      refine .look_bind hin hin' ?_
      rw [hmatch.number?_eq]
      cases cell.number? with
      | none => exact .fail h he
      | some n =>
        refine .bind (ih hrest) fun ρ₁ numbers numbers' w₁ w₁' _ h₁ _ hsame => ?_
        exact .pure h₁ (congrArg (n :: ·) hsame)

theorem arithmetic_agrees (hev : c.Evaluates depth ev ev') (hd : w.depth = depth)
    (h : c.Holds ρ w w') (hargs : ρ args args') (operation : Operation) :
    c.Ends Matched ρ w (exec ev ((Builtin.arithmetic operation).procedure c.scope args) w)
      (exec ev' ((Builtin.arithmetic operation).procedure c.scope' args') w') := by
  refine .arguments_bind h hargs fun items items' hitems => ?_
  refine .bind (.evaluateAll hev hd h hitems) fun ρ₁ values values' w₁ w₁' hρ₁ h₁ _ hvalues => ?_
  refine .bind (numbers_agree h₁ (MatchedAll.mono hitems hρ₁) hvalues)
    fun ρ₂ operands operands' w₂ w₂' _ h₂ _ hsame => ?_
  obtain rfl : operands = operands' := hsame
  exact .onHeap h₂ (allocate_ends h₂.heap (.number _) nofun)

theorem evaluateSequence_agrees (hev : c.Evaluates depth ev ev') (hd : w.depth = depth)
    (h : c.Holds ρ w w') {last last' : Handle} (hlast : ρ last last') {items items' : List Handle}
    (hitems : MatchedAll ρ items items') :
    c.Ends Matched ρ w (exec ev (Builtin.evaluateSequence c.scope last items) w)
      (exec ev' (Builtin.evaluateSequence c.scope' last' items') w') := by
  induction items generalizing ρ w w' last last' items' with
  | nil =>
    cases hitems
    exact .pure h hlast
  | cons e rest ih =>
    cases hitems with
    | cons he hrest =>
      refine .bind (.evaluate hev hd h he) fun ρ₁ value value' w₁ w₁' hρ₁ h₁ hs₁ hvalue => ?_
      exact ih (hs₁.1.trans hd) h₁ hvalue (MatchedAll.mono hrest hρ₁)

theorem begin_agrees (hev : c.Evaluates depth ev ev') (hd : w.depth = depth) (h : c.Holds ρ w w')
    (hargs : ρ args args') :
    c.Ends Matched ρ w (exec ev (Builtin.begin.procedure c.scope args) w)
      (exec ev' (Builtin.begin.procedure c.scope' args') w') := by
  refine .arguments_bind h hargs fun items items' hitems => ?_
  refine .bind (.onHeap h (nil_ends h.heap)) fun ρ₁ nil nil' w₁ w₁' hρ₁ h₁ hs₁ hnil => ?_
  exact evaluateSequence_agrees hev (hs₁.1.trans hd) h₁ hnil (MatchedAll.mono hitems hρ₁)

/-- **Both scopes are bound alike.** -/
theorem set_agrees (hev : c.Evaluates depth ev ev') (hd : w.depth = depth) (h : c.Holds ρ w w')
    (hargs : ρ args args') :
    c.Ends Matched ρ w (exec ev (Builtin.set.procedure c.scope args) w)
      (exec ev' (Builtin.set.procedure c.scope' args') w') := by
  refine .arguments_bind h hargs fun items items' hitems => ?_
  cases hitems with
  | nil => exact .fail h hargs
  | @cons name name' _ _ hname hrest =>
    cases hrest with
    | nil => exact .fail h hargs
    | cons he hrest =>
      cases hrest with
      | cons => exact .fail h hargs
      | nil =>
        obtain ⟨cell, cell', hin, hin', hmatch⟩ := h.heap.inspect hname
        have hlook : w.store.heap.symbolName? name = .ok cell.symbolName? := by
          rw [symbolName?, hin]
          rfl
        have hlook' : w'.store.heap.symbolName? name' = .ok cell.symbolName? := by
          rw [symbolName?, hin', ← hmatch.symbolName?_eq]
          rfl
        refine .look_bind hlook hlook' ?_
        cases cell with
        | symbol text =>
          refine .bind (.evaluate hev hd h he) fun ρ₁ value value' w₁ w₁' hρ₁ h₁ hs₁ hvalue => ?_
          -- the symbol was looked at before the value was evaluated; no atom has changed since
          have hsymbol := hs₁.2 name _ rfl (inspect_eq_ok_iff.mp hin)
          refine .bind (.onHeap h₁ (bind_ends h₁.heap hsymbol (hρ₁ _ _ hname) hvalue))
            fun ρ₂ _ _ w₂ w₂' hρ₂ h₂ _ _ => ?_
          exact .pure h₂ (hρ₂ _ _ hvalue)
        | nil | number | string | pair | native => exact .fail h hname

/-- Matched values are displayed as the same texts. -/
theorem displays_agree (h : c.Holds ρ w w') {values values' : List Handle}
    (hvalues : MatchedAll ρ values values') :
    c.Ends Equal ρ w (exec ev (values.mapM fun value => look (·.display value)) w)
      (exec ev' (values'.mapM fun value => look (·.display value)) w') := by
  induction hvalues with
  | nil => exact .pure h rfl
  | cons hvalue _ ih =>
    obtain ⟨shown, hshown, hshown'⟩ := h.heap.display hvalue
    rw [List.mapM_cons, List.mapM_cons]
    refine .look_bind hshown hshown' (.bind ih fun ρ₁ texts texts' w₁ w₁' _ h₁ _ hsame => ?_)
    exact .pure h₁ (congrArg (shown :: ·) hsame)

theorem print_agrees (hev : c.Evaluates depth ev ev') (hd : w.depth = depth) (h : c.Holds ρ w w')
    (hargs : ρ args args') :
    c.Ends Matched ρ w (exec ev (Builtin.print.procedure c.scope args) w)
      (exec ev' (Builtin.print.procedure c.scope' args') w') := by
  refine .arguments_bind h hargs fun items items' hitems => ?_
  refine .bind (.evaluateAll hev hd h hitems) fun ρ₁ values values' w₁ w₁' _ h₁ _ hvalues => ?_
  refine .bind (displays_agree h₁ hvalues) fun ρ₂ texts texts' w₂ w₂' _ h₂ _ hsame => ?_
  obtain rfl : texts = texts' := hsame
  exact .bind (.log h₂) fun ρ₃ _ _ w₃ w₃' _ h₃ _ _ => .onHeap h₃ (nil_ends h₃.heap)

/-- **A built-in procedure does alike** on matched arguments. -/
theorem builtin_agrees (hev : c.Evaluates depth ev ev') (hd : w.depth = depth)
    (h : c.Holds ρ w w') (hargs : ρ args args') (b : Builtin) :
    c.Ends Matched ρ w (exec ev (b.procedure c.scope args) w)
      (exec ev' (b.procedure c.scope' args') w') := by
  cases b with
  | quote => exact quote_agrees h hargs
  | list => exact list_agrees hev hd h hargs
  | cons => exact cons_agrees hev hd h hargs
  | part which => exact part_agrees hev hd h hargs which
  | arithmetic operation => exact arithmetic_agrees hev hd h hargs operation
  | begin => exact begin_agrees hev hd h hargs
  | set => exact set_agrees hev hd h hargs
  | print => exact print_agrees hev hd h hargs

end Builtins

section Level

variable {c : Comparison κ (Stage σ)} {ρ : Matching}
  {ev ev' : Scope → Handle → Session κ (Stage σ) (Moment κ) Outcome}
  {w w' : Machine κ (Stage σ) (Moment κ)} {args args' : Handle}

/-- The action on a level does alike where the levels are the same. -/
theorem applyForceTo_agrees (hworld : c.world = Eq) (h : c.Holds ρ w w') (hargs : ρ args args') :
    c.Ends Matched ρ w (exec ev (LevelAction.applyForceTo args) w)
      (exec ev' (LevelAction.applyForceTo args') w') := by
  refine .arguments_bind h hargs fun items items' hitems => ?_
  cases hitems with
  | nil => exact .fail h hargs
  | cons hid hrest =>
    cases hrest with
    | nil => exact .fail h hargs
    | cons hforce hrest =>
      cases hrest with
      | cons => exact .fail h hargs
      | nil =>
        obtain ⟨cell, cell', hin, hin', hmatch⟩ := h.heap.inspect hid
        obtain ⟨force, hlook, hlook'⟩ := h.heap.forceOf hforce
        refine .look_bind hin hin' (.look_bind hlook hlook' ?_)
        rw [hmatch.atomText?_eq]
        cases cell.atomText? with
        | none => exact .fail h hargs
        | some id =>
          cases force with
          | none => exact .fail h hargs
          | some force =>
            have hnil : ∀ {ρ : Matching} {w w' : Machine κ (Stage σ) (Moment κ)},
                c.Holds ρ w w' → c.Ends Matched ρ w (exec ev (onHeap Heap.nil) w)
                  (exec ev' (onHeap Heap.nil) w') :=
              fun h => .onHeap h (nil_ends h.heap)
            have hsame : ∀ {ρ : Matching} {w w' : Machine κ (Stage σ) (Moment κ)},
                c.Holds ρ w w' → w.store.world = w'.store.world := by
              intro ρ w w' h
              rw [← hworld]
              exact h.world
            refine .bind (.onWorld h ⟨hsame h, h.world⟩) fun ρ₁ stage stage' w₁ w₁' _ h₁ _ hget => ?_
            obtain rfl : stage = stage' := hget
            cases stage.level.rect? id with
            | none => exact .bind (.log h₁) fun ρ₂ _ _ w₂ w₂' _ h₂ _ _ => hnil h₂
            | some rect =>
              refine .bind (.onWorld h₁ ⟨rfl, ?_⟩) fun ρ₂ _ _ w₂ w₂' _ h₂ _ _ =>
                .bind (.log h₂) fun ρ₃ _ _ w₃ w₃' _ h₃ _ _ => hnil h₃
              rw [hworld, hsame h₁]

end Level

/-- **Hosts that give the built-in procedures their meaning** do alike where there are no other
natives. -/
theorem respects_of_builtin {c : Comparison (Action χ) ω}
    (custom custom' : χ → Scope → Handle → Procedure (Action χ) ω Handle)
    (observe : Event → Heap (Action χ) → List ν) (observe' : Event → Heap (Action χ) → List ν')
    (hnative : ∀ native, c.native native → ∃ b, native.action = .builtin b) :
    c.Respects (Host.withBuiltins custom observe) (Host.withBuiltins custom' observe') := by
  intro native hn depth ev ev' ρ w w' args args' hev hd h hargs
  obtain ⟨b, hb⟩ := hnative native hn
  rw [hb]
  exact builtin_agrees hev hd h hargs b

/-- **A console does alike** with its own natives, where the levels are the same. -/
theorem respects_of_standard {c : Comparison (Action (LevelAction χ)) (Stage σ)}
    (custom : χ → Scope → Handle → Procedure (Action (LevelAction χ)) (Stage σ) Handle)
    (observe : Event → Heap (Action (LevelAction χ)) → List ν) (hworld : c.world = Eq)
    (hnative : ∀ native, c.native native → native.IsStandard) :
    c.Respects (Host.withBuiltins (LevelAction.procedure custom) observe)
      (Host.withBuiltins (LevelAction.procedure custom) observe) := by
  intro native hn depth ev ev' ρ w w' args args' hev hd h hargs
  obtain ⟨⟨name, _⟩, hmem, rfl⟩ := List.mem_map.mp (hnative native hn)
  rcases List.mem_append.mp hmem with hmem | hmem
  · obtain ⟨b, -, heq⟩ := List.mem_map.mp hmem
    cases heq
    exact builtin_agrees hev hd h hargs b
  · cases List.mem_singleton.mp hmem
    exact applyForceTo_agrees hworld h hargs

end Comparison

end ConsoleLisp
