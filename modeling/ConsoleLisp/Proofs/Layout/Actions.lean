import ConsoleLisp.Proofs.Layout.Matching

/-!
# Actions on two layouts

A `Regime` says how the states of two runs are related by a matching. `Regime.Ends` is what is to be
shown of two runs side by side: both return, in related states and with related results, or one of
them ends in a fault, and then its state is related to one that the other run went through.

Results:
* **`Regime.Ends.bind`**: two sequences end as their parts do.
* `nil_ends`, `allocate_ends`, `pair_ends`, `list_ends`: what adds cells.
* **`bind_ends`**: a binding in both scopes.
* `read_ends`: one text read into both heaps.
-/

namespace ConsoleLisp

open Heap

/-- How two runs on states `σ` are related: the states by a matching, a state to those before it in
the first run, and the faults that may end either run. -/
structure Regime (σ : Type) where
  holds : Matching → σ → σ → Prop
  since : σ → σ → Prop
  allows : Fault → Prop
  refl : ∀ s, since s s
  trans : ∀ {s s' s''}, since s s' → since s' s'' → since s s''

/-- How two runs from related states may end; `s` is where the first began. -/
inductive Regime.Ends {σ α β : Type} (r : Regime σ) (P : Matching → α → β → Prop) (ρ : Matching)
    (s : σ) : Except Fault α × σ → Except Fault β × σ → Prop
  | returned {ρ' : Matching} {a : α} {b : β} {t t' : σ} : ρ ≤ ρ' → r.holds ρ' t t' → r.since s t →
      P ρ' a b → Ends r P ρ s (.ok a, t) (.ok b, t')
  /-- The first run has ended in a fault. -/
  | left {ρ' : Matching} {fault : Fault} {t t' : σ} {result : Except Fault β × σ} :
      r.holds ρ' t t' → r.allows fault → Ends r P ρ s (.error fault, t) result
  | right {ρ' : Matching} {fault : Fault} {t t' : σ} {result : Except Fault α × σ} :
      r.holds ρ' t t' → r.allows fault → Ends r P ρ s result (.error fault, t')

namespace Regime.Ends

variable {σ α β γ δ : Type} {r : Regime σ} {P : Matching → α → β → Prop}
  {Q : Matching → γ → δ → Prop} {ρ ρ' : Matching} {s s' t : σ}

theorem pure {a : α} {b : β} (h : r.holds ρ s s') (hab : P ρ a b) :
    r.Ends P ρ s ((pure a : Act Fault σ α) s) ((pure b : Act Fault σ β) s') :=
  .returned (le_refl ρ) h (r.refl s) hab

/-- The runs began earlier, with less matched. -/
theorem since {x : Except Fault α × σ} {y : Except Fault β × σ} (h : r.Ends P ρ' t x y)
    (hρ : ρ ≤ ρ') (hs : r.since s t) : r.Ends P ρ s x y := by
  cases h with
  | returned hρ' h hs' hab => exact .returned (hρ.trans hρ') h (r.trans hs hs') hab
  | left h hfault => exact .left h hfault
  | right h hfault => exact .right h hfault

/-- **Two sequences end as their parts do.** -/
theorem bind {x : Act Fault σ α} {y : Act Fault σ β} {f : α → Act Fault σ γ}
    {g : β → Act Fault σ δ} (h : r.Ends P ρ s (x s) (y s'))
    (hk : ∀ ρ' a b t t', ρ ≤ ρ' → r.holds ρ' t t' → r.since s t → P ρ' a b →
      r.Ends Q ρ' t (f a t) (g b t')) : r.Ends Q ρ s ((x >>= f) s) ((y >>= g) s') := by
  rw [Act.run_bind, Act.run_bind]
  generalize x s = left at h
  generalize y s' = right at h
  cases h with
  | returned hρ h hs hab => exact (hk _ _ _ _ _ hρ h hs hab).since hρ hs
  | left h hfault => exact .left h hfault
  | right h hfault => exact .right h hfault

end Regime.Ends

/-- The handles are matched. -/
abbrev Matched (ρ : Matching) (e e' : Handle) : Prop := ρ e e'

/-- Equal results. -/
abbrev Equal {α : Type} (_ : Matching) (a b : α) : Prop := a = b

/-- Results of a look, which a host may not get: related values or none. -/
abbrev Maybe {α β : Type} (P : Matching → α → β → Prop) (ρ : Matching) :
    Option α → Option β → Prop :=
  Option.Rel (P ρ)

variable {κ : Type}

/-- Two runs on heaps. What was an atom in the first stays that atom. -/
def Layouts.heaps (l : Layouts κ) : Regime (Heap κ) where
  holds := l.Match
  since heap heap' := ∀ e c, c.pair? = none → heap.cell? e = some c → heap'.cell? e = some c
  allows fault := fault = l.fault ∨ fault = l.fault'
  refl := by
    intro heap e c _ hc
    exact hc
  trans := by
    intro heap heap' heap'' h h' e c hp hc
    exact h' e c hp (h e c hp hc)

namespace Layouts

variable {l : Layouts κ} {ρ : Matching} {heap heap' heap₁ : Heap κ}

theorem since_of_extends (hext : Extends heap heap₁) : l.heaps.since heap heap₁ :=
  fun e c _ hc => hext.cell?_mono e c hc

/-! ## Adding cells -/

theorem nil_ends (h : l.Match ρ heap heap') :
    l.heaps.Ends Matched ρ heap (Heap.nil heap) (Heap.nil heap') := by
  rw [nil_spec h.wellFormed, nil_spec h.wellFormed']
  exact .returned (le_refl ρ) h (l.heaps.refl heap) h.nil

/-- Matching cells can be stored. -/
theorem Match.partsLive (h : l.Match ρ heap heap') {c c' : Cell κ}
    (hmatch : c.Matches l.native ρ c') : heap.PartsLive c ∧ heap'.PartsLive c' := by
  cases hmatch with
  | pair hhead htail =>
    constructor
    · rintro head tail ⟨⟩
      exact ⟨h.isLive hhead, h.isLive htail⟩
    · rintro head tail ⟨⟩
      exact ⟨h.isLive' hhead, h.isLive' htail⟩
  | nil | number | symbol | string | native => exact ⟨partsLive_atom rfl, partsLive_atom rfl⟩

/-- **Matching cells are stored** on both sides under handles that are then matched. -/
theorem allocate_ends (h : l.Match ρ heap heap') {c c' : Cell κ}
    (hmatch : c.Matches l.native ρ c') (hne : c ≠ .nil) :
    l.heaps.Ends Matched ρ heap (allocate c heap) (allocate c' heap') := by
  obtain ⟨hp, hp'⟩ := h.partsLive hmatch
  rcases allocate_spec h.wellFormed hp with ⟨-, -, hrun⟩ | ⟨e, heap₁, hrun, w, hu, hnew⟩
  · rw [hrun]
    exact .left h (.inl h.fault_eq)
  rcases allocate_spec h.wellFormed' hp' with ⟨-, -, hrun'⟩ | ⟨e', heap₁', hrun', w', hu', hnew'⟩
  · rw [hrun']
    exact .right h (.inr h.fault_eq')
  have hc : heap₁.cell? e = some c := by rw [hu.cell?_eq, if_pos rfl]
  have hc' : heap₁'.cell? e' = some c' := by rw [hu'.cell?_eq, if_pos rfl]
  rw [hrun, hrun']
  exact .returned (ρ.le_add e e')
    (h.addNew w (hu.extends hnew) w' (hu'.extends hnew') hnew hnew' hc hc' hmatch hne)
    (since_of_extends (hu.extends hnew)) (ρ.add_self e e')

theorem pair_ends (h : l.Match ρ heap heap') {head tail head' tail' : Handle}
    (hhead : ρ head head') (htail : ρ tail tail') :
    l.heaps.Ends Matched ρ heap (pair head tail heap) (pair head' tail' heap') := by
  rw [pair_eq_allocate (h.isLive hhead) (h.isLive htail),
    pair_eq_allocate (h.isLive' hhead) (h.isLive' htail)]
  exact allocate_ends h (.pair hhead htail) nofun

theorem listOnto_ends (h : l.Match ρ heap heap') {items items' : List Handle}
    {tail tail' : Handle} (hitems : MatchedAll ρ items items') (htail : ρ tail tail') :
    l.heaps.Ends Matched ρ heap (listOnto items tail heap) (listOnto items' tail' heap') := by
  induction hitems with
  | nil => exact .pure h htail
  | cons he _ ih =>
    rw [listOnto, listOnto, List.foldrM_cons, List.foldrM_cons]
    refine Regime.Ends.bind ih fun ρ₁ rest rest' heap₁ heap₁' hρ h₁ _ hrest => ?_
    exact pair_ends h₁ (hρ _ _ he) hrest

/-- Lists of matched items. -/
theorem list_ends (h : l.Match ρ heap heap') {items items' : List Handle}
    (hitems : MatchedAll ρ items items') :
    l.heaps.Ends Matched ρ heap (Heap.list items heap) (Heap.list items' heap') := by
  refine Regime.Ends.bind (nil_ends h) fun ρ₁ nil nil' heap₁ heap₁' hρ h₁ _ hnil => ?_
  exact listOnto_ends h₁ (MatchedAll.mono hitems hρ) hnil

/-! ## Bindings -/

/-- **A binding in both scopes**, of matched symbols to matched values. -/
theorem bind_ends (h : l.Match ρ heap heap') {symbol value symbol' value' : Handle} {name : Text}
    (hname : heap.cell? symbol = some (.symbol name)) (hsymbol : ρ symbol symbol')
    (hvalue : ρ value value') :
    l.heaps.Ends Equal ρ heap (l.scope.bind symbol value heap)
      (l.scope'.bind symbol' value' heap') := by
  obtain ⟨frame, parent, frame', parent', hroot, hroot', hframe, -⟩ := h.frames
  obtain ⟨c', hname', hmatch⟩ := h.cell?_right hsymbol hname
  cases hmatch
  obtain ⟨heap₁, w₁, hadds, hrun | ⟨binding, front, heap₂, hrun, w₂, hbnew, hb, hfnew, hf, hu⟩⟩ :=
    bind_spec h.wellFormed hname hroot (h.isLive hvalue)
  · rw [hrun]
    exact .left (h.mono w₁ hadds.toExtends h.wellFormed' (.refl heap')) (.inl h.fault_eq)
  obtain ⟨heap₁', w₁', hadds', hrun' |
      ⟨binding', front', heap₂', hrun', w₂', hbnew', hb', hfnew', hf', hu'⟩⟩ :=
    bind_spec h.wellFormed' hname' hroot' (h.isLive' hvalue)
  · rw [hrun']
    exact .right (h.mono h.wellFormed (.refl heap) w₁' hadds'.toExtends) (.inr h.fault_eq')
  -- the two pairs of the binding are matched one after the other
  have h₁ : l.Match (ρ.add binding binding') heap₁ heap₁' :=
    h.addNew w₁ hadds.toExtends w₁' hadds'.toExtends hbnew hbnew' hb hb' (.pair hsymbol hvalue)
      nofun
  have hnew : ∀ f', ¬ l.joined (ρ.add binding binding') front f' := by
    intro f' hjoined
    rcases joined_add hjoined with hjoined | ⟨rfl, -⟩
    · exact h.not_joined hfnew f' hjoined
    · cases hf.symm.trans hb
      cases hbnew.symm.trans hname
  have hnew' : ∀ f, ¬ l.joined (ρ.add binding binding') f front' := by
    intro f hjoined
    rcases joined_add hjoined with hjoined | ⟨-, rfl⟩
    · exact h.not_joined' hfnew' f hjoined
    · cases hf'.symm.trans hb'
      cases hbnew'.symm.trans hname'
  have hfront : (Cell.pair binding frame).Matches l.native
      ((ρ.add binding binding').add front front') (.pair binding' frame') :=
    .pair (.inl (ρ.add_self binding binding')) (.inl (.inl hframe))
  have h₂ := h₁.add hf hf' hfront nofun hnew hnew'
  obtain ⟨n, -, hend, -⟩ := h₂.ends.exists_frame (hadds.cell?_mono _ _ hroot)
  have hsince : l.heaps.since heap heap₂ := by
    intro e c hp hc
    rw [hu.cell?_eq, if_neg, hadds.cell?_mono e c hc]
    rintro rfl
    cases hroot.symm.trans hc
    cases hp
  have hle : ρ ≤ (ρ.add binding binding').add front front' := fun e e' he => .inl (.inl he)
  have h₃ := h₂.setFrame (hadds.cell?_mono _ _ hroot) (hadds'.cell?_mono _ _ hroot')
    (Matching.add_self _ front front') (.step hf hend) w₂ w₂' hu hu'
  rw [hrun, hrun']
  exact .returned hle h₃ hsince rfl

/-! ## Reading -/

/-- **A datum is loaded** into both heaps. -/
theorem load_ends (datum : Datum) (h : l.Match ρ heap heap') :
    l.heaps.Ends Matched ρ heap (load datum heap) (load datum heap') := by
  induction datum generalizing ρ heap heap' with
  | nil => exact nil_ends h
  | number value => exact allocate_ends h (.number value) (by simp)
  | symbol name => exact allocate_ends h (.symbol name) (by simp)
  | string value => exact allocate_ends h (.string value) (by simp)
  | quoted datum ih =>
    unfold load
    refine Regime.Ends.bind (ih h) fun ρ₁ quoted quoted' heap₁ heap₁' hρ₁ h₁ _ hquoted => ?_
    refine Regime.Ends.bind (allocate_ends h₁ (.symbol (text "quote")) (by simp))
      fun ρ₂ word word' heap₂ heap₂' hρ₂ h₂ _ hword => ?_
    exact list_ends h₂ (.cons hword (.cons (hρ₂ _ _ hquoted) .nil))
  | cons head tail ihhead ihtail =>
    unfold load
    refine Regime.Ends.bind (ihhead h) fun ρ₁ head head' heap₁ heap₁' hρ₁ h₁ _ hhead => ?_
    refine Regime.Ends.bind (ihtail h₁) fun ρ₂ tail tail' heap₂ heap₂' hρ₂ h₂ _ htail => ?_
    exact pair_ends h₂ (hρ₂ _ _ hhead) htail

theorem loadAll_ends (data : List Datum) (h : l.Match ρ heap heap') :
    l.heaps.Ends Equal ρ heap ((data.forM fun datum => discard (load datum) : HeapM κ Unit) heap)
      ((data.forM fun datum => discard (load datum) : HeapM κ Unit) heap') := by
  induction data generalizing ρ heap heap' with
  | nil => exact .pure h rfl
  | cons datum rest ih =>
    have hdiscard : l.heaps.Ends Equal ρ heap ((discard (load datum) : HeapM κ Unit) heap)
        ((discard (load datum) : HeapM κ Unit) heap') :=
      Regime.Ends.bind (load_ends datum h) fun ρ₁ _ _ heap₁ heap₁' _ h₁ _ _ => .pure h₁ rfl
    exact Regime.Ends.bind hdiscard fun ρ₁ _ _ heap₁ heap₁' _ h₁ _ _ => ih h₁

/-- What a text is read as: matched values up to the same offset, or the same error. -/
inductive ReadAlike (ρ : Matching) :
    Except ReadError (Handle × Nat) → Except ReadError (Handle × Nat) → Prop
  | ok {e e' : Handle} {stop : Nat} : ρ e e' → ReadAlike ρ (.ok (e, stop)) (.ok (e', stop))
  | error (error : ReadError) : ReadAlike ρ (.error error) (.error error)

/-- **One text is read alike** into both heaps. -/
theorem read_ends (source : Text) (h : l.Match ρ heap heap') :
    l.heaps.Ends ReadAlike ρ heap (Heap.read source heap) (Heap.read source heap') := by
  unfold Heap.read
  cases readDatum source with
  | ok found =>
    exact Regime.Ends.bind (load_ends found.1 h) fun ρ₁ e e' heap₁ heap₁' _ h₁ _ he =>
      .pure h₁ (.ok he)
  | error failure =>
    exact Regime.Ends.bind (loadAll_ends failure.completed h) fun ρ₁ _ _ heap₁ heap₁' _ h₁ _ _ =>
      .pure h₁ (.error failure.error)

end Layouts

end ConsoleLisp
