import ConsoleLisp.Proofs.Heap.Additions
import ConsoleLisp.Proofs.Scope.Prepended
import ConsoleLisp.Proofs.Scope.Walks
import Mathlib.Order.Basic

/-!
# Two layouts of the same values

A `Matching` pairs handles of one heap with handles of another. `Layouts.Match l ρ heap heap'` says
that matched handles name cells with the same contents and matched parts, that no handle is matched
twice, and that the frames of a scope in each heap are matched. Nothing is said of other cells, of
free slots or of generations. With one heap on both sides it says what can be met from a scope.

Results:
* `match_reached`: one heap on both sides.
* `Match.mono`: adding cells on either side.
* `Match.add`: two new cells are matched.
* **`Match.setFrame`**: a binding in front of both frames.
* `Match.tailsEnd`, `Match.items`: lists are matched with their items.
-/

namespace ConsoleLisp

open Heap

/-- Which handles of one heap stand for which of another. -/
abbrev Matching := Handle → Handle → Prop

/-- The matching with one pair of handles more. -/
def Matching.add (ρ : Matching) (e e' : Handle) : Matching :=
  fun f f' => ρ f f' ∨ f = e ∧ f' = e'

theorem Matching.le_add (ρ : Matching) (e e' : Handle) : ρ ≤ ρ.add e e' := fun _ _ => .inl

theorem Matching.add_self (ρ : Matching) (e e' : Handle) : ρ.add e e' e e' := .inr ⟨rfl, rfl⟩

/-- The items are matched one by one. -/
abbrev MatchedAll (ρ : Matching) (items items' : List Handle) : Prop := List.Forall₂ ρ items items'

theorem MatchedAll.mono {ρ ρ' : Matching} {items items' : List Handle}
    (h : MatchedAll ρ items items') (hρ : ρ ≤ ρ') : MatchedAll ρ' items items' :=
  h.imp fun _ _ he => hρ _ _ he

variable {κ : Type}

/-! ## Cells -/

/-- The cells have the same contents, and their parts are matched. -/
inductive Cell.Matches (native : Native κ → Prop) (ρ : Matching) : Cell κ → Cell κ → Prop
  | nil : Matches native ρ .nil .nil
  | number (value : Number) : Matches native ρ (.number value) (.number value)
  | symbol (name : Text) : Matches native ρ (.symbol name) (.symbol name)
  | string (value : Text) : Matches native ρ (.string value) (.string value)
  | native {procedure : Native κ} : native procedure →
      Matches native ρ (.native procedure) (.native procedure)
  | pair {head tail head' tail' : Handle} : ρ head head' → ρ tail tail' →
      Matches native ρ (.pair head tail) (.pair head' tail')

namespace Cell.Matches

variable {native : Native κ → Prop} {ρ ρ' : Matching} {c c' : Cell κ}

theorem mono (h : c.Matches native ρ c') (hρ : ρ ≤ ρ') : c.Matches native ρ' c' := by
  cases h with
  | nil => exact .nil
  | number => exact .number _
  | symbol => exact .symbol _
  | string => exact .string _
  | native h => exact .native h
  | pair hhead htail => exact .pair (hρ _ _ hhead) (hρ _ _ htail)

theorem symm (h : c.Matches native ρ c') : c'.Matches native (fun e e' => ρ e' e) c := by
  cases h with
  | nil => exact .nil
  | number => exact .number _
  | symbol => exact .symbol _
  | string => exact .string _
  | native h => exact .native h
  | pair hhead htail => exact .pair hhead htail

/-- Cells that are no pairs match when they are the same. -/
theorem eq_of_atom (h : c.Matches native ρ c') (hp : c.pair? = none) : c = c' := by
  cases h with
  | pair => cases hp
  | _ => rfl

theorem pair?_eq_none (h : c.Matches native ρ c') (hp : c.pair? = none) : c'.pair? = none := by
  rwa [← h.eq_of_atom hp]

theorem symbolName?_eq (h : c.Matches native ρ c') : c'.symbolName? = c.symbolName? := by
  cases h <;> rfl

theorem number?_eq (h : c.Matches native ρ c') : c'.number? = c.number? := by
  cases h <;> rfl

theorem atomText?_eq (h : c.Matches native ρ c') : c'.atomText? = c.atomText? := by
  cases h <;> rfl

theorem kind_eq (h : c.Matches native ρ c') : c'.kind = c.kind := by
  cases h <;> rfl

/-- A pair is matched with a pair. -/
theorem exists_pair {head tail : Handle} (h : (Cell.pair head tail).Matches native ρ c') :
    ∃ head' tail', c' = .pair head' tail' ∧ ρ head head' ∧ ρ tail tail' := by
  cases h with
  | pair hhead htail => exact ⟨_, _, rfl, hhead, htail⟩

end Cell.Matches

/-! ## Heaps -/

theorem Heap.nilHandle_congr {heap heap' : Heap κ} (h : heap'.id = heap.id) :
    heap'.nilHandle = heap.nilHandle := by
  rw [nilHandle, nilHandle, h]

/-- What two layouts are compared for: which natives there may be, a scope in each heap and the
faults of the heaps when they are full. Two restrictions may be asked for: that the scope is `hidden`
and no value itself, and that nil is `single`, as it is in a heap that has been used as it is meant
to be. -/
structure Layouts (κ : Type) where
  native : Native κ → Prop
  scope : Scope
  scope' : Scope
  fault : Fault
  fault' : Fault
  hidden : Prop
  single : Prop

/-- The same layouts, the second first. -/
def Layouts.swap (l : Layouts κ) : Layouts κ := ⟨l.native, l.scope', l.scope, l.fault', l.fault,
  l.hidden, l.single⟩

/-- The matched handles, and those of the scopes. -/
def Layouts.joined (l : Layouts κ) (ρ : Matching) : Matching :=
  ρ.add l.scope.chain l.scope'.chain

theorem Layouts.joined_add {l : Layouts κ} {ρ : Matching} {e e' f f' : Handle}
    (h : l.joined (ρ.add e e') f f') : l.joined ρ f f' ∨ f = e ∧ f' = e' := by
  rcases h with (hf | hf) | hf
  · exact .inl (.inl hf)
  · exact .inr hf
  · exact .inl (.inr hf)

/-- Two heaps have the same values at the matched handles and in the frames of the scopes. -/
structure Layouts.Match (l : Layouts κ) (ρ : Matching) (heap heap' : Heap κ) : Prop where
  wellFormed : heap.WellFormed
  wellFormed' : heap'.WellFormed
  fault_eq : heap.exhaustion = l.fault
  fault_eq' : heap'.exhaustion = l.fault'
  cells : ∀ e e', ρ e e' → ∃ c c', heap.cell? e = some c ∧ heap'.cell? e' = some c' ∧
    c.Matches l.native ρ c'
  /-- No handle is matched twice. -/
  unique : ∀ e e' f f', l.joined ρ e e' → l.joined ρ f f' → (e = f ↔ e' = f')
  nil : ρ heap.nilHandle heap'.nilHandle
  frames : ∃ frame parent frame' parent', heap.cell? l.scope.chain = some (.pair frame parent) ∧
    heap'.cell? l.scope'.chain = some (.pair frame' parent') ∧ ρ frame frame' ∧ ρ parent parent'
  /-- The scope can be walked. -/
  ends : heap.ScopeEnds l.scope.chain
  not_matched : l.hidden → ∀ e', ¬ ρ l.scope.chain e'
  nil_eq : l.single → ∀ e e', ρ e e' → heap.cell? e = some .nil → e = heap.nilHandle

/-- **One heap on both sides**: what is reached from live roots is matched with itself, when the parts
of the scope are among it. -/
theorem Layouts.match_reached {native : Native κ → Prop} {hidden : Prop} {scope : Scope}
    {heap : Heap κ} {roots : List Handle} {frame parent : Handle} (w : heap.WellFormed)
    (hroots : ∀ e ∈ roots, heap.isLive e = true)
    (hscope : heap.cell? scope.chain = some (.pair frame parent))
    (hframe : heap.Reaches roots frame) (hparent : heap.Reaches roots parent)
    (hends : heap.ScopeEnds scope.chain)
    (hnative : ∀ e procedure, heap.Reaches roots e → heap.cell? e = some (.native procedure) →
      native procedure)
    (hhidden : hidden → ¬ heap.Reaches roots scope.chain) :
    (⟨native, scope, scope, heap.exhaustion, heap.exhaustion, hidden, False⟩ : Layouts κ).Match
      (fun e e' => e = e' ∧ heap.Reaches roots e) heap heap := by
  refine ⟨w, w, rfl, rfl, ?_, ?_, ⟨rfl, .root List.mem_cons_self⟩,
    ⟨frame, parent, frame, parent, hscope, hscope, ⟨rfl, hframe⟩, rfl, hparent⟩, hends,
    fun hh e' he => hhidden hh he.2, False.elim⟩
  · rintro e _ ⟨rfl, he⟩
    obtain ⟨c, hc⟩ := he.exists_cell? w hroots
    refine ⟨c, c, hc, hc, ?_⟩
    cases c with
    | nil => exact .nil
    | number value => exact .number value
    | symbol name => exact .symbol name
    | string value => exact .string value
    | native procedure => exact .native (hnative e procedure he hc)
    | pair head tail => exact .pair ⟨rfl, he.head hc⟩ ⟨rfl, he.tail hc⟩
  · have hsame : ∀ e e', Layouts.joined (⟨native, scope, scope, heap.exhaustion, heap.exhaustion,
        hidden, False⟩ : Layouts κ) (fun e e' => e = e' ∧ heap.Reaches roots e) e e' → e = e' := by
      rintro e e' (⟨rfl, -⟩ | ⟨rfl, rfl⟩) <;> rfl
    intro e e' f f' he hf
    rw [hsame e e' he, hsame f f' hf]

namespace Layouts.Match

variable {l : Layouts κ} {ρ ρ' : Matching} {heap heap' heap₁ heap₁' : Heap κ} {e e' : Handle}

theorem isLive (h : l.Match ρ heap heap') (he : ρ e e') : heap.isLive e = true := by
  obtain ⟨c, -, hc, -⟩ := h.cells e e' he
  exact isLive_of_cell? hc

theorem isLive' (h : l.Match ρ heap heap') (he : ρ e e') : heap'.isLive e' = true := by
  obtain ⟨-, c', -, hc', -⟩ := h.cells e e' he
  exact isLive_of_cell? hc'

/-- What is joined is live. -/
theorem exists_cell? (h : l.Match ρ heap heap') (he : l.joined ρ e e') :
    (∃ c, heap.cell? e = some c) ∧ ∃ c', heap'.cell? e' = some c' := by
  rcases he with he | ⟨rfl, rfl⟩
  · obtain ⟨c, c', hc, hc', -⟩ := h.cells e e' he
    exact ⟨⟨c, hc⟩, c', hc'⟩
  · obtain ⟨_, _, _, _, hc, hc', -⟩ := h.frames
    exact ⟨⟨_, hc⟩, _, hc'⟩

theorem scope_isLive (h : l.Match ρ heap heap') : heap.isLive l.scope.chain = true := by
  obtain ⟨_, _, _, _, hc, -⟩ := h.frames
  exact isLive_of_cell? hc

/-- Both cells can be looked at. -/
theorem inspect (h : l.Match ρ heap heap') (he : ρ e e') : ∃ c c', heap.inspect e = .ok c ∧
    heap'.inspect e' = .ok c' ∧ c.Matches l.native ρ c' := by
  obtain ⟨c, c', hc, hc', hmatch⟩ := h.cells e e' he
  exact ⟨c, c', inspect_eq_ok_iff.mpr hc, inspect_eq_ok_iff.mpr hc', hmatch⟩

/-- The cell on the other side. -/
theorem cell?_right (h : l.Match ρ heap heap') (he : ρ e e') {c : Cell κ}
    (hc : heap.cell? e = some c) : ∃ c', heap'.cell? e' = some c' ∧ c.Matches l.native ρ c' := by
  obtain ⟨d, c', hd, hc', hmatch⟩ := h.cells e e' he
  cases hc.symm.trans hd
  exact ⟨c', hc', hmatch⟩

/-! ### Lists -/

/-- Tails run out on both sides. -/
theorem tailsEnd (h : l.Match ρ heap heap') {n : Nat} (hend : TailsEnd heap n e) (he : ρ e e') :
    TailsEnd heap' n e' := by
  induction hend generalizing e' with
  | stop hc hp =>
    obtain ⟨c', hc', hmatch⟩ := h.cell?_right he hc
    exact .stop hc' (hmatch.pair?_eq_none hp)
  | step hc _ ih =>
    obtain ⟨c', hc', hmatch⟩ := h.cell?_right he hc
    obtain ⟨head', tail', rfl, -, htail⟩ := hmatch.exists_pair
    exact .step hc' (ih htail)

theorem chainEnds (h : l.Match ρ heap heap') {n : Nat} (hend : ChainEnds heap n e)
    (he : ρ e e') : ChainEnds heap' n e' := by
  induction hend generalizing e' with
  | stop hc hp =>
    obtain ⟨c', hc', hmatch⟩ := h.cell?_right he hc
    exact .stop hc' (hmatch.pair?_eq_none hp)
  | step hc hframe _ ih =>
    obtain ⟨c', hc', hmatch⟩ := h.cell?_right he hc
    obtain ⟨frame', parent', rfl, hhead, htail⟩ := hmatch.exists_pair
    exact .step hc' (h.tailsEnd hframe hhead) (ih htail)

/-- The other scope can be walked as well. -/
theorem ends' (h : l.Match ρ heap heap') : heap'.ScopeEnds l.scope'.chain := by
  obtain ⟨frame, parent, frame', parent', hc, hc', hframe, hparent⟩ := h.frames
  obtain ⟨n, hend⟩ := h.ends
  cases hend with
  | stop hd hp =>
    cases hc.symm.trans hd
    cases hp
  | step hd hends hrest =>
    cases hc.symm.trans hd
    exact ⟨_, .step hc' (h.tailsEnd hends hframe) (h.chainEnds hrest hparent)⟩

/-- The items of matched lists are matched. -/
theorem items (h : l.Match ρ heap heap') {items : List Handle} (hitems : Items heap e items)
    (he : ρ e e') : ∃ items', Items heap' e' items' ∧ MatchedAll ρ items items' := by
  induction hitems generalizing e' with
  | nil hc =>
    obtain ⟨c', hc', hmatch⟩ := h.cell?_right he hc
    cases hmatch
    exact ⟨[], .nil hc', .nil⟩
  | cons hc _ ih =>
    obtain ⟨c', hc', hmatch⟩ := h.cell?_right he hc
    obtain ⟨head', tail', rfl, hhead, htail⟩ := hmatch.exists_pair
    obtain ⟨rest', hrest', hmatched⟩ := ih htail
    exact ⟨head' :: rest', .cons hc' hrest', .cons hhead hmatched⟩

/-- Neither side is the first. -/
theorem symm (h : l.Match ρ heap heap') : l.swap.Match (fun e e' => ρ e' e) heap' heap := by
  have hjoined : ∀ {e e'}, l.swap.joined (fun e e' => ρ e' e) e e' → l.joined ρ e' e := by
    rintro e e' (he | ⟨rfl, rfl⟩)
    · exact .inl he
    · exact .inr ⟨rfl, rfl⟩
  refine ⟨h.wellFormed', h.wellFormed, h.fault_eq', h.fault_eq, fun e e' he => ?_,
    fun e e' f f' he hf => (h.unique e' e f' f (hjoined he) (hjoined hf)).symm, h.nil, ?_, h.ends',
    fun hhidden e he => ?_, fun hsingle e e' he hc => ?_⟩
  · obtain ⟨c, c', hc, hc', hmatch⟩ := h.cells e' e he
    exact ⟨c', c, hc', hc, hmatch.symm⟩
  · obtain ⟨frame, parent, frame', parent', hc, hc', hframe, hparent⟩ := h.frames
    exact ⟨frame', parent', frame, parent, hc', hc, hframe, hparent⟩
  · have hscope : e = l.scope.chain :=
      (h.unique e l.scope'.chain l.scope.chain l.scope'.chain (.inl he) (.inr ⟨rfl, rfl⟩)).mpr rfl
    exact h.not_matched hhidden l.scope'.chain (hscope ▸ he)
  · obtain ⟨c, c', hc', hd, hmatch⟩ := h.cells e' e he
    cases hc.symm.trans hd
    cases hmatch
    exact (h.unique e' e heap.nilHandle heap'.nilHandle (.inl he) (.inl h.nil)).mp
      (h.nil_eq hsingle e' e he hc')

/-! ### Growing heaps -/

/-- **Adding cells on either side** leaves a match. -/
theorem mono (h : l.Match ρ heap heap') (w : heap₁.WellFormed) (hext : Extends heap heap₁)
    (w' : heap₁'.WellFormed) (hext' : Extends heap' heap₁') : l.Match ρ heap₁ heap₁' := by
  have hnil : heap₁.nilHandle = heap.nilHandle := nilHandle_congr hext.id_eq
  refine ⟨w, w', hext.exhaustion_eq.trans h.fault_eq, hext'.exhaustion_eq.trans h.fault_eq',
    fun e e' he => ?_, h.unique, ?_, ?_, ?_, h.not_matched, fun hsingle e e' he hc => ?_⟩
  · obtain ⟨c, c', hc, hc', hmatch⟩ := h.cells e e' he
    exact ⟨c, c', hext.cell?_mono e c hc, hext'.cell?_mono e' c' hc', hmatch⟩
  · rw [hnil, nilHandle_congr hext'.id_eq]
    exact h.nil
  · obtain ⟨frame, parent, frame', parent', hc, hc', hmatched⟩ := h.frames
    exact ⟨frame, parent, frame', parent', hext.cell?_mono _ _ hc, hext'.cell?_mono _ _ hc',
      hmatched⟩
  · obtain ⟨n, hend⟩ := h.ends
    exact ⟨n, hend.mono hext.cell?_mono⟩
  · obtain ⟨c, -, hd, -⟩ := h.cells e e' he
    cases hc.symm.trans (hext.cell?_mono e c hd)
    rw [hnil]
    exact h.nil_eq hsingle e e' he hd

/-- **Two matching cells that are not joined yet** can be matched. -/
theorem add (h : l.Match ρ heap heap') {c c' : Cell κ} (hc : heap.cell? e = some c)
    (hc' : heap'.cell? e' = some c') (hmatch : c.Matches l.native (ρ.add e e') c') (hne : c ≠ .nil)
    (hnew : ∀ f', ¬ l.joined ρ e f') (hnew' : ∀ f, ¬ l.joined ρ f e') :
    l.Match (ρ.add e e') heap heap' := by
  refine ⟨h.wellFormed, h.wellFormed', h.fault_eq, h.fault_eq', ?_, ?_, .inl h.nil, ?_, h.ends, ?_,
    ?_⟩
  · rintro f f' (hf | ⟨rfl, rfl⟩)
    · obtain ⟨d, d', hd, hd', hm⟩ := h.cells f f' hf
      exact ⟨d, d', hd, hd', hm.mono (ρ.le_add e e')⟩
    · exact ⟨c, c', hc, hc', hmatch⟩
  · intro f f' g g' hf hg
    replace hf := joined_add hf
    replace hg := joined_add hg
    rcases hf with hf | ⟨rfl, rfl⟩ <;> rcases hg with hg | ⟨rfl, rfl⟩
    · exact h.unique f f' g g' hf hg
    · constructor
      · rintro rfl
        exact absurd hf (hnew f')
      · rintro rfl
        exact absurd hf (hnew' f)
    · constructor
      · rintro rfl
        exact absurd hg (hnew g')
      · rintro rfl
        exact absurd hg (hnew' g)
    · simp
  · obtain ⟨frame, parent, frame', parent', hd, hd', hframe, hparent⟩ := h.frames
    exact ⟨frame, parent, frame', parent', hd, hd', .inl hframe, .inl hparent⟩
  · rintro hhidden f' (hf | ⟨rfl, rfl⟩)
    · exact h.not_matched hhidden f' hf
    · exact hnew _ (.inr ⟨rfl, rfl⟩)
  · rintro hsingle f f' (hf | ⟨rfl, -⟩) hd
    · exact h.nil_eq hsingle f f' hf hd
    · exact absurd (Option.some.inj (hc.symm.trans hd)) hne

/-- A handle that is not live is not joined. -/
theorem not_joined (h : l.Match ρ heap heap') (he : heap.cell? e = none) (f' : Handle) :
    ¬ l.joined ρ e f' := by
  intro hf
  obtain ⟨⟨c, hc⟩, -⟩ := h.exists_cell? hf
  cases he.symm.trans hc

theorem not_joined' (h : l.Match ρ heap heap') (he : heap'.cell? e' = none) (f : Handle) :
    ¬ l.joined ρ f e' := by
  intro hf
  obtain ⟨-, c, hc⟩ := h.exists_cell? hf
  cases he.symm.trans hc

/-- Two cells are added, one on each side. -/
theorem addNew (h : l.Match ρ heap heap') (w : heap₁.WellFormed) (hext : Extends heap heap₁)
    (w' : heap₁'.WellFormed) (hext' : Extends heap' heap₁') (hnew : heap.cell? e = none)
    (hnew' : heap'.cell? e' = none) {c c' : Cell κ} (hc : heap₁.cell? e = some c)
    (hc' : heap₁'.cell? e' = some c') (hmatch : c.Matches l.native ρ c') (hne : c ≠ .nil) :
    l.Match (ρ.add e e') heap₁ heap₁' :=
  (h.mono w hext w' hext').add hc hc' (hmatch.mono (ρ.le_add e e')) hne (h.not_joined hnew)
    (h.not_joined' hnew')

/-! ### Bindings -/

/-- **A frame is replaced on both sides** by one with matched contents. -/
theorem setFrame (h : l.Match ρ heap heap') {frame parent frame' parent' front front' : Handle}
    (hroot : heap.cell? l.scope.chain = some (.pair frame parent))
    (hroot' : heap'.cell? l.scope'.chain = some (.pair frame' parent')) (hfront : ρ front front')
    {n : Nat} (hend : TailsEnd heap n front) (w : heap₁.WellFormed) (w' : heap₁'.WellFormed)
    (hu : heap.Updates l.scope.chain (.pair front parent) heap₁)
    (hu' : heap'.Updates l.scope'.chain (.pair front' parent') heap₁') :
    l.Match ρ heap₁ heap₁' := by
  obtain ⟨_, _, _, _, hc, hc', -, hparent⟩ := h.frames
  cases hroot.symm.trans hc
  cases hroot'.symm.trans hc'
  have hcell : heap₁.cell? l.scope.chain = some (.pair front parent) := by
    rw [hu.cell?_eq, if_pos rfl]
  have hcell' : heap₁'.cell? l.scope'.chain = some (.pair front' parent') := by
    rw [hu'.cell?_eq, if_pos rfl]
  have hnil : heap₁.nilHandle = heap.nilHandle := nilHandle_congr hu.id_eq
  refine ⟨w, w', ?_, ?_, fun e e' he => ?_, h.unique, ?_,
    ⟨front, parent, front', parent', hcell, hcell', hfront, hparent⟩, h.ends.bind hroot hend hu,
    h.not_matched, fun hsingle e e' he hc => ?_⟩
  · unfold exhaustion
    rw [hu.id_eq, hu.maxSlots_eq]
    exact h.fault_eq
  · unfold exhaustion
    rw [hu'.id_eq, hu'.maxSlots_eq]
    exact h.fault_eq'
  · -- the pair of a scope is matched with that of the other or with nothing
    have hsame := h.unique e e' l.scope.chain l.scope'.chain (.inl he) (.inr ⟨rfl, rfl⟩)
    by_cases heq : e = l.scope.chain
    · obtain rfl := heq
      obtain rfl := hsame.mp rfl
      exact ⟨_, _, hcell, hcell', .pair hfront hparent⟩
    · obtain ⟨c, c', hc, hc', hmatch⟩ := h.cells e e' he
      refine ⟨c, c', ?_, ?_, hmatch⟩
      · rw [hu.cell?_eq, if_neg heq, hc]
      · rw [hu'.cell?_eq, if_neg (fun h => heq (hsame.mpr h)), hc']
  · rw [hnil, nilHandle_congr hu'.id_eq]
    exact h.nil
  · rw [hu.cell?_eq] at hc
    split at hc
    · cases hc
    · rw [hnil]
      exact h.nil_eq hsingle e e' he hc

end Layouts.Match

end ConsoleLisp
