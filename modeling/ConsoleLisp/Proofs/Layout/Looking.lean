import ConsoleLisp.Proofs.Layout.Matching

/-!
# Looking at two layouts

What walks along the parts of matched values goes the same way in both heaps. It decides on what
cells hold, and on slots only to tell whether it is back at a pair that it has met; matched pairs are
met again at the same time.

Results:
* `Match.listItems`, `Match.splitArguments`: lists and argument lists.
* **`Match.lookupName`**: a name in both scopes.
* **`Match.format`**: matched values are printed as the same text.
-/

namespace ConsoleLisp

open Heap

/-- Results that agree: related values, or failures of the same kind with matched payloads. -/
inductive Concur {α β : Type} (P : Matching → α → β → Prop) (ρ : Matching) :
    Except Failure α → Except Failure β → Prop
  | ok {a : α} {b : β} : P ρ a b → Concur P ρ (.ok a) (.ok b)
  | error {payload payload' : Handle} (code : FailureCode) : ρ payload payload' →
      Concur P ρ (.error ⟨payload, code⟩) (.error ⟨payload', code⟩)

variable {κ : Type}

namespace Layouts.Match

variable {l : Layouts κ} {ρ : Matching} {heap heap' : Heap κ} {e e' : Handle}

/-! ## Lists -/

/-- Matched lists have matched items, or neither is a proper list. -/
theorem listItems (h : l.Match ρ heap heap') (he : ρ e e') : ∃ items items',
    heap.listItems e = .ok items ∧ heap'.listItems e' = .ok items' ∧
      Option.Rel (MatchedAll ρ) items items' := by
  obtain ⟨items, hitems, -⟩ := h.wellFormed.listItems_total (h.isLive he)
  obtain ⟨items', hitems', -⟩ := h.wellFormed'.listItems_total (h.isLive' he)
  refine ⟨items, items', hitems, hitems', ?_⟩
  cases items with
  | some items =>
    obtain ⟨found, hfound, hmatched⟩ := h.items (listItems_eq_some_iff.mp hitems) he
    cases hitems'.symm.trans (listItems_eq_some_iff.mpr hfound)
    exact .some hmatched
  | none =>
    cases items' with
    | none => exact .none
    | some items' =>
      obtain ⟨found, hfound, -⟩ := h.symm.items (listItems_eq_some_iff.mp hitems') he
      cases hitems.symm.trans (listItems_eq_some_iff.mpr hfound)

/-- Matched argument lists are split alike. -/
theorem splitArguments (h : l.Match ρ heap heap') (he : ρ e e') (arity : Arity) :
    ∃ split split', heap.splitArguments e arity = .ok split ∧
      heap'.splitArguments e' arity = .ok split' ∧ Concur MatchedAll ρ split split' := by
  obtain ⟨items, items', hitems, hitems', hmatched⟩ := h.listItems he
  unfold Heap.splitArguments
  rw [hitems, hitems']
  cases hmatched with
  | none => exact ⟨_, _, rfl, rfl, .error .typeError he⟩
  | @some items items' hmatched =>
    have hlength := hmatched.length_eq
    cases harity : arity items.length with
    | true => exact ⟨.ok items, .ok items', if_pos harity, if_pos (hlength ▸ harity), .ok hmatched⟩
    | false =>
      exact ⟨.error ⟨e, .arity⟩, .error ⟨e', .arity⟩, if_neg (Bool.eq_false_iff.mp harity),
        if_neg (hlength ▸ Bool.eq_false_iff.mp harity), .error .arity he⟩

/-! ## Scopes -/

/-- The parts of matched values are matched. -/
theorem pair? (h : l.Match ρ heap heap') (he : ρ e e') {parts : Option (Handle × Handle)}
    (hparts : heap.pair? e = .ok parts) : ∃ parts', heap'.pair? e' = .ok parts' ∧
      Option.Rel (fun p p' => ρ p.1 p'.1 ∧ ρ p.2 p'.2) parts parts' := by
  obtain ⟨c, c', hc, hc', hmatch⟩ := h.cells e e' he
  cases hparts.symm.trans (pair?_of_cell? hc)
  refine ⟨c'.pair?, pair?_of_cell? hc', ?_⟩
  cases hmatch with
  | pair hhead htail => exact .some ⟨hhead, htail⟩
  | nil | number | symbol | string | native => exact .none

/-- A pair is matched with a pair. -/
theorem pair?_some (h : l.Match ρ heap heap') (he : ρ e e') {head tail : Handle}
    (hparts : heap.pair? e = .ok (some (head, tail))) : ∃ head' tail',
      heap'.pair? e' = .ok (some (head', tail')) ∧ ρ head head' ∧ ρ tail tail' := by
  obtain ⟨parts', hparts', hmatched⟩ := h.pair? he hparts
  cases hmatched with
  | some hmatched => exact ⟨_, _, hparts', hmatched⟩

/-- Matched bindings have the same name and matched values. -/
theorem binding? (h : l.Match ρ heap heap') (he : ρ e e') {binding : Option Binding}
    (hbinding : heap.binding? e = .ok binding) : ∃ binding', heap'.binding? e' = .ok binding' ∧
      Option.Rel (fun b b' => b.name = b'.name ∧ ρ b.value b'.value) binding binding' := by
  obtain ⟨parts, hparts, -⟩ := h.wellFormed.pair?_total (h.isLive he)
  obtain ⟨parts', hparts', hmatched⟩ := h.pair? he hparts
  unfold Heap.binding? at hbinding ⊢
  rw [hparts] at hbinding
  rw [hparts']
  cases hmatched with
  | none =>
    cases hbinding
    exact ⟨none, rfl, .none⟩
  | @some parts parts' hmatched =>
    obtain ⟨c, c', hc, hc', hmatch⟩ := h.inspect hmatched.1
    simp only [symbolName?, hc, hc', hmatch.symbolName?_eq, bind, Except.bind, Except.map, pure,
      Except.pure, Except.ok.injEq] at hbinding ⊢
    cases hbinding
    refine ⟨_, rfl, ?_⟩
    cases c.symbolName? with
    | none => exact .none
    | some name => exact .some ⟨rfl, hmatched.2⟩

/-- A name is found in matched frames at the same place. -/
theorem frameWalk (h : l.Match ρ heap heap') {name : Text} {found : Option Handle}
    (hwalk : FrameWalk heap name e found) (he : ρ e e') :
    ∃ found', FrameWalk heap' name e' found' ∧ Option.Rel ρ found found' := by
  induction hwalk generalizing e' with
  | done hp =>
    obtain ⟨parts', hp', hmatched⟩ := h.pair? he hp
    cases hmatched
    exact ⟨none, .done hp', .none⟩
  | found hp hb =>
    obtain ⟨_, _, hp', hhead, -⟩ := h.pair?_some he hp
    obtain ⟨binding', hb', hbound⟩ := h.binding? hhead hb
    cases hbound with
    | @some _ b' hbound =>
      obtain ⟨_, value'⟩ := b'
      obtain ⟨rfl, hvalue⟩ := hbound
      exact ⟨some value', .found hp' hb', .some hvalue⟩
  | next hp hb hother _ ih =>
    obtain ⟨_, _, hp', hhead, htail⟩ := h.pair?_some he hp
    obtain ⟨binding', hb', hbound⟩ := h.binding? hhead hb
    obtain ⟨found', hrest, hfound⟩ := ih htail
    refine ⟨found', .next hp' hb' (fun b' hb' => ?_) hrest, hfound⟩
    cases hbound with
    | none => cases hb'
    | some hbound =>
      cases hb'
      rw [← hbound.1]
      exact hother _ rfl

/-- A name is found in matched chains in the same frame. -/
theorem chainWalk (h : l.Match ρ heap heap') {name : Text} {found : Option Handle}
    (hwalk : ChainWalk heap name e found) (he : ρ e e') :
    ∃ found', ChainWalk heap' name e' found' ∧ Option.Rel ρ found found' := by
  induction hwalk generalizing e' with
  | done hp =>
    obtain ⟨parts', hp', hmatched⟩ := h.pair? he hp
    cases hmatched
    exact ⟨none, .done hp', .none⟩
  | found hp hframe =>
    obtain ⟨_, _, hp', hhead, -⟩ := h.pair?_some he hp
    obtain ⟨found', hframe', hfound⟩ := h.frameWalk hframe hhead
    cases hfound with
    | some hvalue => exact ⟨some _, .found hp' hframe', .some hvalue⟩
  | next hp hframe _ ih =>
    obtain ⟨_, _, hp', hhead, htail⟩ := h.pair?_some he hp
    obtain ⟨none', hframe', hnone⟩ := h.frameWalk hframe hhead
    cases hnone
    obtain ⟨found', hrest, hfound⟩ := ih htail
    exact ⟨found', .next hp' hframe' hrest, hfound⟩

/-- **A name has matched values in both scopes**, or none in either. The pairs of the scopes need
not be matched themselves. -/
theorem lookupName (h : l.Match ρ heap heap') (name : Text) : ∃ found found',
    heap.lookupName l.scope name = .ok found ∧ heap'.lookupName l.scope' name = .ok found' ∧
      Option.Rel ρ found found' := by
  obtain ⟨frame, parent, frame', parent', hc, hc', hframe, hparent⟩ := h.frames
  obtain ⟨found, hfound, hwalk⟩ := h.wellFormed.chainWalk h.ends name
  have hp : heap'.pair? l.scope'.chain = .ok (some (frame', parent')) := pair?_of_cell? hc'
  have hright : ∃ found', ChainWalk heap' name l.scope'.chain found' ∧
      Option.Rel ρ found found' := by
    cases hwalk with
    | done hnone => cases (pair?_of_cell? hc).symm.trans hnone
    | found hparts hleft =>
      cases (pair?_of_cell? hc).symm.trans hparts
      obtain ⟨found', hleft', hfound⟩ := h.frameWalk hleft hframe
      cases hfound with
      | some hvalue => exact ⟨some _, .found hp hleft', .some hvalue⟩
    | next hparts hleft hrest =>
      cases (pair?_of_cell? hc).symm.trans hparts
      obtain ⟨none', hleft', hnone⟩ := h.frameWalk hleft hframe
      cases hnone
      obtain ⟨found', hrest', hfound⟩ := h.chainWalk hrest hparent
      exact ⟨found', .next hp hleft' hrest', hfound⟩
  obtain ⟨found', hwalk', hmatched⟩ := hright
  exact ⟨found, found', hfound, hwalk'.lookupName_eq h.ends', hmatched⟩

/-! ## Printing -/

/-- Matched handles have the same slot on one side when they have on the other. -/
theorem index_eq_iff (h : l.Match ρ heap heap') (he : ρ e e') {f f' : Handle} (hf : ρ f f') :
    e.index = f.index ↔ e'.index = f'.index := by
  obtain ⟨c, c', hc, hc', -⟩ := h.cells e e' he
  obtain ⟨d, d', hd, hd', -⟩ := h.cells f f' hf
  have hsame := h.unique e e' f f' (.inl he) (.inl hf)
  constructor
  · intro hindex
    rw [hsame.mp (eq_of_index_eq hc hd hindex)]
  · intro hindex
    rw [hsame.mpr (eq_of_index_eq hc' hd' hindex)]

/-- The slots of matched handles. -/
def MatchedSlots (ρ : Matching) (i i' : Nat) : Prop :=
  ∃ e e', i = e.index ∧ i' = e'.index ∧ ρ e e'

/-- A matched pair is on a path when the other is on the other path. -/
theorem mem_path_iff (h : l.Match ρ heap heap') (he : ρ e e') {path path' : List Nat}
    (hpath : List.Forall₂ (MatchedSlots ρ) path path') : e.index ∈ path ↔ e'.index ∈ path' := by
  induction hpath with
  | nil => simp
  | cons hfirst _ ih =>
    obtain ⟨f, f', rfl, rfl, hf⟩ := hfirst
    rw [List.mem_cons, List.mem_cons, ih, h.index_eq_iff he hf]

/-- **The print walk goes the same way** on both sides and writes the same text. -/
theorem printWalk (h : l.Match ρ heap heap') {place : PrintPlace} {depth : Nat} {path : List Nat}
    {out out' : Writer} (hwalk : PrintWalk heap place depth path e out out') (he : ρ e e')
    {path' : List Nat} (hpath : List.Forall₂ (MatchedSlots ρ) path path') :
    PrintWalk heap' place depth path' e' out out' := by
  have hright : ∀ {e e' : Handle} {c : Cell κ}, ρ e e' → heap.inspect e = .ok c →
      ∃ c', heap'.inspect e' = .ok c' ∧ c.Matches l.native ρ c' := by
    intro e e' c he hin
    obtain ⟨c', hc', hmatch⟩ := h.cell?_right he (inspect_eq_ok_iff.mp hin)
    exact ⟨c', inspect_eq_ok_iff.mpr hc', hmatch⟩
  induction hwalk generalizing e' path' with
  | cut hcut => exact .cut hcut
  | atom hcut hin hp =>
    obtain ⟨c', hin', hmatch⟩ := hright he hin
    cases hmatch.eq_of_atom hp
    exact .atom hcut hin' hp
  | again hcut hin hagain =>
    obtain ⟨c', hin', hmatch⟩ := hright he hin
    obtain ⟨head', tail', rfl, -⟩ := hmatch.exists_pair
    exact .again hcut hin' (hagain.imp_left (h.mem_path_iff he hpath).mp)
  | list hcut hin hnew _ ih =>
    obtain ⟨c', hin', hmatch⟩ := hright he hin
    obtain ⟨head', tail', rfl, -⟩ := hmatch.exists_pair
    exact .list hcut hin' (fun hmem => hnew ((h.mem_path_iff he hpath).mpr hmem)) (ih he hpath)
  | done hcut hin =>
    obtain ⟨c', hin', hmatch⟩ := hright he hin
    cases hmatch
    exact .done hcut hin'
  | dotted hcut hin hnil hp _ ih =>
    obtain ⟨c', hin', hmatch⟩ := hright he hin
    cases hmatch.eq_of_atom hp
    exact .dotted hcut hin' hnil hp (ih he hpath)
  | back hcut hin hmem =>
    obtain ⟨c', hin', hmatch⟩ := hright he hin
    obtain ⟨head', tail', rfl, -⟩ := hmatch.exists_pair
    exact .back hcut hin' ((h.mem_path_iff he hpath).mp hmem)
  | item hcut hin hnew _ _ ihhead ihtail =>
    obtain ⟨c', hin', hmatch⟩ := hright he hin
    obtain ⟨head', tail', rfl, hhead, htail⟩ := hmatch.exists_pair
    have hpath' := List.Forall₂.cons (⟨_, _, rfl, rfl, he⟩ : MatchedSlots ρ _ _) hpath
    exact .item hcut hin' (fun hmem => hnew ((h.mem_path_iff he hpath).mpr hmem))
      (ihhead hhead hpath') (ihtail htail hpath')

/-- **Matched values are printed as the same text**, cyclic ones included. -/
theorem formatWithin (h : l.Match ρ heap heap') (limit : PrintLimit) (he : ρ e e') :
    ∃ shown, heap.formatWithin limit e = .ok shown ∧ heap'.formatWithin limit e' = .ok shown := by
  obtain ⟨out, hwalk⟩ := h.wellFormed.printWalk maxPrintDepth .nil (h.isLive he) (.empty limit)
  have hleft : heap.write maxPrintDepth [] e (.empty limit) = .ok out := hwalk.writesAt .nil
  have hright : heap'.write maxPrintDepth [] e' (.empty limit) = .ok out :=
    (h.printWalk hwalk he .nil).writesAt .nil
  unfold Heap.formatWithin
  rw [hleft, hright]
  exact ⟨out.toText, rfl, rfl⟩

theorem format (h : l.Match ρ heap heap') (he : ρ e e') :
    ∃ shown, heap.format e = .ok shown ∧ heap'.format e' = .ok shown :=
  h.formatWithin _ he

/-- Matched values are displayed as the same text. -/
theorem display (h : l.Match ρ heap heap') (he : ρ e e') :
    ∃ shown, heap.display e = .ok shown ∧ heap'.display e' = .ok shown := by
  obtain ⟨c, c', hin, hin', hmatch⟩ := h.inspect he
  have hformat := h.format he
  unfold Heap.display
  rw [hin, hin']
  cases hmatch with
  | string value => exact ⟨value, rfl, rfl⟩
  | nil | number | symbol | pair | native => exact hformat

/-! ## Forces -/

/-- Matched arguments are the same force. -/
theorem forceOf (h : l.Match ρ heap heap') (he : ρ e e') :
    ∃ force, LevelAction.forceOf heap e = .ok force ∧ LevelAction.forceOf heap' e' = .ok force := by
  obtain ⟨items, items', hitems, hitems', hmatched⟩ := h.listItems he
  unfold LevelAction.forceOf
  rw [hitems, hitems']
  cases hmatched with
  | none => exact ⟨none, rfl, rfl⟩
  | some hmatched =>
    cases hmatched with
    | nil => exact ⟨none, rfl, rfl⟩
    | cons hx hrest =>
      cases hrest with
      | nil => exact ⟨none, rfl, rfl⟩
      | cons hy hrest =>
        cases hrest with
        | cons => exact ⟨none, rfl, rfl⟩
        | nil =>
          obtain ⟨x, x', hinx, hinx', hmatchx⟩ := h.inspect hx
          obtain ⟨y, y', hiny, hiny', hmatchy⟩ := h.inspect hy
          simp only [hinx, hinx', hiny, hiny', hmatchx.number?_eq, hmatchy.number?_eq, bind,
            Except.bind]
          split <;> exact ⟨_, rfl, rfl⟩

end Layouts.Match

end ConsoleLisp
