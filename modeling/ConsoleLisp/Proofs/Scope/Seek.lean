import ConsoleLisp.Proofs.Heap.Growth
import ConsoleLisp.Proofs.Scope.Walks

/-!
# Lookups in a heap that grows

A lookup walks along tails, of a frame or of the chain of frames, to the first head that has what is
looked for. `Heap.seek` is that walk and `Seeks` says where it finds something. No pair is passed
twice on the way, also where the tails come back to one of them, so the fuel of a lookup, which
depends on the size of the arena, always is enough; and the cells that are added to a heap are not
on the way.

Results:
* `Seeks.lt_size`: what is found is found before there are more pairs than slots.
* **`seek_eq_some_iff`**: a walk finds what there is to find within its fuel.
* `seek_agree`: two heaps of which one has all the cells of the other.
* **`Extends.lookupName_eq`**, `Extends.lookup_eq`: adding cells changes no lookup.
-/

namespace ConsoleLisp

namespace Heap

variable {κ : Type} {heap heap' : Heap κ}

/-! ## The walk -/

/-- Walk along the tails to the first head that has what is looked for. -/
def seek (heap : Heap κ) (visit : Handle → Except Fault (Option Handle)) :
    Nat → Handle → Except Fault (Option Handle)
  | 0, _ => .ok none
  | fuel + 1, cursor => do
    match ← heap.pair? cursor with
    | none => return none
    | some (head, tail) =>
      match ← visit head with
      | some value => return some value
      | none => heap.seek visit fuel tail

/-- What a binding has for whoever looks for a name. -/
def boundTo (heap : Heap κ) (name : Text) (e : Handle) : Except Fault (Option Handle) := do
  match ← heap.binding? e with
  | some binding => return if binding.name = name then some binding.value else none
  | none => return none

theorem lookupFrame_eq_seek (name : Text) (fuel : Nat) (cursor : Handle) :
    heap.lookupFrame name fuel cursor = heap.seek (heap.boundTo name) fuel cursor := by
  induction fuel generalizing cursor with
  | zero => rfl
  | succ fuel ih =>
    unfold lookupFrame seek
    cases hparts : heap.pair? cursor with
    | error fault => rfl
    | ok parts =>
      cases parts with
      | none => rfl
      | some parts =>
        obtain ⟨head, tail⟩ := parts
        simp only [bind, Except.bind, boundTo]
        cases hbinding : heap.binding? head with
        | error fault => rfl
        | ok binding =>
          cases binding with
          | none => exact ih tail
          | some binding =>
            by_cases hname : binding.name = name
            · simp [hname, pure, Except.pure]
            · simp only [hname, if_false, pure, Except.pure]
              exact ih tail

theorem lookupChain_eq_seek (name : Text) (fuel : Nat) (cursor : Handle) :
    heap.lookupChain name fuel cursor =
      heap.seek (heap.lookupFrame name (heap.slots.size + 1)) fuel cursor := by
  induction fuel generalizing cursor with
  | zero => rfl
  | succ fuel ih =>
    unfold lookupChain seek
    cases hparts : heap.pair? cursor with
    | error fault => rfl
    | ok parts =>
      cases parts with
      | none => rfl
      | some parts =>
        obtain ⟨frame, parent⟩ := parts
        simp only [bind, Except.bind]
        cases hfound : heap.lookupFrame name (heap.slots.size + 1) frame with
        | error fault => rfl
        | ok found =>
          cases found with
          | none => exact ih parent
          | some value => rfl

/-! ## What is found -/

/-- After so many pairs along the tails, the walk is at the first head that has the value. -/
inductive Seeks (heap : Heap κ) (visit : Handle → Except Fault (Option Handle)) (value : Handle) :
    Nat → Handle → Prop
  | here {e head tail : Handle} : heap.cell? e = some (.pair head tail) →
      visit head = .ok (some value) → Seeks heap visit value 0 e
  | there {n : Nat} {e head tail : Handle} : heap.cell? e = some (.pair head tail) →
      visit head = .ok none → Seeks heap visit value n tail → Seeks heap visit value (n + 1) e

variable {visit visit' : Handle → Except Fault (Option Handle)} {value : Handle} {n m fuel : Nat}
  {e : Handle}

namespace Seeks

theorem unique (h : Seeks heap visit value n e) (h' : Seeks heap visit value m e) : n = m := by
  induction h generalizing m with
  | here hc hvalue =>
    cases h' with
    | here => rfl
    | there hc' hnone =>
      cases hc.symm.trans hc'
      cases hvalue.symm.trans hnone
  | there hc hnone _ ih =>
    cases h' with
    | here hc' hvalue =>
      cases hc.symm.trans hc'
      cases hnone.symm.trans hvalue
    | there hc' _ h' =>
      cases hc.symm.trans hc'
      rw [ih h']

theorem exists_cell (h : Seeks heap visit value n e) : ∃ c, heap.cell? e = some c := by
  cases h with
  | here hc => exact ⟨_, hc⟩
  | there hc => exact ⟨_, hc⟩

theorem exists_next (h : Seeks heap visit value (n + 1) e) : ∃ f, Seeks heap visit value n f := by
  cases h with
  | there _ _ hrest => exact ⟨_, hrest⟩

/-- What is found is found before there are more pairs than slots. -/
theorem lt_size (h : Seeks heap visit value n e) : n < heap.slots.size :=
  lt_size_of_descent (P := Seeks heap visit value) (fun _ _ _ => unique) (fun _ _ => exists_next)
    (fun _ _ => exists_cell) h

/-- In a heap with all the cells of another one, the same is found from what both have. -/
theorem iff_of_extends (hext : Extends heap heap') (w : heap.WellFormed)
    (hvisit : ∀ head, heap.isLive head = true → visit' head = visit head)
    (he : heap.isLive e = true) :
    Seeks heap' visit' value n e ↔ Seeks heap visit value n e := by
  constructor
  · intro h
    induction h with
    | here hc hvalue =>
      rw [hext.cell?_eq he] at hc
      rw [hvisit _ (w.parts_isLive hc).1] at hvalue
      exact .here hc hvalue
    | there hc hnone _ ih =>
      rw [hext.cell?_eq he] at hc
      obtain ⟨hhead, htail⟩ := w.parts_isLive hc
      rw [hvisit _ hhead] at hnone
      exact .there hc hnone (ih htail)
  · intro h
    induction h with
    | here hc hvalue =>
      rw [← hvisit _ (w.parts_isLive hc).1] at hvalue
      exact .here (hext.cell?_mono _ _ hc) hvalue
    | there hc hnone _ ih =>
      obtain ⟨hhead, htail⟩ := w.parts_isLive hc
      rw [← hvisit _ hhead] at hnone
      exact .there (hext.cell?_mono _ _ hc) hnone (ih htail)

end Seeks

/-- **A walk finds what there is to find within its fuel.** -/
theorem seek_eq_some_iff :
    heap.seek visit fuel e = .ok (some value) ↔ ∃ n < fuel, Seeks heap visit value n e := by
  constructor
  · intro h
    induction fuel generalizing e with
    | zero => cases h
    | succ fuel ih =>
      unfold seek at h
      cases hparts : heap.pair? e with
      | error fault =>
        rw [hparts] at h
        cases h
      | ok parts =>
        rw [hparts] at h
        cases parts with
        | none => cases h
        | some parts =>
          obtain ⟨head, tail⟩ := parts
          have hc := cell?_of_pair? hparts
          simp only [bind, Except.bind] at h
          cases hvisit : visit head with
          | error fault =>
            rw [hvisit] at h
            cases h
          | ok found =>
            rw [hvisit] at h
            cases found with
            | some other =>
              cases h
              exact ⟨0, Nat.succ_pos fuel, .here hc hvisit⟩
            | none =>
              obtain ⟨n, hn, hrest⟩ := ih h
              exact ⟨n + 1, Nat.succ_lt_succ hn, .there hc hvisit hrest⟩
  · rintro ⟨n, hn, h⟩
    induction h generalizing fuel with
    | here hc hvalue =>
      obtain ⟨fuel, rfl⟩ := Nat.exists_eq_succ_of_ne_zero (Nat.ne_zero_of_lt hn)
      unfold seek
      rw [pair?_of_cell? hc]
      simp only [bind, Except.bind, Cell.pair?, hvalue]
      rfl
    | there hc hnone _ ih =>
      obtain ⟨fuel, rfl⟩ := Nat.exists_eq_succ_of_ne_zero (Nat.ne_zero_of_lt hn)
      unfold seek
      rw [pair?_of_cell? hc]
      simp only [bind, Except.bind, Cell.pair?, hnone]
      exact ih (Nat.lt_of_succ_lt_succ hn)

/-- With more fuel than slots that is all there is to find. -/
theorem seek_size_eq_some_iff :
    heap.seek visit (heap.slots.size + 1) e = .ok (some value) ↔
      ∃ n, Seeks heap visit value n e := by
  rw [seek_eq_some_iff]
  refine exists_congr fun n => and_iff_right_of_imp fun h => ?_
  exact Nat.lt_succ_of_lt h.lt_size

/-- Walks in two heaps, one with all the cells of the other, find the same. -/
theorem seek_agree (hext : Extends heap heap') (w : heap.WellFormed)
    (hvisit : ∀ head, heap.isLive head = true → visit' head = visit head)
    (he : heap.isLive e = true) {found found' : Option Handle}
    (h : heap.seek visit (heap.slots.size + 1) e = .ok found)
    (h' : heap'.seek visit' (heap'.slots.size + 1) e = .ok found') : found' = found := by
  refine Option.ext fun value => ?_
  have hfound := @seek_size_eq_some_iff κ heap visit value e
  have hfound' := @seek_size_eq_some_iff κ heap' visit' value e
  rw [h, Except.ok.injEq] at hfound
  rw [h', Except.ok.injEq] at hfound'
  rw [hfound, hfound']
  exact exists_congr fun n => Seeks.iff_of_extends hext w hvisit he

/-! ## Lookups -/

namespace Extends

variable (hext : Extends heap heap') (w : heap.WellFormed) (w' : heap'.WellFormed)
include hext w

theorem boundTo_eq (name : Text) (he : heap.isLive e = true) :
    heap'.boundTo name e = heap.boundTo name e := by
  have hbinding : heap'.binding? e = heap.binding? e := by
    obtain ⟨c, hc⟩ := isLive_iff.mp he
    unfold binding?
    rw [pair?_of_cell? hc, pair?_of_cell? (hext.cell?_mono e c hc)]
    cases c with
    | pair symbol value =>
      obtain ⟨d, hd⟩ := isLive_iff.mp (w.parts_isLive hc).1
      have hsymbol : heap'.symbolName? symbol = heap.symbolName? symbol := by
        unfold symbolName?
        rw [inspect_eq_ok_iff.mpr hd, inspect_eq_ok_iff.mpr (hext.cell?_mono _ _ hd)]
      simp only [bind, Except.bind, Cell.pair?, hsymbol]
    | nil | number | symbol | string | native => rfl
  unfold boundTo
  rw [hbinding]

include w'

theorem lookupFrame_eq (name : Text) (he : heap.isLive e = true) :
    heap'.lookupFrame name (heap'.slots.size + 1) e =
      heap.lookupFrame name (heap.slots.size + 1) e := by
  obtain ⟨found, hfound, -⟩ := w.lookupFrame_total name (heap.slots.size + 1) he
  obtain ⟨found', hfound', -⟩ :=
    w'.lookupFrame_total name (heap'.slots.size + 1) (hext.isLive he)
  rw [hfound, hfound']
  rw [lookupFrame_eq_seek] at hfound hfound'
  exact congrArg _
    (seek_agree hext w (fun _ hhead => hext.boundTo_eq w name hhead) he hfound hfound')

/-- **Adding cells changes no lookup**, in whatever scope that is not new. -/
theorem lookupName_eq {scope : Scope} (hscope : ¬ IsNew heap heap' scope.chain) (name : Text) :
    heap'.lookupName scope name = heap.lookupName scope name := by
  unfold lookupName
  cases he : heap.isLive scope.chain with
  | true =>
    obtain ⟨found, hfound, -⟩ := w.lookupChain_total name (heap.slots.size + 1) he
    obtain ⟨found', hfound', -⟩ :=
      w'.lookupChain_total name (heap'.slots.size + 1) (hext.isLive he)
    rw [hfound, hfound']
    rw [lookupChain_eq_seek] at hfound hfound'
    exact congrArg _
      (seek_agree hext w (fun _ hhead => hext.lookupFrame_eq w w' name hhead) he hfound hfound')
  | false =>
    -- a handle that is not live is refused by both, with the same fault
    have hin := hext.inspect_eq w w' hscope
    cases hrefused : heap.inspect scope.chain with
    | ok c => cases he.symm.trans (isLive_of_cell? (inspect_eq_ok_iff.mp hrefused))
    | error fault =>
      unfold lookupChain pair?
      rw [hin, hrefused]
      rfl

theorem lookup_eq {scope : Scope} (hscope : ¬ IsNew heap heap' scope.chain) {symbol : Handle}
    (hsymbol : ¬ IsNew heap heap' symbol) :
    heap'.lookup scope symbol = heap.lookup scope symbol := by
  unfold lookup symbolName?
  rw [hext.inspect_eq w w' hsymbol]
  simp only [hext.lookupName_eq w w' hscope]

end Extends

end Heap

end ConsoleLisp
