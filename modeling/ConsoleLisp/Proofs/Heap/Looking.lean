import ConsoleLisp.Evaluation.Program
import ConsoleLisp.Heap.Print
import ConsoleLisp.Level.Natives
import ConsoleLisp.Proofs.Heap.WellFormed
import ConsoleLisp.Scope

/-!
# Looking at live values

In a well-formed heap no pair points outside the live cells. So whatever walks along the parts of
pairs from a live value meets live values only: it does not fault, and what it finds is live. The
value may be cyclic; only the fuel of a walk is used, not that it is enough.

Results:
* `listItems_total`, `splitArguments_total`: lists and argument lists.
* `lookupName_total`: scopes.
* `display_total`: printing.
-/

namespace ConsoleLisp

namespace Heap

variable {κ : Type} {heap : Heap κ}

theorem exists_inspect {e : Handle} (he : heap.isLive e = true) :
    ∃ c, heap.inspect e = .ok c ∧ heap.cell? e = some c := by
  obtain ⟨c, hc⟩ := isLive_iff.mp he
  exact ⟨c, inspect_eq_ok_iff.mpr hc, hc⟩

namespace WellFormed

theorem parts_isLive (w : heap.WellFormed) {e head tail : Handle}
    (h : heap.cell? e = some (.pair head tail)) :
    heap.isLive head = true ∧ heap.isLive tail = true :=
  (w.parts_of_pair h).imp isLive_iff.mpr isLive_iff.mpr

/-- The parts of a live pair are live. -/
theorem pair?_total (w : heap.WellFormed) {e : Handle} (he : heap.isLive e = true) :
    ∃ parts, heap.pair? e = .ok parts ∧
      ∀ p ∈ parts, heap.isLive p.1 = true ∧ heap.isLive p.2 = true := by
  obtain ⟨c, hin, hc⟩ := exists_inspect he
  refine ⟨c.pair?, by rw [pair?, hin]; rfl, fun p hp => ?_⟩
  cases c with
  | pair head tail =>
    cases hp
    exact w.parts_isLive hc
  | nil | number | symbol | string | native => cases hp

/-! ## Lists -/

theorem walkList_total (w : heap.WellFormed) (fuel : Nat) {met : List Handle} {e : Handle}
    (hmet : ∀ f ∈ met, heap.isLive f = true) (he : heap.isLive e = true) :
    ∃ items, heap.walkList fuel met e = .ok items ∧ ∀ l ∈ items, ∀ f ∈ l, heap.isLive f = true := by
  induction fuel generalizing met e with
  | zero => exact ⟨none, rfl, nofun⟩
  | succ fuel ih =>
    obtain ⟨c, hin, hc⟩ := exists_inspect he
    rw [walkList, hin]
    cases c with
    | nil =>
      refine ⟨_, rfl, fun l hl f hf => ?_⟩
      cases hl
      exact hmet f (List.mem_reverse.mp hf)
    | pair head tail =>
      obtain ⟨hhead, htail⟩ := w.parts_isLive hc
      exact ih (List.forall_mem_cons.mpr ⟨hhead, hmet⟩) htail
    | number | symbol | string | native => exact ⟨none, rfl, nofun⟩

/-- The items of a live list are live. -/
theorem listItems_total (w : heap.WellFormed) {e : Handle} (he : heap.isLive e = true) :
    ∃ items, heap.listItems e = .ok items ∧ ∀ l ∈ items, ∀ f ∈ l, heap.isLive f = true :=
  w.walkList_total _ nofun he

/-- A walk keeps the items met in front of those to come. -/
theorem walkList_prefix {fuel : Nat} {met items : List Handle} {e : Handle}
    (h : heap.walkList fuel met e = .ok (some items)) : met.reverse <+: items := by
  induction fuel generalizing met e with
  | zero => cases h
  | succ fuel ih =>
    rw [walkList] at h
    cases hin : heap.inspect e with
    | error fault =>
      rw [hin] at h
      cases h
    | ok c =>
      rw [hin] at h
      cases c with
      | nil =>
        cases h
        exact List.prefix_rfl
      | pair head tail =>
        have hrest := ih h
        rw [List.reverse_cons] at hrest
        exact (List.prefix_append _ _).trans hrest
      | number | symbol | string | native => cases h

/-- The first item of a list is the head of its first pair. -/
theorem cell?_of_listItems {e first : Handle} {rest : List Handle}
    (h : heap.listItems e = .ok (some (first :: rest))) :
    ∃ tail, heap.cell? e = some (.pair first tail) := by
  rw [listItems, walkList] at h
  cases hin : heap.inspect e with
  | error fault =>
    rw [hin] at h
    cases h
  | ok c =>
    rw [hin] at h
    cases c with
    | pair head tail =>
      obtain ⟨items, heq⟩ := walkList_prefix h
      cases heq
      exact ⟨tail, inspect_eq_ok_iff.mp hin⟩
    | nil | number | symbol | string | native => cases h

/-- The items of a live argument list are live; a list that is refused is the payload itself. -/
theorem splitArguments_total (w : heap.WellFormed) {args : Handle} (he : heap.isLive args = true)
    (arity : Arity) :
    (∃ code, heap.splitArguments args arity = .ok (.error ⟨args, code⟩)) ∨
      ∃ items, heap.splitArguments args arity = .ok (.ok items) ∧ arity items.length = true ∧
        heap.listItems args = .ok (some items) ∧ ∀ f ∈ items, heap.isLive f = true := by
  obtain ⟨items, hitems, hlive⟩ := w.listItems_total he
  rw [splitArguments, hitems]
  cases items with
  | none => exact .inl ⟨_, rfl⟩
  | some items =>
    cases harity : arity items.length with
    | false => exact .inl ⟨.arity, if_neg (Bool.eq_false_iff.mp harity)⟩
    | true => exact .inr ⟨items, if_pos harity, harity, rfl, hlive items rfl⟩

/-! ## Scopes -/

/-- The value of a live binding is live. -/
theorem binding?_total (w : heap.WellFormed) {e : Handle} (he : heap.isLive e = true) :
    ∃ binding, heap.binding? e = .ok binding ∧ ∀ b ∈ binding, heap.isLive b.value = true := by
  obtain ⟨parts, hparts, hlive⟩ := w.pair?_total he
  rw [binding?, hparts]
  cases parts with
  | none => exact ⟨none, rfl, nofun⟩
  | some parts =>
    obtain ⟨hsymbol, hvalue⟩ := hlive parts rfl
    obtain ⟨c, hin, -⟩ := exists_inspect hsymbol
    refine ⟨c.symbolName?.map (⟨·, parts.2⟩), ?_, fun b hb => ?_⟩
    · show (do return (← heap.symbolName? parts.1).map (Binding.mk · parts.2)) = _
      rw [symbolName?, hin]
      rfl
    · obtain ⟨name, -, rfl⟩ := Option.map_eq_some_iff.mp hb
      exact hvalue

theorem lookupFrame_total (w : heap.WellFormed) (name : Text) (fuel : Nat) {cursor : Handle}
    (he : heap.isLive cursor = true) :
    ∃ found, heap.lookupFrame name fuel cursor = .ok found ∧
      ∀ value ∈ found, heap.isLive value = true := by
  induction fuel generalizing cursor with
  | zero => exact ⟨none, rfl, nofun⟩
  | succ fuel ih =>
    obtain ⟨parts, hparts, hlive⟩ := w.pair?_total he
    rw [lookupFrame, hparts]
    cases parts with
    | none => exact ⟨none, rfl, nofun⟩
    | some parts =>
      obtain ⟨hhead, htail⟩ := hlive parts rfl
      obtain ⟨binding, hbinding, hvalue⟩ := w.binding?_total hhead
      simp only [hbinding, bind, Except.bind]
      cases binding with
      | none => exact ih htail
      | some binding =>
        by_cases hname : binding.name = name
        · refine ⟨some binding.value, if_pos hname, fun value hfound => ?_⟩
          cases hfound
          exact hvalue binding rfl
        · simp only [if_neg hname]
          exact ih htail

theorem lookupChain_total (w : heap.WellFormed) (name : Text) (fuel : Nat) {cursor : Handle}
    (he : heap.isLive cursor = true) :
    ∃ found, heap.lookupChain name fuel cursor = .ok found ∧
      ∀ value ∈ found, heap.isLive value = true := by
  induction fuel generalizing cursor with
  | zero => exact ⟨none, rfl, nofun⟩
  | succ fuel ih =>
    obtain ⟨parts, hparts, hlive⟩ := w.pair?_total he
    rw [lookupChain, hparts]
    cases parts with
    | none => exact ⟨none, rfl, nofun⟩
    | some parts =>
      obtain ⟨hframe, hparent⟩ := hlive parts rfl
      obtain ⟨found, hfound, hvalue⟩ := w.lookupFrame_total name (heap.slots.size + 1) hframe
      simp only [hfound, bind, Except.bind]
      cases found with
      | some value => exact ⟨some value, rfl, hvalue⟩
      | none => exact ih hparent

/-- What is bound in a live scope is live. -/
theorem lookupName_total (w : heap.WellFormed) {scope : Scope} (he : heap.isLive scope.chain = true)
    (name : Text) : ∃ found, heap.lookupName scope name = .ok found ∧
      ∀ value ∈ found, heap.isLive value = true :=
  w.lookupChain_total name _ he

/-! ## Printing -/

theorem writeItems_total (w : heap.WellFormed)
    {writeItem : List Nat → Handle → Writer → Except Fault Writer}
    (hitem : ∀ path e out, heap.isLive e = true → ∃ out', writeItem path e out = .ok out')
    (fuel : Nat) (path : List Nat) (isFirst : Bool) {cursor : Handle}
    (he : heap.isLive cursor = true) (out : Writer) :
    ∃ out', heap.writeItems writeItem fuel path isFirst cursor out = .ok out' := by
  induction fuel generalizing path isFirst cursor out with
  | zero => exact ⟨out, rfl⟩
  | succ fuel ih =>
    obtain ⟨c, hin, hc⟩ := exists_inspect he
    rw [writeItems, hin]
    split
    · exact ⟨_, rfl⟩
    · cases c with
      | nil => exact ⟨_, rfl⟩
      | number | symbol | string | native => exact hitem _ _ _ he
      | pair head tail =>
        obtain ⟨hhead, htail⟩ := w.parts_isLive hc
        simp only
        split
        · exact ⟨_, rfl⟩
        · obtain ⟨out', hout'⟩ := hitem (cursor.index :: path) head
            (if isFirst then out else out.emit [unit ' ']) hhead
          rw [hout']
          exact ih _ _ htail _

theorem write_total (w : heap.WellFormed) (depth : Nat) (path : List Nat) {e : Handle}
    (he : heap.isLive e = true) (out : Writer) :
    ∃ out', heap.write depth path e out = .ok out' := by
  obtain ⟨c, hin, -⟩ := exists_inspect he
  induction depth generalizing path e out c with
  | zero =>
    rw [write, hin]
    split
    · exact ⟨_, rfl⟩
    · cases c with
      | nil | number | symbol | string | native => exact ⟨_, rfl⟩
      | pair head tail =>
        simp only
        split <;> exact ⟨_, rfl⟩
  | succ depth ih =>
    rw [write, hin]
    split
    · exact ⟨_, rfl⟩
    · cases c with
      | nil | number | symbol | string | native => exact ⟨_, rfl⟩
      | pair head tail =>
        simp only
        split
        · exact ⟨_, rfl⟩
        · obtain ⟨out', hout'⟩ := w.writeItems_total (fun path e out he => by
            obtain ⟨c, hin, -⟩ := exists_inspect he
            exact ih path he out c hin) (heap.slots.size + 1) path true he (out.emit [unit '('])
          rw [hout']
          exact ⟨_, rfl⟩

/-- A live value is displayed. -/
theorem display_total (w : heap.WellFormed) {e : Handle} (he : heap.isLive e = true) :
    ∃ shown, heap.display e = .ok shown := by
  obtain ⟨c, hin, -⟩ := exists_inspect he
  have hformat : ∃ shown, heap.format e = .ok shown := by
    obtain ⟨out, hout⟩ := w.write_total maxPrintDepth [] he (.empty (.atMost maxPrintLength))
    exact ⟨out.toText, by rw [format, formatWithin, hout]; rfl⟩
  rw [display, hin]
  cases c with
  | string value => exact ⟨value, rfl⟩
  | nil | number | symbol | pair | native => exact hformat

/-! ## Forces -/

/-- A live argument is a force or none. -/
theorem forceOf_total (w : heap.WellFormed) {e : Handle} (he : heap.isLive e = true) :
    ∃ force, LevelAction.forceOf heap e = .ok force := by
  obtain ⟨items, hitems, hlive⟩ := w.listItems_total he
  rw [LevelAction.forceOf, hitems]
  match items, hlive with
  | some [x, y], hlive =>
    obtain ⟨c, hc, -⟩ := exists_inspect (hlive [x, y] rfl x List.mem_cons_self)
    obtain ⟨d, hd, -⟩ := exists_inspect
      (hlive [x, y] rfl y (List.mem_cons_of_mem x List.mem_cons_self))
    simp only [hc, hd, bind, Except.bind]
    split <;> exact ⟨_, rfl⟩
  | none, _ | some [], _ | some [_], _ | some (_ :: _ :: _ :: _), _ => exact ⟨none, rfl⟩

end WellFormed

end Heap

end ConsoleLisp
