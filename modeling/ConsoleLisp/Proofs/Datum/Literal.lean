import ConsoleLisp.Proofs.Datum.Extent
import ConsoleLisp.Proofs.Datum.RoundTrip
import ConsoleLisp.Proofs.Number.Literal
import ConsoleLisp.Proofs.Number.Whole

/-!
# Printing what a number literal reads as

A number literal is one atom, so it is read as its value. The text of a number is short, so it is
printed in full, and it is an atom too. It is a number literal again when the value is finite. A
literal of half a step above the largest number or more has an infinite value; there is no notation
for that, and its text is read as a symbol.

Results:
* `read_atom`: an atom is read as a whole.
* `format_number`: a number is printed in full.
* **`number_literals_stay_numbers`**: what a number literal reads as, printed and read again.
-/

namespace ConsoleLisp

namespace Heap

variable {κ : Type} {heap : Heap κ} {t : Text}

/-- In any heap with room for one cell, the text is read as a whole and as the given cell. -/
def ReadsAsCell (κ : Type) (t : Text) (c : Cell κ) : Prop :=
  ∀ heap : Heap κ, heap.WellFormed → heap.Room 1 →
    ∃ e heap', read t heap = (.ok (.ok (e, t.length)), heap') ∧ heap'.cell? e = some c

/-- **An atom is read as a whole**, as a number or as a symbol. -/
theorem read_atom (ht : t ≠ [] ∧ ∀ u ∈ t, isDelimiter u = false) (w : heap.WellFormed)
    (hroom : heap.Room 1) :
    ∃ e heap', read t heap = (.ok (.ok (e, t.length)), heap') ∧
      Denotes Empty.elim heap'.cell? e (Datum.ofAtom t).toTree := by
  obtain ⟨tokens, hlexes, hderives, hend⟩ :=
    Tree.lexes_name ht.1 ht.2 Text.isBounded_nil .start rfl
  exact read_of_lexes hlexes hderives hend w ((cells_ofAtom t).symm ▸ hroom)

theorem readsAsCell_number {l : Literal} (h : Literal.parse? t = some l) :
    ReadsAsCell κ t (.number l.value) := by
  intro heap w hroom
  have hliteral := Literal.isNumberLiteral_of_parse? h
  obtain ⟨e, heap', hread, he⟩ := read_atom (Literal.literal_atom hliteral) w hroom
  rw [Datum.ofAtom, h] at he
  exact ⟨e, heap', hread, he.look_of_atom? rfl⟩

theorem readsAsCell_symbol (h : IsName t) : ReadsAsCell κ t (.symbol t) := by
  intro heap w hroom
  obtain ⟨e, heap', hread, he⟩ := read_atom ⟨h.1, h.2.1⟩ w hroom
  rw [Tree.ofAtom_of_isName h] at he
  exact ⟨e, heap', hread, he.look_of_atom? rfl⟩

/-- **A number is printed in full.** -/
theorem format_number {e : Handle} {n : Number} (h : heap.cell? e = some (.number n)) :
    heap.format e = .ok (Number.toText n) := by
  have he : Denotes Empty.elim heap.cell? e (.number n) := .atom h rfl
  have hlength := Number.length_toText_le n
  rw [format_spec (fun _ _ hc => hc) he]
  exact congrArg Except.ok (if_pos (hlength.trans (by decide)))

/-- **Number literals stay numbers** within the range of the numbers. A literal, of any number of
digits and with any exponent, is read as the number nearest to the decimal that it writes. This is
finite exactly when the decimal is below half a step above the largest number; then its printed text
reads as the same number again, where negative zero is printed and read as zero. An infinite number
is printed as a word, and this reads as a symbol. -/
theorem number_literals_stay_numbers (h : isNumberLiteral t = true) :
    ∃ l, Literal.parse? t = some l ∧ (Number.isFinite l.value = true ↔ l.IsWithinRange) ∧
      ∀ heap : Heap κ, heap.WellFormed → heap.Room 1 → ∃ e heap' printed,
        read t heap = (.ok (.ok (e, t.length)), heap') ∧
        heap'.cell? e = some (.number l.value) ∧ heap'.format e = .ok printed ∧
        (l.IsWithinRange → ReadsAsCell κ printed (.number (Number.unsignedZero l.value))) ∧
        (¬ l.IsWithinRange → printed = minusSign l.negative ++ text "Infinity" ∧
          ReadsAsCell κ printed (.symbol printed)) := by
  obtain ⟨l, hparse⟩ := Option.isSome_iff_exists.mp h
  refine ⟨l, hparse, Literal.isFinite_value_iff, fun heap w hroom => ?_⟩
  obtain ⟨e, heap', hread, he⟩ := readsAsCell_number hparse heap w hroom
  refine ⟨e, heap', _, hread, he, format_number he, fun hrange => ?_, fun hrange => ?_⟩
  · obtain ⟨l', hparse', hvalue⟩ := Number.parse?_toText (Literal.isFinite_value_iff.mpr hrange)
    rw [← hvalue]
    exact readsAsCell_number hparse'
  · have hfinite := mt Literal.isFinite_value_iff.mp hrange
    have hatom := Number.toText_atom l.value
    exact ⟨Literal.toText_value_of_not_finite hfinite, readsAsCell_symbol ⟨hatom.1, hatom.2,
      Number.isNumberLiteral_toText_of_not_finite (Bool.eq_false_iff.mpr hfinite)⟩⟩

/-- The largest number, negated, from more digits than it is printed with. -/
theorem number_literals_stay_numbers_largest :
    ∃ (heap heap' other : Heap Unit) (e e' : Handle) (n : Number),
      create 1 Number.infinity = .ok heap ∧
      read (text "-179769313486231580793e+288") heap = (.ok (.ok (e, 27)), heap') ∧
      heap'.cell? e = some (.number n) ∧
      heap'.format e = .ok (text "-1.7976931348623157e+308") ∧
      read (text "-1.7976931348623157e+308") heap = (.ok (.ok (e', 24)), other) ∧
      other.cell? e' = some (.number n) := by
  have hcreate := @create_unbounded Unit 1
  have hw := create_wellFormed hcreate
  have hliteral : isNumberLiteral (text "-179769313486231580793e+288") = true := by
    decide +kernel
  obtain ⟨l, hparse, -, hread⟩ := number_literals_stay_numbers (κ := Unit) hliteral
  have hl : Literal.parse? (text "-179769313486231580793e+288") =
      some ⟨true, text "179769313486231580793", [], 288⟩ := by decide +kernel
  cases hl.symm.trans hparse
  obtain ⟨e, heap', printed, hrun, he, hformat, hagain, -⟩ := hread _ hw (room_of_infinity rfl _)
  have hprinted : printed = text "-1.7976931348623157e+308" := by
    refine Except.ok.inj (hformat.symm.trans ((format_number he).trans (congrArg _ ?_)))
    decide +kernel
  subst hprinted
  obtain ⟨e', other, hrun', he'⟩ := hagain (by unfold Literal.IsWithinRange; decide +kernel) _ hw
    (room_of_infinity rfl _)
  exact ⟨_, heap', other, e, e', _, hcreate, hrun, he, hformat, hrun',
    he'.trans (congrArg _ (by decide +kernel))⟩

/-- A literal above the largest number is read as infinity, and printed as a symbol. -/
theorem overflowing_literal_prints_as_symbol :
    isNumberLiteral (text "1e999") = true ∧ ∃ (heap heap' other : Heap Unit) (e e' : Handle),
      create 1 Number.infinity = .ok heap ∧
      read (text "1e999") heap = (.ok (.ok (e, 5)), heap') ∧
      heap'.cell? e = some (.number Number.infinity) ∧
      heap'.format e = .ok (text "Infinity") ∧
      read (text "Infinity") heap = (.ok (.ok (e', 8)), other) ∧
      other.cell? e' = some (.symbol (text "Infinity")) := by
  have hcreate := @create_unbounded Unit 1
  have hw := create_wellFormed hcreate
  have hparse : Literal.parse? (text "1e999") = some ⟨false, text "1", [], 999⟩ := by
    decide +kernel
  have hname : IsName (text "Infinity") :=
    ⟨List.cons_ne_nil _ _, Number.not_delimiter_of_all rfl, by decide +kernel⟩
  obtain ⟨e, heap', hread, he⟩ := readsAsCell_number hparse _ hw (room_of_infinity rfl _)
  obtain ⟨e', other, hread', he'⟩ := readsAsCell_symbol hname _ hw (room_of_infinity rfl _)
  have hvalue : (⟨false, text "1", [], 999⟩ : Literal).value = Number.infinity := by
    decide +kernel
  rw [hvalue] at he
  refine ⟨by decide +kernel, _, heap', other, e, e', hcreate, hread, he, ?_, hread', he'⟩
  exact (format_number he).trans (congrArg _ (Literal.toText_infinite false))

end Heap

end ConsoleLisp
