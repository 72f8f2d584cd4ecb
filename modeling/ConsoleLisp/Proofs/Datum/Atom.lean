import ConsoleLisp.Proofs.Number.Numeral
import ConsoleLisp.Proofs.Source.Partition
import ConsoleLisp.Proofs.Source.Written

/-!
# Numbers and symbols

An atom is a number when its text is a number literal, and otherwise the symbol of this name; there
is no third kind and no overlap. So whatever a unit is put into or behind, the grammar of number
literals decides: a unit that no literal has there makes a symbol.

Results:
* `ofAtom_eq_number_iff`, `ofAtom_eq_symbol_iff`, `ofAtom_number_xor_symbol`: which atoms are which.
* `readDatum_atom`: a text that is one atom is read as this atom, as a whole.
* `ofAtom_of_isMisplaced`: a line end, a digit outside ASCII, a second point or a sign inside.
* **`atoms_judged_by_grammar`**: the number literals are those of the grammar, and nothing else
  tells numbers from symbols.
-/

namespace ConsoleLisp

variable {t before after : Text} {u : CodeUnit}

namespace Datum

/-! ## The two kinds of atoms -/

/-- An atom is the value of the literal that it writes, or else a symbol. -/
theorem ofAtom_cases (t : Text) :
    (∃ l : Literal, l.IsWrittenAs t ∧ ofAtom t = .number l.value) ∨
      (∀ l : Literal, ¬ l.IsWrittenAs t) ∧ ofAtom t = .symbol t := by
  cases hparse : Literal.parse? t with
  | some l => exact .inl ⟨l, Literal.parse?_eq_some_iff.mp hparse, by rw [ofAtom, hparse]⟩
  | none =>
    refine .inr ⟨fun l hl => ?_, ofAtom_of_not_literal (Literal.parse?_eq_none_iff.mp hparse)⟩
    cases hparse.symm.trans (Literal.parse?_eq_some_iff.mpr hl)

theorem ofAtom_eq_number_iff {n : Number} :
    ofAtom t = .number n ↔ ∃ l : Literal, l.IsWrittenAs t ∧ l.value = n := by
  rcases ofAtom_cases t with ⟨l, hl, hatom⟩ | ⟨hnone, hatom⟩
  · rw [hatom, number.injEq]
    constructor
    · exact fun hvalue => ⟨l, hl, hvalue⟩
    · rintro ⟨l', hl', hvalue⟩
      rw [hl.unique hl', hvalue]
  · rw [hatom]
    exact iff_of_false nofun fun ⟨l, hl, _⟩ => hnone l hl

theorem ofAtom_eq_symbol_iff :
    ofAtom t = .symbol t ↔ ¬ ∃ l : Literal, l.IsWrittenAs t := by
  rcases ofAtom_cases t with ⟨l, hl, hatom⟩ | ⟨hnone, hatom⟩
  · rw [hatom]
    exact iff_of_false nofun fun hnot => hnot ⟨l, hl⟩
  · exact iff_of_true hatom fun ⟨l, hl⟩ => hnone l hl

/-- **An atom is a number or a symbol, and not both.** -/
theorem ofAtom_number_xor_symbol (t : Text) :
    Xor (∃ n, ofAtom t = .number n) (ofAtom t = .symbol t) := by
  rcases ofAtom_cases t with ⟨l, -, hatom⟩ | ⟨-, hatom⟩ <;> rw [hatom]
  · exact .inl ⟨⟨_, rfl⟩, nofun⟩
  · exact .inr ⟨rfl, nofun⟩

end Datum

/-! ## Reading an atom -/

/-- **A text that is one atom is read as this atom**, as a whole. -/
theorem readDatum_atom (hne : t ≠ []) (hunits : ∀ u ∈ t, isDelimiter u = false) :
    readDatum t = .ok (Datum.ofAtom t, t.length) := by
  obtain ⟨behind, hbehind⟩ :=
    beginsWith_of_lexes (lexes_atom hne hunits Text.isBounded_nil Location.start)
  obtain ⟨lexeme, rest, hscan, hlexeme, -⟩ := List.map_eq_cons_iff.mp hbehind.symm
  rw [readDatum_eq, hscan, Reader.resume_atom hlexeme rfl]
  show Except.ok (Datum.ofAtom t, (Location.start.after t).offset) = _
  rw [Location.offset_start_after]

/-! ## Units put into a text -/

/-- A unit between two texts where no number literal has it. -/
inductive IsMisplaced (before : Text) : CodeUnit → Text → Prop
  /-- A line end, a digit outside ASCII, a letter other than a mark. -/
  | foreign {u : CodeUnit} {after : Text} : ¬ IsLiteralUnit u → IsMisplaced before u after
  | secondPoint {after : Text} : unit '.' ∈ before ++ after → IsMisplaced before (unit '.') after
  /-- A sign inside the text that does not follow a mark. -/
  | innerSign {u : CodeUnit} {after : Text} : IsSign u → before ≠ [] →
      ¬ Literal.EndsInMark before → IsMisplaced before u after

theorem Literal.IsWrittenAs.not_isMisplaced {l : Literal}
    (h : l.IsWrittenAs (before ++ u :: after)) : ¬ IsMisplaced before u after := by
  intro hmisplaced
  cases hmisplaced with
  | foreign hforeign => exact hforeign (h.units u (List.mem_append_right before List.mem_cons_self))
  | secondPoint hpoint =>
    have hcount := h.count_point_le
    have hpos := List.count_pos_iff.mpr hpoint
    rw [List.count_append] at hcount hpos
    rw [List.count_cons_self] at hcount
    omega
  | innerSign hsign hne hmark =>
    exact hmark ((h.sign_place hsign).resolve_left hne).1

/-- **A unit where no literal has it makes a symbol.** -/
theorem Datum.ofAtom_of_isMisplaced (h : IsMisplaced before u after) :
    ofAtom (before ++ u :: after) = .symbol (before ++ u :: after) :=
  ofAtom_eq_symbol_iff.mpr fun ⟨_, hl⟩ => hl.not_isMisplaced h

/-! ## The judgement -/

/-- **Atoms are judged by the grammar of number literals alone.** A text is a number literal exactly
when it is an optional sign, a decimal and an optional exponent with nothing left over, and then in
one way only, whose parts are those that the parser finds. As an atom every text is either a number,
the value of the literal that it writes, or the symbol of this name, and it is read as such when
it has no delimiters. A unit put in where no literal has it makes a symbol. -/
theorem atoms_judged_by_grammar (t : Text) :
    (isNumberLiteral t = true ↔ ∃ l : Literal, l.IsWrittenAs t) ∧
    (∀ l, Literal.parse? t = some l ↔ l.IsWrittenAs t) ∧
    Xor (∃ n, Datum.ofAtom t = .number n) (Datum.ofAtom t = .symbol t) ∧
    (∀ n, Datum.ofAtom t = .number n ↔ ∃ l : Literal, l.IsWrittenAs t ∧ l.value = n) ∧
    (Datum.ofAtom t = .symbol t ↔ ¬ ∃ l : Literal, l.IsWrittenAs t) ∧
    (t ≠ [] → (∀ u ∈ t, isDelimiter u = false) →
      readDatum t = .ok (Datum.ofAtom t, t.length)) ∧
    ∀ before u after, t = before ++ u :: after → IsMisplaced before u after →
      isNumberLiteral t = false ∧ Datum.ofAtom t = .symbol t := by
  refine ⟨Literal.isNumberLiteral_iff, fun _ => Literal.parse?_eq_some_iff,
    Datum.ofAtom_number_xor_symbol t, fun _ => Datum.ofAtom_eq_number_iff,
    Datum.ofAtom_eq_symbol_iff, readDatum_atom, ?_⟩
  rintro before u after rfl hmisplaced
  refine ⟨Bool.eq_false_iff.mpr fun hliteral => ?_, Datum.ofAtom_of_isMisplaced hmisplaced⟩
  obtain ⟨l, hl⟩ := Literal.isNumberLiteral_iff.mp hliteral
  exact hl.not_isMisplaced hmisplaced

/-- With a second point put into it, the number `1.23` is the symbol `1.2.3`. -/
theorem atoms_judged_by_grammar_second_point :
    IsMisplaced (text "1.2") (unit '.') (text "3") ∧ isNumberLiteral (text "1.2.3") = false ∧
      readDatum (text "1.2.3") = .ok (.symbol (text "1.2.3"), 5) := by
  have hmisplaced : IsMisplaced (text "1.2") (unit '.') (text "3") := .secondPoint (by decide)
  obtain ⟨-, -, -, -, -, hread, hsymbol⟩ := atoms_judged_by_grammar (text "1.2.3")
  obtain ⟨hliteral, hatom⟩ := hsymbol (text "1.2") (unit '.') (text "3") rfl hmisplaced
  have hresult := hread (List.cons_ne_nil _ _) (Number.not_delimiter_of_all rfl)
  rw [hatom] at hresult
  exact ⟨hmisplaced, hliteral, hresult⟩

/-- Digits on one side of a point are enough, and an exponent needs some behind its mark. -/
example : (["1.", ".5", "+1.e3", "-.5E+07"].all fun s => isNumberLiteral (text s)) = true ∧
    ([".", "+", ".e3", "1e", "1e+", "1.2.3", "1-", "12\n"].any fun s => isNumberLiteral (text s)) =
      false := by
  decide +kernel

end ConsoleLisp
