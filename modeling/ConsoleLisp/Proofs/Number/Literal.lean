import ConsoleLisp.Proofs.Number.Nearest
import ConsoleLisp.Proofs.Number.Numeral

/-!
# Number literals

By its grammar a number literal has no delimiter in it, so the scan takes it as one atom. Its value
is finite or not as the decimal that it writes is below half a step above the largest number or not.

Results:
* **`literal_atom`**: a number literal is one atom.
* **`isFinite_value_iff`**: which literals have a finite value.
* `toText_value_of_not_finite`: the text of the value of the others.
-/

namespace ConsoleLisp

/-! ## The units of a literal -/

theorem IsLiteralUnit.not_delimiter {u : CodeUnit} (h : IsLiteralUnit u) :
    isDelimiter u = false := by
  rcases h with hdigit | rfl | hsign | hmark
  · exact IsNumeralUnit.not_delimiter (.inl hdigit)
  · decide
  · rcases hsign with rfl | rfl <;> decide
  · rcases hmark with rfl | rfl <;> decide

namespace Literal

variable {t : Text} {l : Literal}

/-- **A number literal is one atom**: it has units, none of them a delimiter. -/
theorem literal_atom (h : isNumberLiteral t = true) :
    t ≠ [] ∧ ∀ u ∈ t, isDelimiter u = false := by
  constructor
  · rintro rfl
    cases h
  · intro u hu
    obtain ⟨l, hl⟩ := isNumberLiteral_iff.mp h
    exact (hl.units u hu).not_delimiter

/-! ## The value of a literal -/

/-- The digits that a literal writes, without its point. -/
def digits (l : Literal) : Nat := Text.digitsValue (l.whole ++ l.fraction)

/-- The place of the last of these digits. -/
def place (l : Literal) : Int := l.exponent - l.fraction.length

/-- The decimal that the literal writes is below half a step above the largest number. -/
def IsWithinRange (l : Literal) : Prop :=
  l.digits * Nat.pow 10 l.place.toNat < Number.firstBeyond * Nat.pow 10 (-l.place).toNat

theorem value_eq (l : Literal) : l.value = Number.ofDecimal l.negative l.digits l.place := rfl

/-- **The literals with a finite value** are those within the range. -/
theorem isFinite_value_iff : Number.isFinite l.value = true ↔ l.IsWithinRange := by
  rw [value_eq, Number.isFinite, decide_eq_true_eq, Number.magnitude_ofDecimal,
    Number.nearest_lt_infinityBits_iff (Number.pow_ten_pos _)]
  exact Iff.rfl

/-- The text of an infinite number. -/
theorem toText_infinite (negative : Bool) :
    Number.toText (Number.ofMagnitude negative Number.infinityBits) =
      minusSign negative ++ text "Infinity" := by
  cases negative <;> decide +kernel

/-- The text of a value that is not finite has the sign of the literal. -/
theorem toText_value_of_not_finite (h : ¬ Number.isFinite l.value = true) :
    Number.toText l.value = minusSign l.negative ++ text "Infinity" := by
  have hbits : Number.nearest (l.digits * Nat.pow 10 l.place.toNat)
      (Nat.pow 10 (-l.place).toNat) = Number.infinityBits := by
    rw [value_eq, Number.isFinite, decide_eq_true_eq, Number.magnitude_ofDecimal, not_lt] at h
    exact Nat.le_antisymm (Number.nearest_le ..) h
  rw [value_eq, Number.ofDecimal_eq, hbits, toText_infinite]

end Literal

end ConsoleLisp
