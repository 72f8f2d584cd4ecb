import ConsoleLisp.Proofs.Number.Rounding

/-!
# Numbers that count

A count or a place is asked for as a number. `IsCount n k` says which natural number it is; the zero
with a sign is one as well. A bound on a count may be any number, and `AtMost n k` says that it is
not above a natural number.

Results:
* `IsCount.wholePart_eq`: the natural number is the integer part.
* **`exists_isCount_iff`**: the numbers that count are the integers that are not below zero.
* `ceil?_any_iff`, **`ceil?_eq_some_iff`**: a bound rounded up is the least natural number that it
  is not above.
-/

namespace ConsoleLisp

namespace Number

/-- The number is this natural number; a zero may have either sign. -/
structure IsCount (n : Number) (k : Nat) : Prop where
  finite : isFinite n = true
  scaled_eq : scaled n = k * unitsPerOne
  sign : isNegative n = true → k = 0

variable {n : Number} {k : Nat}

theorem isInteger_eq (n : Number) :
    isInteger n = (isFinite n && scaled n % unitsPerOne == 0) := by
  delta unitsPerOne
  rfl

theorem wholePart_eq (n : Number) : wholePart n = scaled n / unitsPerOne := by
  delta unitsPerOne
  rfl

namespace IsCount

theorem wholePart_eq (h : IsCount n k) : wholePart n = k := by
  rw [Number.wholePart_eq, h.scaled_eq, Nat.mul_div_cancel k unitsPerOne_pos]

theorem isInteger (h : IsCount n k) : isInteger n = true := by
  rw [isInteger_eq, h.finite, h.scaled_eq, Nat.mul_mod_left]
  rfl

/-- A number with the sign bit is a zero. -/
theorem scaled_eq_zero (h : IsCount n k) (hsign : isNegative n = true) : scaled n = 0 := by
  rw [h.scaled_eq, h.sign hsign, Nat.zero_mul]

/-- The whole numbers from zero on up to a number that counts. -/
theorem floor?_eq (h : IsCount n k) : floor? n = some k := by
  unfold floor?
  rw [isNaN_of_isFinite h.finite, if_neg Bool.false_ne_true, h.finite, h.wholePart_eq]
  cases hsign : isNegative n with
  | true => rw [if_pos rfl, h.sign hsign]
  | false => rfl

end IsCount

/-- **The numbers that count are the integers that are not below zero.** -/
theorem exists_isCount_iff :
    (∃ k, IsCount n k) ↔ isInteger n = true ∧ (isNegative n = false ∨ scaled n = 0) := by
  constructor
  · rintro ⟨k, h⟩
    refine ⟨h.isInteger, ?_⟩
    cases hsign : isNegative n with
    | true => exact .inr (h.scaled_eq_zero hsign)
    | false => exact .inl rfl
  · rintro ⟨hinteger, hsign⟩
    rw [isInteger_eq, Bool.and_eq_true, beq_iff_eq] at hinteger
    obtain ⟨hfinite, hmod⟩ := hinteger
    refine ⟨scaled n / unitsPerOne, hfinite,
      (Nat.div_mul_cancel (Nat.dvd_of_mod_eq_zero hmod)).symm, ?_⟩
    intro hnegative
    rcases hsign with hsign | hzero
    · cases hsign.symm.trans hnegative
    · rw [hzero, Nat.zero_div]

/-- The positive whole numbers are those that count at least one. -/
theorem isPositiveInteger_iff : isPositiveInteger n = true ↔ ∃ k, 0 < k ∧ IsCount n k := by
  rw [isPositiveInteger, Bool.and_eq_true, Bool.and_eq_true, Bool.not_eq_true', decide_eq_true_eq]
  constructor
  · rintro ⟨⟨hinteger, hsign⟩, hscaled⟩
    obtain ⟨k, hk⟩ := exists_isCount_iff.mpr ⟨hinteger, .inl hsign⟩
    rw [hk.scaled_eq] at hscaled
    exact ⟨k, Nat.pos_of_mul_pos_right hscaled, hk⟩
  · rintro ⟨k, hpos, hk⟩
    refine ⟨⟨hk.isInteger, ?_⟩, ?_⟩
    · rw [← Bool.not_eq_true]
      exact fun hsign => hpos.ne' (hk.sign hsign)
    · rw [hk.scaled_eq]
      exact Nat.mul_pos hpos unitsPerOne_pos

/-! ## Bounds on a count -/

/-- `n ≤ k` in the order of the numbers; what is not a number is in no order. -/
def AtMost (n : Number) (k : Nat) : Prop :=
  isNaN n = false ∧ (isNegative n = true ∨ isFinite n = true ∧ scaled n ≤ k * unitsPerOne)

instance : Decidable (AtMost n k) := inferInstanceAs (Decidable (_ ∧ (_ ∨ _ ∧ _ ≤ _)))

theorem AtMost.mono {k' : Nat} (h : AtMost n k) (hle : k ≤ k') : AtMost n k' := by
  obtain ⟨hnan, hneg | ⟨hfinite, hscaled⟩⟩ := h
  · exact ⟨hnan, .inl hneg⟩
  · exact ⟨hnan, .inr ⟨hfinite, Nat.le_trans hscaled (Nat.mul_le_mul_right _ hle)⟩⟩

/-- A number that counts is in the order of the natural numbers. -/
theorem IsCount.atMost_iff (h : IsCount n k) {m : Nat} : AtMost n m ↔ k ≤ m := by
  unfold AtMost
  rw [isNaN_of_isFinite h.finite, h.finite, h.scaled_eq]
  constructor
  · rintro ⟨-, hsign | ⟨-, hle⟩⟩
    · rw [h.sign hsign]
      exact Nat.zero_le m
    · exact Nat.le_of_mul_le_mul_right hle unitsPerOne_pos
  · exact fun hle => ⟨rfl, .inr ⟨rfl, Nat.mul_le_mul_right _ hle⟩⟩

theorem isAtLeastOne_eq (n : Number) : isAtLeastOne n =
    (!isNaN n && !isNegative n && decide (unitsPerOne ≤ scaled n)) := by
  unfold isAtLeastOne
  delta unitsPerOne
  rfl

/-- A number of at least 1 is at most a natural number only when that is not 0. -/
theorem AtMost.pos (h : AtMost n k) (hone : isAtLeastOne n = true) : 0 < k := by
  rw [isAtLeastOne_eq, Bool.and_eq_true, Bool.and_eq_true, Bool.not_eq_true', Bool.not_eq_true',
    decide_eq_true_eq] at hone
  obtain ⟨⟨-, hpositive⟩, hscaled⟩ := hone
  obtain ⟨-, hnegative | ⟨-, hle⟩⟩ := h
  · cases hpositive.symm.trans hnegative
  · refine Nat.pos_of_ne_zero ?_
    rintro rfl
    rw [Nat.zero_mul] at hle
    exact Nat.lt_irrefl 0 (Nat.lt_of_lt_of_le unitsPerOne_pos (Nat.le_trans hscaled hle))

theorem IsCount.isAtLeastOne (h : IsCount n k) (hpos : 0 < k) : isAtLeastOne n = true := by
  have hsign : isNegative n = false := by
    rw [← Bool.not_eq_true]
    exact fun hsign => hpos.ne' (h.sign hsign)
  have hscaled : unitsPerOne ≤ scaled n := by
    rw [h.scaled_eq]
    exact Nat.le_mul_of_pos_left unitsPerOne hpos
  rw [isAtLeastOne_eq, isNaN_of_isFinite h.finite, hsign, decide_eq_true hscaled]
  rfl

theorem ceil?_eq (n : Number) :
    ceil? n = if isNaN n then none else if isNegative n then some 0
      else if !isFinite n then none else some ((scaled n + (unitsPerOne - 1)) / unitsPerOne) := by
  unfold ceil?
  delta unitsPerOne
  rfl

/-- A quotient rounded up, for a number given by its parts. -/
theorem roundUp_any_iff (nan negative finite : Bool) (value : Nat) {units : Nat}
    (hpos : 0 < units) (k : Nat) :
    (if nan then none else if negative then some 0
      else if !finite then none else some ((value + (units - 1)) / units)).any (· ≤ k) = true ↔
      nan = false ∧ (negative = true ∨ finite = true ∧ value ≤ k * units) := by
  have hround : (value + (units - 1)) / units ≤ k ↔ value ≤ k * units := by
    rw [Nat.div_le_iff_le_mul_add_pred hpos, Nat.mul_comm]
    omega
  cases nan with
  | true => simp
  | false =>
    cases negative with
    | true => simp
    | false =>
      cases finite with
      | true => simpa using hround
      | false => simp

/-- **The natural numbers from a bound on are those from the bound rounded up on.** -/
theorem ceil?_any_iff : (ceil? n).any (· ≤ k) = true ↔ AtMost n k := by
  rw [ceil?_eq]
  exact roundUp_any_iff _ _ _ _ unitsPerOne_pos k

/-- **A bound rounded up is the least natural number that it is not above.** -/
theorem ceil?_eq_some_iff {limit : Nat} :
    ceil? n = some limit ↔ AtMost n limit ∧ ∀ k, AtMost n k → limit ≤ k := by
  constructor
  · intro h
    have hany : ∀ k, AtMost n k ↔ limit ≤ k := by
      intro k
      rw [← ceil?_any_iff, h]
      simp
    exact ⟨(hany limit).mpr (Nat.le_refl _), fun k => (hany k).mp⟩
  · rintro ⟨hlimit, hleast⟩
    have hany := ceil?_any_iff.mpr hlimit
    cases hceil : ceil? n with
    | none =>
      rw [hceil] at hany
      cases hany
    | some least =>
      rw [hceil] at hany
      have hle : least ≤ limit := by simpa using hany
      have hge := hleast least (ceil?_any_iff.mp (by rw [hceil]; simp))
      rw [Nat.le_antisymm hle hge]

theorem IsCount.ceil?_eq (h : IsCount n k) : ceil? n = some k :=
  ceil?_eq_some_iff.mpr ⟨h.atMost_iff.mpr (Nat.le_refl k), fun _ => h.atMost_iff.mp⟩

/-- What has no natural number above it is no bound. -/
theorem ceil?_eq_none_iff : ceil? n = none ↔ ∀ k, ¬ AtMost n k := by
  constructor
  · intro h k hk
    have hany := ceil?_any_iff.mpr hk
    rw [h] at hany
    cases hany
  · intro h
    cases hceil : ceil? n with
    | none => rfl
    | some limit => exact absurd (ceil?_eq_some_iff.mp hceil).1 (h limit)

end Number

end ConsoleLisp
