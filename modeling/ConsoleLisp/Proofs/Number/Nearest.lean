import ConsoleLisp.Proofs.Number.Rounding

/-!
# What is near a number, and what is beyond all

A quotient that differs from a number by less than `2 ^ -54` of it has that number as its nearest
one: half the step to the next number is no less, on the side of zero and at a power of two as well.
Past the last number there is half a step more, and whatever is not below that is nearest to
infinity.

Results:
* `roundQuotient_eq_of_near`: a quotient nearer than a half is rounded to its natural number.
* **`encode_of_near`**: what is near a number is nearest to it.
* **`nearest_lt_infinityBits_iff`**: what is nearest to a finite number.
-/

namespace ConsoleLisp

namespace Number

variable {num den units bits : Nat}

/-! ## Rounded quotients -/

/-- **A quotient nearer than a half** to a natural number is rounded to it. -/
theorem roundQuotient_eq_of_near {n : Nat} (habove : 2 * num < (2 * n + 1) * den)
    (hbelow : 2 * (n * den) < 2 * num + den) : roundQuotient num den = n := by
  have hden : 0 < den := Nat.pos_of_ne_zero (by rintro rfl; omega)
  have hexpand : (2 * n + 1) * den = 2 * (n * den) + den := by ring
  rcases Nat.lt_or_ge num (n * den) with hless | hge
  · -- the quotient is below, by less than a half
    obtain ⟨m, rfl⟩ : ∃ m, n = m + 1 := ⟨n - 1, by
      rcases Nat.eq_zero_or_pos n with rfl | hpos
      · rw [Nat.zero_mul] at hless
        cases hless
      · omega⟩
    rw [Nat.add_mul, Nat.one_mul] at hless hbelow
    have hdiv : num / den = m :=
      Nat.div_eq_of_lt_le (by omega) (by rw [Nat.succ_mul]; exact hless)
    have hmod : num % den = num - m * den := by rw [Nat.mod_eq_sub_mul_div, hdiv, Nat.mul_comm]
    rw [roundQuotient, hdiv, hmod, if_neg (by omega), if_pos (by omega)]
  · have hdiv : num / den = n :=
      Nat.div_eq_of_lt_le hge (by rw [Nat.succ_mul]; omega)
    have hmod : num % den = num - n * den := by rw [Nat.mod_eq_sub_mul_div, hdiv, Nat.mul_comm]
    rw [roundQuotient, hdiv, hmod, if_pos (by omega)]

/-- A quotient is rounded to at most the next natural number. -/
theorem roundQuotient_le_of_lt {n : Nat} (hden : 0 < den) (h : num < n * den) :
    roundQuotient num den ≤ n := by
  have hdiv : num / den < n := (Nat.div_lt_iff_lt_mul hden).mpr h
  unfold roundQuotient
  dsimp only
  split
  · omega
  · split <;> omega

/-- What is rounded to less than an even number is nearer to the number before it: the half between
them goes to the even one. -/
theorem roundQuotient_lt_even_iff (hden : 0 < den) (n : Nat) :
    roundQuotient num den < 2 * (n + 1) ↔ 2 * num < (4 * n + 3) * den := by
  have hsum := Nat.div_add_mod num den
  have hmod := Nat.mod_lt num hden
  have hexpand : (4 * n + 3) * den = 4 * (den * n) + 3 * den := by ring
  unfold roundQuotient
  dsimp only
  generalize num / den = q at hsum ⊢
  generalize num % den = r at hsum hmod ⊢
  rcases Nat.lt_trichotomy q (2 * n + 1) with hlow | rfl | hhigh
  · have hq : den * q ≤ den * (2 * n) := Nat.mul_le_mul_left _ (by omega)
    have htwo : den * (2 * n) = 2 * (den * n) := by ring
    refine iff_of_true ?_ (by omega)
    split
    · omega
    · split <;> omega
  · have hq : den * (2 * n + 1) = 2 * (den * n) + den := by ring
    split
    · exact iff_of_true (by omega) (by omega)
    · refine iff_of_false ?_ (by omega)
      split <;> omega
  · have hq : den * (2 * n + 2) ≤ den * q := Nat.mul_le_mul_left _ (by omega)
    have htwo : den * (2 * n + 2) = 2 * (den * n) + 2 * den := by ring
    refine iff_of_false ?_ (by omega)
    split
    · omega
    · split <;> omega

/-! ## Near a number -/

theorem pow_two_52 : Nat.pow 2 52 = 4503599627370496 := rfl

theorem pow_two_53 : Nat.pow 2 53 = 9007199254740992 := rfl

/-- The significand and the binade of a number; below the first binade the significand is short. -/
theorem exists_significand (bits : Nat) : ∃ binade significand,
    bits = binade * Nat.pow 2 52 + significand ∧
    scaledOfBits bits = significand * Nat.pow 2 binade ∧ significand < 2 * Nat.pow 2 52 ∧
    (binade = 0 ∨ Nat.pow 2 52 ≤ significand) := by
  rcases Nat.lt_or_ge bits (Nat.pow 2 52) with hsmall | hlarge
  · refine ⟨0, bits, by rw [Nat.zero_mul, Nat.zero_add], ?_, by omega, .inl rfl⟩
    rw [scaledOfBits_of_lt hsmall]
    exact (Nat.mul_one bits).symm
  · have hpow := pow_two_pos 52
    have hmod := Nat.mod_lt bits hpow
    obtain ⟨binade, hbinade⟩ : ∃ binade, bits / Nat.pow 2 52 = binade + 1 :=
      ⟨bits / Nat.pow 2 52 - 1, by have := (Nat.one_le_div_iff hpow).mpr hlarge; omega⟩
    have hbits : bits = (binade + 1) * Nat.pow 2 52 + bits % Nat.pow 2 52 := by
      rw [← hbinade, Nat.mul_comm]
      exact (Nat.div_add_mod ..).symm
    refine ⟨binade, Nat.pow 2 52 + bits % Nat.pow 2 52, ?_, ?_, by omega, .inr (by omega)⟩
    · rw [← Nat.add_assoc, ← Nat.succ_mul]
      exact hbits
    · conv_lhs => rw [hbits]
      exact scaledOfBits_add hmod

/-- The binade of a quotient is given by the powers of two around it. -/
theorem log2_div (hden : 0 < den) {k : Nat} (hlow : Nat.pow 2 k * den ≤ units)
    (hhigh : units < Nat.pow 2 (k + 1) * den) : (units / den).log2 = k := by
  have hle : 2 ^ k ≤ units / den := (Nat.le_div_iff_mul_le hden).mpr hlow
  have hlt : units / den < 2 ^ (k + 1) := (Nat.div_lt_iff_lt_mul hden).mpr hhigh
  exact (Nat.log2_eq_iff (Nat.ne_of_gt (Nat.lt_of_lt_of_le (Nat.pow_pos (by decide)) hle))).mpr
    ⟨hle, hlt⟩

/-- The rounding in a given binade. -/
theorem encode_of_log2 {binade : Nat} (h : (units / den).log2 - 52 = binade) :
    encode units den =
      min (binade * Nat.pow 2 52 + roundQuotient units (den * Nat.pow 2 binade)) infinityBits := by
  rw [encode, h]

/-- A power of two behind the point, in steps of a binade. -/
theorem pow_two_add_mul (j k den : Nat) :
    Nat.pow 2 (j + k) * den = Nat.pow 2 j * (den * Nat.pow 2 k) := by
  rw [pow_two_add, Nat.mul_assoc, Nat.mul_comm (Nat.pow 2 k)]

/-- What is near a significand in its binade has that significand, or comes from just below it when
it is the first of its binade. -/
theorem encode_of_near_significand {binade significand : Nat} (hden : 0 < den)
    (hshort : significand < 2 * Nat.pow 2 52) (hlong : binade = 0 ∨ Nat.pow 2 52 ≤ significand)
    (habove : units * Nat.pow 2 54 < significand * (den * Nat.pow 2 binade) * Nat.pow 2 54 +
      significand * (den * Nat.pow 2 binade))
    (hbelow : significand * (den * Nat.pow 2 binade) * Nat.pow 2 54 < units * Nat.pow 2 54 +
      significand * (den * Nat.pow 2 binade)) :
    encode units den = min (binade * Nat.pow 2 52 + significand) infinityBits := by
  have h54 : Nat.pow 2 54 = 18014398509481984 := rfl
  rw [pow_two_52] at hshort hlong
  rw [h54] at habove hbelow
  have hwhole : significand * (den * Nat.pow 2 binade) ≤
      9007199254740991 * (den * Nat.pow 2 binade) := Nat.mul_le_mul_right _ (by omega)
  have hexpand : (2 * significand + 1) * (den * Nat.pow 2 binade) =
      2 * (significand * (den * Nat.pow 2 binade)) + den * Nat.pow 2 binade := by ring
  have hhigh : units < Nat.pow 2 (53 + binade) * den := by
    rw [pow_two_add_mul, pow_two_53]
    omega
  have hround : roundQuotient units (den * Nat.pow 2 binade) = significand :=
    roundQuotient_eq_of_near (by omega) (by omega)
  rcases Nat.lt_or_ge units (Nat.pow 2 (52 + binade) * den) with hlow | hlow
  · cases binade with
    | zero =>
      -- below the first binade nothing is shorter
      have hlt : units / den < Nat.pow 2 52 := (Nat.div_lt_iff_lt_mul hden).mpr hlow
      have hlog : (units / den).log2 - 52 = 0 := by
        rcases Nat.eq_zero_or_pos (units / den) with hzero | hpos
        · rw [hzero]
          rfl
        · have := (Nat.log2_lt (Nat.ne_of_gt hpos)).mpr hlt
          omega
      rw [encode_of_log2 hlog, hround]
    | succ binade =>
      -- the quotient is just below a power of two, where the steps are half as wide
      have hdouble : den * Nat.pow 2 (binade + 1) = 2 * (den * Nat.pow 2 binade) := by
        show den * (Nat.pow 2 binade * 2) = _
        ring
      rw [pow_two_add_mul, pow_two_52] at hlow
      rw [hdouble] at habove hbelow hwhole hexpand hlow
      have hpos : 0 < den * Nat.pow 2 binade := Nat.mul_pos hden (pow_two_pos binade)
      have hfirst : significand = 4503599627370496 := by
        rcases hlong with hzero | hle
        · cases hzero
        · by_contra hne
          have hmore : 4503599627370497 * (2 * (den * Nat.pow 2 binade)) ≤
              significand * (2 * (den * Nat.pow 2 binade)) := Nat.mul_le_mul_right _ (by omega)
          omega
      rw [hfirst] at hbelow ⊢
      have hlog : (units / den).log2 - 52 = binade := by
        rw [log2_div (k := 52 + binade) hden]
        · omega
        · rw [pow_two_add_mul, pow_two_52]
          omega
        · rw [Nat.add_right_comm, pow_two_add_mul, pow_two_53]
          omega
      rw [encode_of_log2 hlog, roundQuotient_eq_of_near (n := 9007199254740992) (by omega)
        (by omega), pow_two_52]
      exact congrArg (min · infinityBits) (by omega)
  · have hlog : (units / den).log2 - 52 = binade := by
      rw [log2_div hden hlow (by rwa [Nat.add_right_comm])]
      omega
    rw [encode_of_log2 hlog, hround]

/-- **What is near a number is nearest to it.** The difference is less than `2 ^ -54` of the
number. -/
theorem encode_of_near (hbits : bits < infinityBits)
    (habove : units * Nat.pow 2 54 < scaledOfBits bits * den * Nat.pow 2 54 +
      scaledOfBits bits * den)
    (hbelow : scaledOfBits bits * den * Nat.pow 2 54 < units * Nat.pow 2 54 +
      scaledOfBits bits * den) :
    encode units den = bits := by
  have hden : 0 < den := Nat.pos_of_ne_zero (by rintro rfl; simp at habove)
  obtain ⟨binade, significand, hsum, hscaled, hshort, hlong⟩ := exists_significand bits
  have hexact : scaledOfBits bits * den = significand * (den * Nat.pow 2 binade) := by
    rw [hscaled, Nat.mul_assoc, Nat.mul_comm den]
  rw [hexact] at habove hbelow
  rw [encode_of_near_significand hden hshort hlong habove hbelow, ← hsum]
  exact Nat.min_eq_left (Nat.le_of_lt hbits)

/-! ## Beyond all numbers -/

/-- Half a step above the largest number. -/
def firstBeyond : Nat := (Nat.pow 2 54 - 1) * Nat.pow 2 970

/-- The binade of a quotient, with the power of two that it has. -/
theorem exists_binade (hden : 0 < den) {k : Nat} (h : Nat.pow 2 (52 + k) * den ≤ units) :
    ∃ binade, k ≤ binade ∧ (units / den).log2 - 52 = binade ∧
      Nat.pow 2 52 * (den * Nat.pow 2 binade) ≤ units := by
  have hle : 2 ^ (52 + k) ≤ units / den := (Nat.le_div_iff_mul_le hden).mpr h
  have hne : units / den ≠ 0 := Nat.ne_of_gt (Nat.lt_of_lt_of_le (Nat.pow_pos (by decide)) hle)
  have hlog : 52 + k ≤ (units / den).log2 := (Nat.le_log2 hne).mpr hle
  obtain ⟨binade, hbinade⟩ := Nat.exists_eq_add_of_le (show 52 ≤ (units / den).log2 by omega)
  refine ⟨binade, by omega, by rw [hbinade, Nat.add_sub_cancel_left], ?_⟩
  rw [← pow_two_add_mul, ← Nat.le_div_iff_mul_le hden, ← hbinade]
  exact (Nat.le_log2 hne).mp (Nat.le_refl _)

/-- What is below the last binade rounds to a finite number. -/
theorem encode_lt_infinityBits_of_lt (hden : 0 < den) {k : Nat} (hk : k = 2044)
    (h : units < Nat.pow 2 (53 + k) * den) : encode units den < infinityBits := by
  have hlog : (units / den).log2 < 53 + k := by
    rcases Nat.eq_zero_or_pos (units / den) with hzero | hpos
    · rw [hzero]
      exact Nat.lt_of_lt_of_le (by decide) (Nat.le_add_right 53 k)
    · exact (Nat.log2_lt (Nat.ne_of_gt hpos)).mpr ((Nat.div_lt_iff_lt_mul hden).mpr h)
  obtain ⟨binade, hbinade⟩ : ∃ binade, (units / den).log2 - 52 = binade := ⟨_, rfl⟩
  have hexponent : (units / den).log2 + 1 ≤ 53 + binade := by omega
  have hlast : binade ≤ 2044 := by omega
  have hquotient : units < Nat.pow 2 53 * (den * Nat.pow 2 binade) := by
    rw [← pow_two_add_mul]
    exact (Nat.div_lt_iff_lt_mul hden).mp
      (Nat.lt_of_lt_of_le Nat.lt_log2_self (Nat.pow_le_pow_right (by decide) hexponent))
  have hround := roundQuotient_le_of_lt (Nat.mul_pos hden (pow_two_pos binade)) hquotient
  rw [pow_two_53] at hround
  rw [encode_of_log2 hbinade, pow_two_52, infinityBits_eq]
  clear h hlog hexponent hquotient
  omega

/-- What is above the last binade rounds to infinity. -/
theorem infinityBits_le_encode (hden : 0 < den) {k : Nat} (hk : k = 2046)
    (h : Nat.pow 2 (52 + k) * den ≤ units) : infinityBits ≤ encode units den := by
  obtain ⟨binade, hle, hbinade, hunits⟩ := exists_binade hden h
  have hround : Nat.pow 2 52 ≤ roundQuotient units (den * Nat.pow 2 binade) :=
    Nat.le_trans ((Nat.le_div_iff_mul_le (Nat.mul_pos hden (pow_two_pos binade))).mpr hunits)
      (div_le_roundQuotient ..)
  rw [pow_two_52] at hround
  rw [encode_of_log2 hbinade, pow_two_52, infinityBits_eq]
  clear h hbinade hunits
  omega

/-- **What rounds to a finite number** is what is below half a step above the largest. -/
theorem encode_lt_infinityBits_iff (hden : 0 < den) {k : Nat} (hk : k = 2044) :
    encode units den < infinityBits ↔ units < 18014398509481983 * (den * Nat.pow 2 k) := by
  have hpos : 0 < den * Nat.pow 2 k := Nat.mul_pos hden (pow_two_pos k)
  have hexponent : 53 + k = 52 + (k + 1) := by omega
  have htwice : ∀ j, den * Nat.pow 2 (j + 1) = 2 * (den * Nat.pow 2 j) := by
    intro j
    show den * (Nat.pow 2 j * 2) = _
    ring
  rcases Nat.lt_or_ge units (Nat.pow 2 (53 + k) * den) with hlow | hlow
  · refine iff_of_true (encode_lt_infinityBits_of_lt hden hk hlow) ?_
    rw [pow_two_add_mul, pow_two_53] at hlow
    omega
  rcases Nat.lt_or_ge units (Nat.pow 2 (52 + (k + 2)) * den) with hhigh | hhigh
  · -- in the last binade half a step is `den * 2 ^ k`
    have hlog : (units / den).log2 - 52 = k + 1 := by
      rw [hexponent] at hlow
      rw [log2_div hden hlow hhigh, Nat.add_sub_cancel_left]
    have hround := @roundQuotient_lt_even_iff units _ (Nat.mul_pos hden (pow_two_pos (k + 1)))
      4503599627370495
    rw [encode_of_log2 hlog, pow_two_52, infinityBits_eq]
    rw [htwice] at hround ⊢
    clear hlow hhigh hlog htwice
    constructor
    · intro h
      have := hround.mp (by omega)
      omega
    · intro h
      have := hround.mpr (by omega)
      omega
  · refine iff_of_false (Nat.not_lt.mpr (infinityBits_le_encode hden (by rw [hk]) hhigh)) ?_
    rw [pow_two_add_mul, pow_two_52, htwice, htwice] at hhigh
    omega

/-- **What is nearest to a finite number**: the quotients below half a step above the largest. -/
theorem nearest_lt_infinityBits_iff (hden : 0 < den) :
    nearest num den < infinityBits ↔ num < firstBeyond * den := by
  -- the exponent is named, so that no step evaluates its power
  obtain ⟨k, hk, hunits⟩ : ∃ k, k = 2044 ∧
      firstBeyond * unitsPerOne = 18014398509481983 * Nat.pow 2 k :=
    ⟨2044, rfl, by decide +kernel⟩
  have hbound : 18014398509481983 * (den * Nat.pow 2 k) = firstBeyond * den * unitsPerOne := by
    rw [Nat.mul_right_comm, hunits, Nat.mul_assoc, Nat.mul_comm den]
  rw [nearest_eq_encode, encode_lt_infinityBits_iff hden hk, hbound]
  exact Nat.mul_lt_mul_right unitsPerOne_pos

end Number

end ConsoleLisp
