import ConsoleLisp.Proofs.Number.Encoding

/-!
# Rounding

`Number.nearest` depends on the quotient alone, and `Number.ofDecimal` settles large and small
exponents as the rounding would: the number read from a decimal depends on its value alone.

Results:
* `nearest_congr`: equal quotients have the same nearest number.
* **`nearest_scaledOfBits`**: a finite number is the nearest to itself.
* `encode_of_small`, `encode_of_large`: what is too small for every number, or too large.
* **`ofDecimal_eq`**: the number read from a decimal is the nearest to it.
* `ofDecimal_shift`: a zero at the end of the digits is a step of the exponent.
-/

namespace ConsoleLisp

namespace Number

/-- One, in units of `2 ^ -1074`. -/
def unitsPerOne : Nat := Nat.pow 2 1074

theorem unitsPerOne_pos : 0 < unitsPerOne := by decide +kernel

theorem pow_two_pos (k : Nat) : 0 < Nat.pow 2 k := Nat.pow_pos (by decide)

theorem pow_two_add (j k : Nat) : Nat.pow 2 (j + k) = Nat.pow 2 j * Nat.pow 2 k := Nat.pow_add ..

theorem pow_ten_pos (k : Nat) : 0 < Nat.pow 10 k := Nat.pow_pos (by decide)

theorem pow_ten_add (j k : Nat) : Nat.pow 10 (j + k) = Nat.pow 10 j * Nat.pow 10 k := Nat.pow_add ..

theorem pow_ten_le {j k : Nat} (h : j ≤ k) : Nat.pow 10 j ≤ Nat.pow 10 k :=
  Nat.pow_le_pow_right (by decide) h

/-! ## Quotients -/

theorem roundQuotient_scale {k : Nat} (hk : 0 < k) (num den : Nat) :
    roundQuotient (k * num) (k * den) = roundQuotient num den := by
  have hless : 2 * (k * (num % den)) < k * den ↔ 2 * (num % den) < den := by
    rw [Nat.mul_left_comm]
    exact Nat.mul_lt_mul_left hk
  have hmore : k * den < 2 * (k * (num % den)) ↔ den < 2 * (num % den) := by
    rw [Nat.mul_left_comm]
    exact Nat.mul_lt_mul_left hk
  simp only [roundQuotient, Nat.mul_div_mul_left _ _ hk, Nat.mul_mod_mul_left, hless, hmore]

theorem roundQuotient_one (n : Nat) : roundQuotient n 1 = n := by
  simp [roundQuotient, Nat.mod_one]

theorem div_le_roundQuotient (num den : Nat) : num / den ≤ roundQuotient num den := by
  unfold roundQuotient
  dsimp only
  split
  · exact Nat.le_refl _
  · split <;> omega

/-- A multiple is not rounded. -/
theorem roundQuotient_mul {den : Nat} (hden : 0 < den) (n : Nat) :
    roundQuotient (n * den) den = n := by
  have h := roundQuotient_scale hden n 1
  rwa [Nat.mul_one, roundQuotient_one, Nat.mul_comm] at h

/-- The encoding of a quotient given in units of `2 ^ -1074`. -/
def encode (units den : Nat) : Nat :=
  let binade := (units / den).log2 - 52
  min (binade * Nat.pow 2 52 + roundQuotient units (den * Nat.pow 2 binade)) infinityBits

theorem nearest_eq_encode (num den : Nat) :
    nearest num den = encode (num * unitsPerOne) den := by
  delta unitsPerOne
  rfl

theorem encode_scale {k : Nat} (hk : 0 < k) (units den : Nat) :
    encode (k * units) (k * den) = encode units den := by
  simp only [encode, Nat.mul_assoc, Nat.mul_div_mul_left _ _ hk, roundQuotient_scale hk]

/-- **Equal quotients have the same nearest number.** -/
theorem nearest_congr {a b c d : Nat} (hb : 0 < b) (hd : 0 < d) (h : a * d = c * b) :
    nearest a b = nearest c d := by
  rw [nearest_eq_encode, nearest_eq_encode, ← encode_scale hd (a * _), ← encode_scale hb (c * _),
    ← Nat.mul_assoc, ← Nat.mul_assoc, Nat.mul_comm d a, Nat.mul_comm b c, h, Nat.mul_comm d b]

theorem nearest_le (num den : Nat) : nearest num den ≤ infinityBits := Nat.min_le_right _ _

/-! ## Exact numbers -/

theorem scaledOfBits_of_lt {bits : Nat} (h : bits < Nat.pow 2 52) : scaledOfBits bits = bits :=
  if_pos h

/-- A number with all bits of its significand, in its binade. -/
theorem scaledOfBits_add {binade significand : Nat} (h : significand < Nat.pow 2 52) :
    scaledOfBits ((binade + 1) * Nat.pow 2 52 + significand) =
      (Nat.pow 2 52 + significand) * Nat.pow 2 binade := by
  have hpow := pow_two_pos 52
  have hge : ¬ (binade + 1) * Nat.pow 2 52 + significand < Nat.pow 2 52 := by
    rw [Nat.add_mul, Nat.one_mul]
    omega
  rw [scaledOfBits, if_neg hge, Nat.mul_comm (binade + 1), Nat.mul_add_mod, Nat.mod_eq_of_lt h,
    Nat.mul_add_div hpow, Nat.div_eq_of_lt h]
  rfl

theorem log2_significand {binade significand : Nat} (h : significand < Nat.pow 2 52) :
    ((Nat.pow 2 52 + significand) * Nat.pow 2 binade).log2 = binade + 52 := by
  have hpos := pow_two_pos binade
  have hlower : 2 ^ (binade + 52) ≤ (2 ^ 52 + significand) * 2 ^ binade := by
    rw [Nat.pow_add, Nat.mul_comm]
    exact Nat.mul_le_mul_right _ (Nat.le_add_right _ _)
  have hupper : (2 ^ 52 + significand) * 2 ^ binade < 2 ^ (binade + 52 + 1) := by
    rw [Nat.add_assoc, Nat.pow_add, Nat.mul_comm]
    exact Nat.mul_lt_mul_of_pos_left (Nat.add_lt_add_left h _) hpos
  exact (Nat.log2_eq_iff (Nat.ne_of_gt (Nat.lt_of_lt_of_le (Nat.pow_pos (by decide)) hlower))).mpr
    ⟨hlower, hupper⟩

/-- The encoding of a number of units is the number it encodes. -/
theorem encode_scaledOfBits {bits : Nat} (h : bits < infinityBits) :
    encode (scaledOfBits bits) 1 = bits := by
  rw [encode, Nat.div_one, Nat.one_mul]
  by_cases hsmall : bits < Nat.pow 2 52
  · have hlog : bits.log2 - 52 = 0 := by
      rcases Nat.eq_zero_or_pos bits with rfl | hpos
      · rfl
      · have := (Nat.log2_lt (Nat.ne_of_gt hpos)).mpr hsmall
        omega
    rw [scaledOfBits_of_lt hsmall, hlog]
    show min (0 * Nat.pow 2 52 + roundQuotient bits 1) _ = _
    rw [roundQuotient_one]
    omega
  · -- a normal number: the leading bit of its significand is not encoded
    have hpow := pow_two_pos 52
    obtain ⟨binade, significand, hs, rfl⟩ : ∃ binade significand, significand < Nat.pow 2 52 ∧
        bits = (binade + 1) * Nat.pow 2 52 + significand := by
      refine ⟨bits / Nat.pow 2 52 - 1, bits % Nat.pow 2 52, Nat.mod_lt _ hpow, ?_⟩
      have := (Nat.one_le_div_iff hpow).mpr (Nat.not_lt.mp hsmall)
      rw [Nat.sub_add_cancel this, Nat.mul_comm]
      exact (Nat.div_add_mod ..).symm
    rw [scaledOfBits_add hs, log2_significand hs, Nat.add_sub_cancel,
      roundQuotient_mul (pow_two_pos binade)]
    rw [Nat.add_mul, Nat.one_mul] at h ⊢
    omega

/-- **A finite number is the nearest to itself.** -/
theorem nearest_scaledOfBits {bits : Nat} (h : bits < infinityBits) :
    nearest (scaledOfBits bits) unitsPerOne = bits := by
  have hscale := encode_scale unitsPerOne_pos (scaledOfBits bits) 1
  rw [nearest_eq_encode, Nat.mul_comm]
  rwa [encode_scaledOfBits h, Nat.mul_one] at hscale

/-! ## Beyond all numbers -/

/-- Less than half a unit is nearest to zero. -/
theorem encode_of_small {units den : Nat} (h : 2 * units < den) : encode units den = 0 := by
  have hlt : units < den := by omega
  rw [encode, Nat.div_eq_of_lt hlt]
  show min (0 * _ + roundQuotient units (den * 1)) _ = 0
  rw [Nat.mul_one, roundQuotient, Nat.mod_eq_of_lt hlt, Nat.div_eq_of_lt hlt, if_pos h]
  rfl

/-- What is too large for the last binade is nearest to infinity. -/
theorem encode_of_large {units k : Nat} (hk : 2098 ≤ k) (h : Nat.pow 2 k ≤ units) :
    encode units 1 = infinityBits := by
  have hne : units ≠ 0 := Nat.ne_of_gt (Nat.lt_of_lt_of_le (pow_two_pos k) h)
  have hlog : 2098 ≤ units.log2 := Nat.le_trans hk ((Nat.le_log2 hne).mpr h)
  obtain ⟨binade, hbinade⟩ := Nat.exists_eq_add_of_le (show 52 ≤ units.log2 by omega)
  have hsignificand : Nat.pow 2 52 ≤ roundQuotient units (Nat.pow 2 binade) := by
    refine Nat.le_trans ?_ (div_le_roundQuotient ..)
    rw [Nat.le_div_iff_mul_le (pow_two_pos _), ← pow_two_add, ← hbinade]
    exact (Nat.le_log2 hne).mp (Nat.le_refl _)
  have hlast : 2046 * Nat.pow 2 52 ≤ binade * Nat.pow 2 52 :=
    Nat.mul_le_mul_right _ (by omega)
  rw [encode, Nat.div_one, Nat.one_mul, hbinade, Nat.add_sub_cancel_left]
  refine Nat.min_eq_right ?_
  rw [infinityBits]
  omega

/-! ## Numbers read from decimals -/

theorem nearest_of_long_exponent {digits : Nat} (hd : 0 < digits) {e : Nat} (he : 310 ≤ e) :
    nearest (digits * Nat.pow 10 e) 1 = infinityBits := by
  -- the bounds are named, so that no later step evaluates the two powers
  obtain ⟨k, e₀, hk, he₀, hpow⟩ : ∃ k e₀, 2098 ≤ k ∧ e₀ ≤ 310 ∧
      Nat.pow 2 k ≤ Nat.pow 10 e₀ * unitsPerOne :=
    ⟨2098, 310, Nat.le_refl _, Nat.le_refl _, by decide +kernel⟩
  have hdigits : Nat.pow 10 e₀ ≤ digits * Nat.pow 10 e :=
    Nat.le_trans (pow_ten_le (Nat.le_trans he₀ he)) (Nat.le_mul_of_pos_left _ hd)
  rw [nearest_eq_encode]
  exact encode_of_large hk (Nat.le_trans hpow (Nat.mul_le_mul_right _ hdigits))

theorem nearest_of_short_exponent {digits e : Nat} (he : digits.log2 + 400 ≤ e) :
    nearest digits (Nat.pow 10 e) = 0 := by
  obtain ⟨k, hk, hone⟩ : ∃ k, k ≤ 400 ∧ 4 * unitsPerOne ≤ Nat.pow 10 k :=
    ⟨400, Nat.le_refl _, by decide +kernel⟩
  have hdigits : digits < Nat.pow 2 digits.log2 * 2 := Nat.lt_log2_self
  have hlog : Nat.pow 2 digits.log2 ≤ Nat.pow 10 digits.log2 := Nat.pow_le_pow_left (by decide) _
  rw [nearest_eq_encode]
  refine encode_of_small ?_
  calc 2 * (digits * unitsPerOne)
      < 2 * (Nat.pow 2 digits.log2 * 2 * unitsPerOne) :=
        Nat.mul_lt_mul_of_pos_left (Nat.mul_lt_mul_of_pos_right hdigits unitsPerOne_pos) (by decide)
    _ = Nat.pow 2 digits.log2 * (4 * unitsPerOne) := by
        generalize Nat.pow 2 digits.log2 = a
        generalize unitsPerOne = b
        ring
    _ ≤ Nat.pow 10 digits.log2 * Nat.pow 10 k := Nat.mul_le_mul hlog hone
    _ = Nat.pow 10 (digits.log2 + k) := (pow_ten_add ..).symm
    _ ≤ Nat.pow 10 e := pow_ten_le (Nat.le_trans (Nat.add_le_add_left hk _) he)

/-- **The number read from a decimal is the nearest to it**, whatever its exponent. -/
theorem ofDecimal_eq (negative : Bool) (digits : Nat) (e : Int) :
    ofDecimal negative digits e =
      ofMagnitude negative (nearest (digits * Nat.pow 10 e.toNat) (Nat.pow 10 (-e).toNat)) := by
  rw [ofDecimal]
  congr 1
  split
  · subst digits
    rw [Nat.zero_mul, nearest_eq_encode, Nat.zero_mul]
    exact (encode_of_small (pow_ten_pos _)).symm
  · have hpos : 0 < digits := Nat.pos_of_ne_zero ‹_›
    split
    · have hneg : (-e).toNat = 0 := by omega
      rw [hneg]
      exact (nearest_of_long_exponent hpos (by omega)).symm
    · split
      · have hnat : e.toNat = 0 := by omega
        rw [hnat]
        show 0 = nearest (digits * 1) _
        rw [Nat.mul_one, nearest_of_short_exponent (by omega)]
      · rfl

/-- The magnitude of a number read from a decimal. -/
theorem magnitude_ofDecimal (negative : Bool) (digits : Nat) (e : Int) :
    magnitude (ofDecimal negative digits e) =
      nearest (digits * Nat.pow 10 e.toNat) (Nat.pow 10 (-e).toNat) := by
  rw [ofDecimal_eq, magnitude_ofMagnitude negative (nearest_le ..)]

/-- Digits moved behind the point are a step of the exponent. -/
theorem ofDecimal_shift (negative : Bool) (digits k : Nat) (e : Int) :
    ofDecimal negative (digits * Nat.pow 10 k) e = ofDecimal negative digits (e + k) := by
  rw [ofDecimal_eq, ofDecimal_eq]
  refine congrArg _ (nearest_congr (pow_ten_pos _) (pow_ten_pos _) ?_)
  have hexponents : k + e.toNat + (-(e + k)).toNat = (e + k).toNat + (-e).toNat := by omega
  rw [Nat.mul_assoc, Nat.mul_assoc, Nat.mul_assoc, ← pow_ten_add, ← pow_ten_add, ← pow_ten_add,
    ← Nat.add_assoc, hexponents]

end Number

end ConsoleLisp
