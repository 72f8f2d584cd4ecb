import Mathlib
import ConsoleLisp.Number.Binary

/-!
# Encodings of numbers

A number is its sign and its magnitude: both are read off the encoding, and from both the number is
made again. Only the encodings beyond infinity are not kept as they are.

Results:
* **`magnitude_ofMagnitude`**: the magnitude of a number made from parts.
* **`ofMagnitude_magnitude`**: a number is made of its parts.
-/

namespace ConsoleLisp

namespace Number

open Float.Model Float.Model.UnpackedFloat

/-- The sign bit in its place. -/
def signBit (negative : Bool) : Nat := if negative then Nat.pow 2 63 else 0

theorem signBit_true : signBit true = 9223372036854775808 := rfl

theorem signBit_false : signBit false = 0 := rfl

theorem infinityBits_eq : infinityBits = 9218868437227405312 := rfl

theorem pow_two_63 : Nat.pow 2 63 = 9223372036854775808 := rfl

/-- What is not a number has all exponent bits and some bit of the significand. -/
theorem isNaNBits_eq_false (negative : Bool) {m : Nat} (hm : m ≤ infinityBits) :
    @isNaNBits .binary64 (signBit negative + m).toUInt64.toBitVec = false := by
  rw [isNaNBits, unpackExponent_def, unpackMantissa_def, decide_eq_false_iff_not]
  rintro ⟨hexponent, hsignificand⟩
  refine hsignificand (BitVec.eq_of_toNat_eq ?_)
  have h := congrArg BitVec.toNat hexponent
  have hbits : Format.binary64.numBits = 64 := rfl
  rw [infinityBits_eq] at hm
  simp [hbits, Nat.shiftRight_eq_div_pow] at h ⊢
  cases negative with
  | false =>
    rw [signBit_false] at h ⊢
    omega
  | true =>
    rw [signBit_true] at h ⊢
    omega

/-- The bits of a number made of a sign and a magnitude. -/
theorem toNat_toBits_ofMagnitude (negative : Bool) {m : Nat} (hm : m ≤ infinityBits) :
    (ofMagnitude negative m).toBits.toNat = signBit negative + m := by
  have hpack := @pack_unpack .binary64 (signBit negative + m).toUInt64.toBitVec (by decide)
  rw [isNaNBits_eq_false negative hm] at hpack
  have hbits : (ofMagnitude negative m).toBits = (signBit negative + m).toUInt64 :=
    UInt64.toBitVec_inj.mp hpack
  have hlt : signBit negative + m < 18446744073709551616 := by
    rw [infinityBits_eq] at hm
    cases negative with
    | false => rw [signBit_false]; omega
    | true => rw [signBit_true]; omega
  rw [hbits]
  exact Nat.mod_eq_of_lt hlt

/-- **The magnitude of a number made of a sign and a magnitude.** -/
theorem magnitude_ofMagnitude (negative : Bool) {m : Nat} (hm : m ≤ infinityBits) :
    magnitude (ofMagnitude negative m) = m := by
  rw [magnitude, toNat_toBits_ofMagnitude negative hm, pow_two_63]
  rw [infinityBits_eq] at hm
  cases negative with
  | false => rw [signBit_false]; omega
  | true => rw [signBit_true]; omega

/-- **A number is made of its sign and its magnitude.** -/
theorem ofMagnitude_magnitude (n : Number) : ofMagnitude (isNegative n) (magnitude n) = n := by
  have hlt := n.toBits.toNat_lt
  have hsum : signBit (isNegative n) + magnitude n = n.toBits.toNat := by
    rw [isNegative, magnitude, signBit, pow_two_63]
    by_cases h : 9223372036854775808 ≤ n.toBits.toNat
    · rw [decide_eq_true h, if_pos rfl]
      omega
    · rw [decide_eq_false h, if_neg Bool.false_ne_true]
      omega
  show Float.ofBits (UInt64.ofNat (signBit (isNegative n) + magnitude n)) = n
  rw [hsum, UInt64.ofNat_toNat, Float.ofBits_toBits]

theorem isNaN_of_isFinite {n : Number} (h : isFinite n = true) : isNaN n = false := by
  rw [isFinite, decide_eq_true_eq] at h
  exact decide_eq_false (Nat.not_lt.mpr (Nat.le_of_lt h))

end Number

end ConsoleLisp
