import ConsoleLisp.Proofs.Number.Nearest
import ConsoleLisp.Proofs.Number.Numeral

/-!
# The shortest decimal of a number

The search for the shortest decimal goes from the grid of the leading digit down to finer ones. On
the grid of the seventeenth digit the nearer neighbour always reads as the number, so the search
ends there at the latest.

Results:
* `leadingExponent_spec`: the leading exponent is that of the first digit.
* `neighbours_eq`: the nearer neighbour comes first, at most half a step away.
* **`seventeen_digits`**: the seventeenth digit is the last one needed.
* **`shortest_spec`**: the shortest decimal is from the first grid with one that reads back.
-/

namespace ConsoleLisp

namespace Number

variable {num den bits : Nat}

/-! ## The leading exponent -/

/-- `10 ^ e ≤ num / den`. -/
def AtLeastPow (num den : Nat) (e : Int) : Prop :=
  den * Nat.pow 10 e.toNat ≤ num * Nat.pow 10 (-e).toNat

/-- The power of ten on a grid `k` digits finer. -/
theorem atLeastPow_add_iff {e : Int} {k : Nat} : AtLeastPow num den (e + k) ↔
    Nat.pow 10 k * (den * Nat.pow 10 e.toNat) ≤ num * Nat.pow 10 (-e).toNat := by
  have hpos := pow_ten_pos (-e).toNat
  have hpos' := pow_ten_pos (-(e + k)).toNat
  have hsum : (e + k).toNat + (-e).toNat = k + e.toNat + (-(e + k)).toNat := by omega
  have hleft : den * Nat.pow 10 (e + k).toNat * Nat.pow 10 (-e).toNat =
      Nat.pow 10 k * (den * Nat.pow 10 e.toNat) * Nat.pow 10 (-(e + k)).toNat := by
    rw [Nat.mul_assoc, ← pow_ten_add, hsum, pow_ten_add, pow_ten_add]
    ring
  unfold AtLeastPow
  rw [← Nat.mul_le_mul_right_iff hpos, hleft, Nat.mul_right_comm num,
    Nat.mul_le_mul_right_iff hpos']

theorem length_toDigits_eq {n k : Nat} (hlow : Nat.pow 10 k ≤ n) (hhigh : n < Nat.pow 10 (k + 1)) :
    (Nat.toDigits 10 n).length = k + 1 := by
  refine Nat.le_antisymm ((Nat.length_toDigits_le_iff (by decide) k.succ_pos).mpr hhigh) ?_
  rcases Nat.eq_zero_or_pos k with rfl | hpos
  · exact Nat.length_toDigits_pos
  · by_contra hlt
    have hle := (Nat.length_toDigits_le_iff (by decide) hpos).mp (Nat.le_of_lt_succ (not_le.mp hlt))
    exact Nat.not_lt.mpr hlow hle

/-- A positive number has its first digit somewhere. -/
theorem exists_leading_digit {n : Nat} (hpos : 0 < n) : ∃ k, Nat.pow 10 k ≤ n ∧
    n < Nat.pow 10 (k + 1) ∧ (Nat.toDigits 10 n).length = k + 1 := by
  have hlow : Nat.pow 10 (Nat.log 10 n) ≤ n := Nat.pow_log_le_self 10 (Nat.ne_of_gt hpos)
  have hhigh : n < Nat.pow 10 (Nat.log 10 n + 1) := Nat.lt_pow_succ_log_self (by decide) n
  exact ⟨Nat.log 10 n, hlow, hhigh, length_toDigits_eq hlow hhigh⟩

/-- **The leading exponent is that of the first digit.** -/
theorem leadingExponent_spec (hnum : 0 < num) (hden : 0 < den) :
    AtLeastPow num den (leadingExponent num den) ∧
      ¬ AtLeastPow num den (leadingExponent num den + 1) := by
  unfold leadingExponent
  split
  · -- the first digit is before the point
    obtain ⟨k, hlow, hhigh, hlength⟩ := exists_leading_digit (Nat.div_pos ‹_› hden)
    have hexponent : ((Nat.toDigits 10 (num / den)).length : Int) - 1 = (0 : Int) + k := by
      rw [hlength]
      omega
    rw [Nat.le_div_iff_mul_le hden] at hlow
    rw [Nat.div_lt_iff_lt_mul hden] at hhigh
    rw [hexponent]
    constructor
    · rw [atLeastPow_add_iff]
      show _ * (den * 1) ≤ num * 1
      rwa [Nat.mul_one, Nat.mul_one]
    · have hnext : (0 : Int) + k + 1 = 0 + (k + 1 : Nat) := by omega
      rw [hnext, atLeastPow_add_iff]
      show ¬ _ * (den * 1) ≤ num * 1
      rwa [Nat.mul_one, Nat.mul_one, Nat.not_le]
  · -- the first digit is behind the point
    have hless : num < den := Nat.not_le.mp ‹_›
    obtain ⟨k, hlow, hhigh, hlength⟩ :=
      exists_leading_digit (Nat.div_pos (show num ≤ den - 1 by omega) hnum)
    rw [Nat.le_div_iff_mul_le hnum] at hlow
    rw [Nat.div_lt_iff_lt_mul hnum] at hhigh
    rw [hlength]
    constructor
    · have hnat : (-((k + 1 : Nat) : Int)).toNat = 0 := by omega
      have hneg : (- -((k + 1 : Nat) : Int)).toNat = k + 1 := by omega
      rw [AtLeastPow, hnat, hneg]
      show den * 1 ≤ _
      rw [Nat.mul_one, Nat.mul_comm]
      omega
    · have hnat : (-((k + 1 : Nat) : Int) + 1).toNat = 0 := by omega
      have hneg : (-(-((k + 1 : Nat) : Int) + 1)).toNat = k := by omega
      rw [AtLeastPow, hnat, hneg]
      show ¬ den * 1 ≤ _
      rw [Nat.mul_one, Nat.mul_comm]
      omega

/-- A quotient below a power of ten leads below it. -/
theorem leadingExponent_lt (hnum : 0 < num) (hden : 0 < den) {k : Nat}
    (h : num < Nat.pow 10 k * den) : leadingExponent num den < k := by
  have hleading := (leadingExponent_spec hnum hden).1
  by_contra hge
  have hnat : k ≤ (leadingExponent num den).toNat := by omega
  have hneg : (-leadingExponent num den).toNat = 0 := by omega
  rw [AtLeastPow, hneg] at hleading
  refine Nat.not_lt.mpr ?_ h
  calc Nat.pow 10 k * den ≤ den * Nat.pow 10 (leadingExponent num den).toNat := by
        rw [Nat.mul_comm]
        exact Nat.mul_le_mul_left den (pow_ten_le hnat)
    _ ≤ num * 1 := hleading
    _ = num := Nat.mul_one num

/-- A quotient that is not below a power of ten leads there or higher. -/
theorem le_leadingExponent (hnum : 0 < num) (hden : 0 < den) {e : Int}
    (h : AtLeastPow num den e) : e ≤ leadingExponent num den := by
  have hnext := (leadingExponent_spec hnum hden).2
  by_contra hless
  obtain ⟨k, hk⟩ := Int.eq_ofNat_of_zero_le (show 0 ≤ e - (leadingExponent num den + 1) by omega)
  have he : e = leadingExponent num den + 1 + k := by omega
  rw [he, atLeastPow_add_iff] at h
  exact hnext (Nat.le_trans (Nat.le_mul_of_pos_left _ (pow_ten_pos k)) h)

/-! ## Neighbours -/

/-- **The nearer neighbour comes first**, at most half a step away. -/
theorem neighbours_eq (num den : Nat) (e : Int) (hden : 0 < den) : ∃ m m',
    neighbours num den e = [⟨m, e⟩, ⟨m', e⟩] ∧
    (∀ d ∈ neighbours num den e, d.exponent = e ∧
      (d.digits = num * Nat.pow 10 (-e).toNat / (den * Nat.pow 10 e.toNat) ∨
        d.digits = num * Nat.pow 10 (-e).toNat / (den * Nat.pow 10 e.toNat) + 1)) ∧
    2 * (m * (den * Nat.pow 10 e.toNat)) ≤
      2 * (num * Nat.pow 10 (-e).toNat) + den * Nat.pow 10 e.toNat ∧
    2 * (num * Nat.pow 10 (-e).toNat) ≤
      2 * (m * (den * Nat.pow 10 e.toNat)) + den * Nat.pow 10 e.toNat := by
  have hstep : 0 < den * Nat.pow 10 e.toNat := Nat.mul_pos hden (pow_ten_pos _)
  unfold neighbours
  dsimp only
  generalize num * Nat.pow 10 (-e).toNat = value
  generalize den * Nat.pow 10 e.toNat = step at hstep ⊢
  have hsum := Nat.div_add_mod value step
  have hmod := Nat.mod_lt value hstep
  have hsucc : (value / step + 1) * step = step * (value / step) + step := by ring
  have hcomm : value / step * step = step * (value / step) := Nat.mul_comm ..
  split
  · refine ⟨value / step, value / step + 1, rfl, by simp, ?_, ?_⟩ <;> rw [hcomm] <;> omega
  · refine ⟨value / step + 1, value / step, rfl, by simp, ?_, ?_⟩ <;> rw [hsucc] <;> omega

/-- The neighbour below is there. -/
theorem below_mem_neighbours (num den : Nat) (e : Int) :
    ⟨num * Nat.pow 10 (-e).toNat / (den * Nat.pow 10 e.toNat), e⟩ ∈ neighbours num den e := by
  unfold neighbours
  dsimp only
  split
  · exact List.mem_cons_self
  · exact List.mem_cons_of_mem _ List.mem_cons_self

/-- On the grid without a fraction a whole number is its own neighbour. -/
theorem whole_mem_neighbours (k : Nat) (hden : 0 < den) : ⟨k, 0⟩ ∈ neighbours (k * den) den 0 := by
  have hbelow := below_mem_neighbours (k * den) den 0
  rw [Int.neg_zero, Int.toNat_zero] at hbelow
  change ⟨k * den * 1 / (den * 1), 0⟩ ∈ neighbours (k * den) den 0 at hbelow
  rwa [Nat.mul_one, Nat.mul_one, Nat.mul_div_cancel k hden] at hbelow

theorem readsAs_iff {d : Decimal} : readsAs bits d = true ↔
    nearest (d.digits * Nat.pow 10 d.exponent.toNat) (Nat.pow 10 (-d.exponent).toNat) = bits := by
  rw [readsAs, beq_iff_eq, magnitude_ofDecimal]

theorem scaledOfBits_pos (h : 0 < bits) : 0 < scaledOfBits bits := by
  obtain ⟨binade, significand, hbits, hscaled, -, hlong⟩ := exists_significand bits
  have hpos := pow_two_pos 52
  rw [hscaled]
  refine Nat.mul_pos ?_ (pow_two_pos binade)
  rcases hlong with rfl | hlong
  · rw [Nat.zero_mul, Nat.zero_add] at hbits
    rwa [← hbits]
  · exact Nat.lt_of_lt_of_le hpos hlong

/-- A decimal at most half a step away reads as the number, when there are sixteen digits in front
of the step. -/
theorem readsAs_of_near (hbits : bits < infinityBits) {m : Nat} {e : Int}
    (habove : 2 * (m * (unitsPerOne * Nat.pow 10 e.toNat)) ≤
      2 * (scaledOfBits bits * Nat.pow 10 (-e).toNat) + unitsPerOne * Nat.pow 10 e.toNat)
    (hbelow : 2 * (scaledOfBits bits * Nat.pow 10 (-e).toNat) ≤
      2 * (m * (unitsPerOne * Nat.pow 10 e.toNat)) + unitsPerOne * Nat.pow 10 e.toNat)
    (hfine : Nat.pow 10 16 * (unitsPerOne * Nat.pow 10 e.toNat) ≤
      scaledOfBits bits * Nat.pow 10 (-e).toNat) :
    readsAs bits ⟨m, e⟩ = true := by
  have hstep : 0 < unitsPerOne * Nat.pow 10 e.toNat := Nat.mul_pos unitsPerOne_pos (pow_ten_pos _)
  have hunits : m * Nat.pow 10 e.toNat * unitsPerOne = m * (unitsPerOne * Nat.pow 10 e.toNat) := by
    rw [Nat.mul_assoc, Nat.mul_comm unitsPerOne]
  have h16 : Nat.pow 10 16 = 10000000000000000 := rfl
  have h54 : Nat.pow 2 54 = 18014398509481984 := rfl
  rw [h16] at hfine
  rw [readsAs_iff]
  show nearest (m * Nat.pow 10 e.toNat) (Nat.pow 10 (-e).toNat) = bits
  rw [nearest_eq_encode, hunits]
  generalize unitsPerOne * Nat.pow 10 e.toNat = step at *
  refine encode_of_near hbits ?_ ?_ <;> rw [h54] <;> omega

/-! ## The search -/

/-- The first place of a range with a result. -/
theorem findSome?_range_eq_some {α : Type} {f : Nat → Option α} {n : Nat} {a : α}
    (h : (List.range n).findSome? f = some a) :
    ∃ i < n, f i = some a ∧ ∀ j < i, f j = none := by
  induction n with
  | zero => cases h
  | succ n ih =>
    rw [List.range_succ, List.findSome?_append] at h
    cases hfirst : (List.range n).findSome? f with
    | some b =>
      rw [hfirst, Option.some_or] at h
      obtain ⟨i, hi, hf⟩ := ih (hfirst.trans h)
      exact ⟨i, Nat.lt_succ_of_lt hi, hf⟩
    | none =>
      rw [hfirst, Option.none_or, List.findSome?_singleton] at h
      rw [List.findSome?_eq_none_iff] at hfirst
      exact ⟨n, Nat.lt_succ_self n, h, fun j hj => hfirst j (List.mem_range.mpr hj)⟩

/-- The exponent of the first digit of an encoded number. -/
def leading (bits : Nat) : Int := leadingExponent (scaledOfBits bits) unitsPerOne

/-- The grid of the digit behind the leading `count` digits. -/
def grid (bits count : Nat) : Int := leading bits - count

theorem leading_eq (bits count : Nat) :
    leadingExponent (scaledOfBits bits) unitsPerOne = grid bits count + count :=
  (Int.sub_add_cancel ..).symm

/-- The search gives the first decimal that reads as the number, grid by grid. -/
theorem shortest_of_found {d : Decimal}
    (h : (List.range 17).findSome? (fun count =>
      (neighbours (scaledOfBits bits) unitsPerOne (grid bits count)).find? (readsAs bits)) =
        some d) :
    shortest bits = d.dropZeros 400 := by
  have hden : Nat.pow 2 1074 = unitsPerOne := by delta unitsPerOne; rfl
  unfold shortest
  dsimp only
  rw [hden, List.findSome?_map, Function.comp_def]
  unfold grid leading at h
  rw [h]

section Search

variable (hpos : 0 < bits) (hbits : bits < infinityBits)
include hpos hbits

/-- **Seventeen digits are enough**: the nearer neighbour on that grid reads as the number. -/
theorem seventeen_digits : ∃ d,
    (neighbours (scaledOfBits bits) unitsPerOne (grid bits 16)).find? (readsAs bits) = some d := by
  obtain ⟨m, m', heq, -, habove, hbelow⟩ :=
    neighbours_eq (scaledOfBits bits) unitsPerOne (grid bits 16) unitsPerOne_pos
  have hleading := (leadingExponent_spec (scaledOfBits_pos hpos) unitsPerOne_pos).1
  rw [leading_eq bits 16, atLeastPow_add_iff] at hleading
  exact ⟨⟨m, grid bits 16⟩, by
    rw [heq, List.find?_cons_of_pos (readsAs_of_near hbits habove hbelow hleading)]⟩

/-- **The shortest decimal** is from the first grid that has one which reads as the number, without
zeros at its end. -/
theorem shortest_spec : ∃ count ≤ 16, ∃ d ∈ neighbours (scaledOfBits bits) unitsPerOne
      (grid bits count), readsAs bits d = true ∧ shortest bits = d.dropZeros 400 ∧
    ∀ fewer < count, ∀ d' ∈ neighbours (scaledOfBits bits) unitsPerOne (grid bits fewer),
      readsAs bits d' = false := by
  cases hfound : (List.range 17).findSome? fun count =>
      (neighbours (scaledOfBits bits) unitsPerOne (grid bits count)).find? (readsAs bits) with
  | none =>
    obtain ⟨d, hd⟩ := seventeen_digits hpos hbits
    have hnone := List.findSome?_eq_none_iff.mp hfound 16 (by decide)
    cases hnone.symm.trans hd
  | some d =>
    obtain ⟨count, hcount, hfind, hfewer⟩ := findSome?_range_eq_some hfound
    refine ⟨count, by omega, d, List.mem_of_find?_eq_some hfind, List.find?_some hfind,
      shortest_of_found hfound, fun fewer hless d' hd' => ?_⟩
    rw [← Bool.not_eq_true]
    exact List.find?_eq_none.mp (hfewer fewer hless) d' hd'

end Search

end Number

end ConsoleLisp
