import ConsoleLisp.Proofs.Number.Count
import ConsoleLisp.Proofs.Number.Shortest

/-!
# The size of a text, and whole numbers in digits

How the digits of a number are laid out depends on where its first digit stands, which is where it
stands in the shortest decimal too, or one place further when that rounds up to a power of ten. So no
text is long, and the whole numbers below `10 ^ 21` are the ones written in digits alone.

Results:
* `point_dropZeros`: zeros at the end of the digits do not move the point.
* **`shortest_size`**: the digits of the shortest decimal begin where those of the number do.
* **`length_toText_le`**: the text of a number has at most 26 units.
* **`isDigits_toText_iff`**: a number that counts is written in digits alone below `10 ^ 21` only.
-/

namespace ConsoleLisp

namespace Decimal

/-- Where the point stands among the digits, counted from the first one. -/
def point (d : Decimal) : Int := d.exponent + (decimal d.digits).length

theorem toText_eq (d : Decimal) : d.toText = layout (decimal d.digits) d.point := rfl

theorem length_decimal (n : Nat) : (decimal n).length = (Nat.toDigits 10 n).length :=
  List.length_map unit

theorem length_decimal_eq {n k : Nat} (hlow : Nat.pow 10 k ≤ n) (hhigh : n < Nat.pow 10 (k + 1)) :
    (decimal n).length = k + 1 :=
  (length_decimal n).trans (Number.length_toDigits_eq hlow hhigh)

theorem length_decimal_le {n k : Nat} (h : n < Nat.pow 10 (k + 1)) :
    (decimal n).length ≤ k + 1 := by
  rw [length_decimal]
  exact (Nat.length_toDigits_le_iff (by decide) k.succ_pos).mpr h

/-- A number without its last digit. -/
theorem length_decimal_div {n : Nat} (h : 10 ≤ n) :
    (decimal n).length = (decimal (n / 10)).length + 1 := by
  rw [length_decimal, length_decimal, Nat.toDigits_eq_if (by decide), if_neg (by omega),
    List.length_append, List.length_singleton]

/-- **Zeros at the end of the digits do not move the point.** -/
theorem point_dropZeros (fuel : Nat) (d : Decimal) (hpos : 0 < d.digits) :
    (d.dropZeros fuel).point = d.point ∧ (d.dropZeros fuel).digits ≤ d.digits ∧
      d.exponent ≤ (d.dropZeros fuel).exponent := by
  induction fuel generalizing d with
  | zero => exact ⟨rfl, Nat.le_refl _, Int.le_refl _⟩
  | succ fuel ih =>
    rw [dropZeros]
    split
    · have hten : 10 ≤ d.digits := by omega
      obtain ⟨hpoint, hdigits, hexponent⟩ := ih ⟨d.digits / 10, d.exponent + 1⟩
        (show 0 < d.digits / 10 by omega)
      dsimp only at hdigits hexponent
      refine ⟨?_, by omega, by omega⟩
      rw [hpoint, point, point, length_decimal_div hten]
      push_cast
      omega
    · exact ⟨rfl, Nat.le_refl _, Int.le_refl _⟩

/-! ## Layouts -/

theorem length_pointAfterFirst_le (digits : Text) :
    (pointAfterFirst digits).length ≤ digits.length + 1 := by
  match digits with
  | [] => exact Nat.zero_le _
  | [_] => exact Nat.le_succ _
  | _ :: _ :: _ => exact Nat.le_refl _

/-- A layout has few units besides the digits when its exponent has at most three. -/
theorem length_layout_le {digits : Text} {point : Int} (hlow : -998 ≤ point) (hhigh : point ≤ 1000) :
    (layout digits point).length ≤ max 21 (digits.length + 7) := by
  unfold layout
  dsimp only
  split
  · rw [List.length_append, List.length_replicate]
    omega
  split
  · rw [List.length_append, List.length_cons, List.length_take, List.length_drop]
    omega
  split
  · have hzero : (text "0.").length = 2 := by decide
    rw [List.length_append, List.length_append, List.length_replicate, hzero]
    omega
  · have hexponent : (decimal (point - 1).natAbs).length ≤ 3 :=
      length_decimal_le (k := 2) (show (point - 1).natAbs < 1000 by omega)
    have hmantissa := length_pointAfterFirst_le digits
    rw [List.length_append, List.length_cons, List.length_cons]
    show (pointAfterFirst digits).length + _ ≤ _
    omega

/-- Behind the digits and within 21 places a point is not written. -/
theorem isDigits_layout {digits : Text} (h : IsDigits digits) {point : Int}
    (hsize : (digits.length : Int) ≤ point) (hpoint : point ≤ 21) :
    IsDigits (layout digits point) := by
  unfold layout
  dsimp only
  rw [if_pos ⟨hsize, hpoint⟩]
  refine ⟨List.append_ne_nil_of_left_ne_nil h.1 _, List.forall_mem_append.mpr ⟨h.2, ?_⟩⟩
  exact isDigit_zeros _

/-- Past 21 places an exponent is written. -/
theorem not_isDigits_layout {digits : Text} {point : Int} (hpoint : 21 < point) :
    ¬ IsDigits (layout digits point) := by
  unfold layout
  dsimp only
  rw [if_neg (by omega), if_neg (by omega), if_neg (by omega)]
  rintro ⟨-, hdigits⟩
  have he := hdigits (unit 'e') (List.mem_append_right _ List.mem_cons_self)
  revert he
  decide

end Decimal

namespace Number

variable {bits : Nat}

/-! ## Where the digits begin -/

/-- The leading exponent of a number is among those that doubles have. -/
theorem leading_bounds (hpos : 0 < bits) (hbits : bits < infinityBits) :
    -324 ≤ leading bits ∧ leading bits < 309 := by
  have hscaled := scaledOfBits_pos hpos
  -- the bounds are named, so that no later step evaluates their powers
  obtain ⟨k, hk, hone⟩ : ∃ k, k = 324 ∧ unitsPerOne ≤ Nat.pow 10 k :=
    ⟨324, rfl, by decide +kernel⟩
  obtain ⟨j, hj, hlimit⟩ : ∃ j, j = 309 ∧ firstBeyond ≤ Nat.pow 10 j :=
    ⟨309, rfl, by decide +kernel⟩
  have hleast : AtLeastPow (scaledOfBits bits) unitsPerOne (-k) := by
    have hnat : (-(k : Int)).toNat = 0 := by omega
    have hneg : (- -(k : Int)).toNat = k := by omega
    have hzero : Nat.pow 10 0 = 1 := rfl
    rw [AtLeastPow, hnat, hneg, hzero, Nat.mul_one]
    exact Nat.le_trans hone (Nat.le_mul_of_pos_left _ hscaled)
  have hfinite : scaledOfBits bits < firstBeyond * unitsPerOne := by
    rw [← nearest_lt_infinityBits_iff unitsPerOne_pos, nearest_scaledOfBits hbits]
    exact hbits
  have hlow := le_leadingExponent hscaled unitsPerOne_pos hleast
  have hhigh := leadingExponent_lt hscaled unitsPerOne_pos
    (Nat.lt_of_lt_of_le hfinite (Nat.mul_le_mul_right _ hlimit))
  unfold leading
  omega

/-- A neighbour on a grid has the digits in front of it, or is the next power of ten. -/
theorem digits_of_mem_neighbours (hpos : 0 < bits) {count : Nat} {d : Decimal}
    (h : d ∈ neighbours (scaledOfBits bits) unitsPerOne (grid bits count)) :
    d.exponent = grid bits count ∧ Nat.pow 10 count ≤ d.digits ∧
      d.digits ≤ Nat.pow 10 (count + 1) := by
  obtain ⟨_, _, -, hmem, -, -⟩ :=
    neighbours_eq (scaledOfBits bits) unitsPerOne (grid bits count) unitsPerOne_pos
  obtain ⟨hexponent, hdigits⟩ := hmem d h
  obtain ⟨hlow, hhigh⟩ := leadingExponent_spec (scaledOfBits_pos hpos) unitsPerOne_pos
  have hstep : 0 < unitsPerOne * Nat.pow 10 (grid bits count).toNat :=
    Nat.mul_pos unitsPerOne_pos (pow_ten_pos _)
  rw [leading_eq bits count, atLeastPow_add_iff, ← Nat.le_div_iff_mul_le hstep] at hlow
  rw [leading_eq bits count, Int.add_assoc, ← Nat.cast_add_one, atLeastPow_add_iff,
    ← Nat.le_div_iff_mul_le hstep, Nat.not_le] at hhigh
  exact ⟨hexponent, by omega, by omega⟩

/-- **The shortest decimal begins where the number does**, or is the power of ten above it; it is
not on a finer grid than need be. -/
theorem shortest_size (hpos : 0 < bits) (hbits : bits < infinityBits) :
    ∃ count ≤ 16, ∃ m, readsAs bits ⟨m, grid bits count⟩ = true ∧
      shortest bits = Decimal.dropZeros 400 ⟨m, grid bits count⟩ ∧
      (Decimal.point ⟨m, grid bits count⟩ = leading bits + 1 ∨
        m = Nat.pow 10 (count + 1) ∧ Decimal.point ⟨m, grid bits count⟩ = leading bits + 2) ∧
      0 < m ∧ m ≤ Nat.pow 10 (count + 1) ∧
      ∀ fewer < count, ∀ d ∈ neighbours (scaledOfBits bits) unitsPerOne (grid bits fewer),
        readsAs bits d = false := by
  obtain ⟨count, hcount, d, hmem, hreads, hshortest, hfewer⟩ := shortest_spec hpos hbits
  obtain ⟨hexponent, hlow, hhigh⟩ := digits_of_mem_neighbours hpos hmem
  obtain ⟨m, hm⟩ : ∃ m, m = d.digits := ⟨_, rfl⟩
  have hd : d = ⟨m, grid bits count⟩ := by rw [← hexponent, hm]
  rw [← hm] at hlow hhigh
  rw [hd] at hreads hshortest
  have hleading : grid bits count + count = leading bits := Int.sub_add_cancel ..
  refine ⟨count, hcount, m, hreads, hshortest, ?_, Nat.lt_of_lt_of_le (pow_ten_pos count) hlow,
    hhigh, hfewer⟩
  rcases Nat.lt_or_eq_of_le hhigh with hless | rfl
  · left
    rw [Decimal.point, Decimal.length_decimal_eq hlow hless]
    push_cast
    omega
  · right
    refine ⟨rfl, ?_⟩
    have hlength : (decimal (Nat.pow 10 (count + 1))).length = count + 1 + 1 :=
      Decimal.length_decimal_eq (Nat.le_refl _) (Nat.pow_lt_pow_right (by decide) (by omega))
    rw [Decimal.point, hlength]
    push_cast
    omega

/-! ## The length of a text -/

/-- At most eighteen digits and what the layout puts around them. -/
theorem length_shortest_le (hpos : 0 < bits) (hbits : bits < infinityBits) :
    (shortest bits).toText.length ≤ 25 := by
  obtain ⟨count, hcount, m, -, hshortest, hpoint, hm, hdigits, -⟩ := shortest_size hpos hbits
  obtain ⟨hlow, hhigh⟩ := leading_bounds hpos hbits
  obtain ⟨hsame, hle, -⟩ := Decimal.point_dropZeros 400 ⟨m, grid bits count⟩ hm
  rw [← hshortest] at hsame hle
  have hsize : (decimal (shortest bits).digits).length ≤ 18 := by
    refine Decimal.length_decimal_le (k := 17) ?_
    calc (shortest bits).digits ≤ Nat.pow 10 (count + 1) := Nat.le_trans hle hdigits
      _ < Nat.pow 10 18 := Nat.pow_lt_pow_right (by decide) (by omega)
  have hlayout : (Decimal.layout (decimal (shortest bits).digits) (shortest bits).point).length ≤
      max 21 ((decimal (shortest bits).digits).length + 7) :=
    Decimal.length_layout_le (by omega) (by omega)
  rw [Decimal.toText_eq]
  omega

/-- **The text of a number has at most 26 units.** -/
theorem length_toText_le (n : Number) : (toText n).length ≤ 26 := by
  by_cases hfinite : isFinite n = true
  · by_cases hzero : scaled n = 0
    · rw [toText_of_zero hfinite hzero]
      decide
    · have hpos : 0 < magnitude n := Nat.pos_of_ne_zero fun h => hzero (scaled_eq_zero_iff.mpr h)
      have hshortest := length_shortest_le hpos (of_decide_eq_true hfinite)
      have hsign : (minusSign (isNegative n)).length ≤ 1 := by cases isNegative n <;> decide
      rw [toText_of_ne_zero hfinite hzero, List.length_append]
      omega
  · rw [toText]
    by_cases hnan : isNaN n = true
    · simp only [hnan, if_true]
      decide
    · simp only [hnan, hfinite, if_true, Bool.not_false, Bool.false_eq_true, if_false]
      cases isNegative n <;> decide

/-- The text of a finite number has units of a numeral only. -/
theorem toText_units {n : Number} (h : isFinite n = true) : ∀ u ∈ toText n, IsNumeralUnit u := by
  by_cases hzero : scaled n = 0
  · rw [toText_of_zero h hzero]
    exact fun u hu => .inl ((isDigits_decimal 0).2 u hu)
  · rw [toText_of_ne_zero h hzero]
    refine List.forall_mem_append.mpr ⟨fun u hu => ?_, Decimal.toText_units _⟩
    cases hsign : isNegative n with
    | true =>
      rw [hsign] at hu
      rw [List.mem_singleton.mp hu]
      exact .inr (by decide)
    | false =>
      rw [hsign] at hu
      cases hu

/-! ## Whole numbers -/

section Whole

variable {k : Nat}

/-- A whole number reads back from its own digits. -/
theorem readsAs_whole (hbits : bits < infinityBits) (hscaled : scaledOfBits bits = k * unitsPerOne) :
    readsAs bits ⟨k, 0⟩ = true := by
  have hself : nearest (k * unitsPerOne) unitsPerOne = bits := by
    rw [← hscaled]
    exact nearest_scaledOfBits hbits
  rw [readsAs_iff]
  refine (nearest_congr (pow_ten_pos _) unitsPerOne_pos ?_).trans hself
  show k * 1 * unitsPerOne = k * unitsPerOne * 1
  rw [Nat.mul_one, Nat.mul_one]

/-- The first digit of a whole number stands before the point, and how far. -/
theorem leading_whole (hk : 0 < k) (hscaled : scaledOfBits bits = k * unitsPerOne) :
    0 ≤ leading bits ∧ (leading bits < 21 ↔ k < Nat.pow 10 21) := by
  have hpos : 0 < k * unitsPerOne := Nat.mul_pos hk unitsPerOne_pos
  have hzero : Nat.pow 10 0 = 1 := rfl
  have hplaces : ∀ places : Nat, AtLeastPow (k * unitsPerOne) unitsPerOne (0 + places) ↔
      Nat.pow 10 places ≤ k := by
    intro places
    rw [atLeastPow_add_iff, Int.neg_zero, Int.toNat_zero, hzero, Nat.mul_one, Nat.mul_one]
    exact Nat.mul_le_mul_right_iff unitsPerOne_pos
  rw [leading, hscaled]
  refine ⟨?_, fun hless => ?_, fun hless => ?_⟩
  · exact le_leadingExponent hpos unitsPerOne_pos ((hplaces 0).mpr hk)
  · by_contra hge
    exact absurd (le_leadingExponent hpos unitsPerOne_pos ((hplaces 21).mpr (not_lt.mp hge)))
      (not_le.mpr hless)
  · exact leadingExponent_lt (k := 21) hpos unitsPerOne_pos
      (Nat.mul_lt_mul_of_pos_right hless unitsPerOne_pos)

/-- The shortest decimal of a whole number has no digits behind the point. -/
theorem grid_nonneg (hbits : bits < infinityBits) (hscaled : scaledOfBits bits = k * unitsPerOne)
    (hleading : 0 ≤ leading bits) {count : Nat} (hfewer : ∀ fewer < count, ∀ d ∈ neighbours
      (scaledOfBits bits) unitsPerOne (grid bits fewer), readsAs bits d = false) :
    0 ≤ grid bits count := by
  obtain ⟨fewer, hexponent⟩ := Int.eq_ofNat_of_zero_le hleading
  have hgrid : grid bits fewer = 0 := by
    rw [grid, hexponent]
    exact Int.sub_self _
  by_contra hneg
  rw [grid, hexponent] at hneg
  have hless : fewer < count := Int.ofNat_lt.mp (sub_neg.mp (not_le.mp hneg))
  have hwhole := whole_mem_neighbours k unitsPerOne_pos
  rw [← hscaled, ← hgrid] at hwhole
  have hreads := hfewer fewer hless _ hwhole
  rw [hgrid, readsAs_whole hbits hscaled] at hreads
  cases hreads

/-- The first power of ten that is written with an exponent is a number. -/
theorem eq_of_readsAs_first (hscaled : scaledOfBits bits = k * unitsPerOne) {m : Nat} {e : Int}
    (he : 0 ≤ e) (hvalue : m * Nat.pow 10 e.toNat = Nat.pow 10 21)
    (hreads : readsAs bits ⟨m, e⟩ = true) : k = Nat.pow 10 21 := by
  have hfirst : scaledOfBits (nearest (Nat.pow 10 21) 1) = Nat.pow 10 21 * unitsPerOne := by
    decide +kernel
  have hneg : (-e).toNat = 0 := Int.toNat_eq_zero.mpr (Int.neg_nonpos_of_nonneg he)
  rw [readsAs_iff] at hreads
  change nearest (m * Nat.pow 10 e.toNat) (Nat.pow 10 (-e).toNat) = bits at hreads
  rw [hvalue, hneg] at hreads
  change nearest (Nat.pow 10 21) 1 = bits at hreads
  rw [hreads, hscaled] at hfirst
  exact Nat.eq_of_mul_eq_mul_right unitsPerOne_pos hfirst

/-- **Where the point of a whole number stands.** -/
theorem point_shortest_whole (hk : 0 < k) (hbits : bits < infinityBits)
    (hscaled : scaledOfBits bits = k * unitsPerOne) : 0 ≤ (shortest bits).exponent ∧
      ((shortest bits).point ≤ 21 ↔ k < Nat.pow 10 21) := by
  have hpos : 0 < bits := by
    refine Nat.pos_of_ne_zero ?_
    rintro rfl
    exact Nat.ne_of_lt (Nat.mul_pos hk unitsPerOne_pos) hscaled
  obtain ⟨hleading, hplaces⟩ := leading_whole hk hscaled
  obtain ⟨count, -, m, hreads, hshortest, hpoint, hm, -, hfewer⟩ := shortest_size hpos hbits
  obtain ⟨hsame, -, hexponent⟩ := Decimal.point_dropZeros 400 ⟨m, grid bits count⟩ hm
  rw [← hshortest] at hsame hexponent
  have hgrid := grid_nonneg hbits hscaled hleading hfewer
  have hfirst := eq_of_readsAs_first (m := m) hscaled hgrid
  refine ⟨Int.le_trans hgrid hexponent, ?_⟩
  rw [hsame, ← hplaces]
  clear hscaled
  constructor
  · intro hle
    omega
  · intro hless
    rcases hpoint with hpoint | ⟨rfl, hpoint⟩
    · omega
    · -- the power of ten above the number cannot be the first one with an exponent
      by_contra hmore
      have hlast : count + 1 + (grid bits count).toNat = 21 := by
        rw [grid] at hgrid ⊢
        omega
      have heq := hfirst (by rw [← pow_ten_add, hlast]) hreads
      exact Nat.ne_of_lt (hplaces.mp hless) heq

end Whole

/-- **A number that counts is written in digits alone** exactly below `10 ^ 21`. -/
theorem isDigits_toText_iff {n : Number} {k : Nat} (h : IsCount n k) :
    IsDigits (toText n) ↔ k < Nat.pow 10 21 := by
  rcases Nat.eq_zero_or_pos k with rfl | hk
  · have hzero : scaled n = 0 := h.scaled_eq.trans (Nat.zero_mul _)
    rw [toText_of_zero h.finite hzero]
    exact iff_of_true (isDigits_decimal 0) (pow_ten_pos 21)
  · have hbits : magnitude n < infinityBits := of_decide_eq_true h.finite
    have hne : scaled n ≠ 0 := by
      rw [h.scaled_eq]
      exact Nat.ne_of_gt (Nat.mul_pos hk unitsPerOne_pos)
    have hsign : isNegative n = false := by
      rw [← Bool.not_eq_true]
      exact fun hnegative => hne (h.scaled_eq_zero hnegative)
    obtain ⟨hexponent, hpoint⟩ := point_shortest_whole hk hbits h.scaled_eq
    have hplus : minusSign false = [] := rfl
    rw [toText_of_ne_zero h.finite hne, hsign, hplus, List.nil_append, ← hpoint, Decimal.toText_eq]
    constructor
    · intro hdigits
      by_contra hmore
      exact Decimal.not_isDigits_layout (not_le.mp hmore) hdigits
    · refine Decimal.isDigits_layout (isDigits_decimal _) ?_
      exact Int.le_add_of_nonneg_left hexponent

end Number

end ConsoleLisp
