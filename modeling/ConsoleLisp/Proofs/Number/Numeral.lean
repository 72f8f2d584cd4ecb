import ConsoleLisp.Number.Decimal
import ConsoleLisp.Proofs.Number.Grammar
import ConsoleLisp.Proofs.Number.Rounding
import ConsoleLisp.Source.Token

/-!
# Numerals

The text of a number is a number literal: the layout of its digits splits into the sign, the digits
on both sides of the point and the exponent that it was put together from, and the value of these
parts is the number.

Results:
* `digitsValue_decimal`: the digits of a natural number are worth that number.
* `Spells.of_written`: a decimal and an exponent, behind a sign, are split into their parts.
* **`spells_layout`**: digits laid out around a point are worth the decimal they stand for.
* `ofDecimal_shortest`: the shortest decimal of a number reads as the number.
* **`parse?_toText`**: the text of a finite number reads as the number, that of a zero as zero.
-/

namespace ConsoleLisp

/-! ## Digits -/

/-- The unit of a decimal digit has the digit's value. -/
theorem toNat_unit_digit {c : Char} (h : c.isDigit = true) :
    (unit c).toNat = c.toNat ∧ 48 ≤ c.toNat ∧ c.toNat ≤ 57 := by
  rw [Char.isDigit, Bool.and_eq_true, decide_eq_true_eq, decide_eq_true_eq] at h
  have hlow : 48 ≤ c.toNat := h.1
  have hhigh : c.toNat ≤ 57 := h.2
  exact ⟨Nat.mod_eq_of_lt (show c.toNat < 65536 by omega), hlow, hhigh⟩

theorem decimal_ne_nil (n : Nat) : decimal n ≠ [] :=
  fun h => Nat.toDigits_ne_nil (List.map_eq_nil_iff.mp h)

theorem isDigit_of_mem_decimal {n : Nat} {u : CodeUnit} (h : u ∈ decimal n) :
    u.isDigit = true := by
  obtain ⟨c, hc, rfl⟩ := List.mem_map.mp h
  obtain ⟨hunit, hbounds⟩ :=
    toNat_unit_digit (Nat.isDigit_of_mem_toDigits (by decide) (by decide) hc)
  rw [isDigit_iff, hunit]
  exact hbounds

theorem isDigits_decimal (n : Nat) : IsDigits (decimal n) :=
  ⟨decimal_ne_nil n, fun _ hu => isDigit_of_mem_decimal hu⟩

namespace Text

/-- The value of some digits behind others. -/
theorem foldl_digitValue (digits : Text) (n : Nat) :
    digits.foldl (fun n u => 10 * n + u.digitValue) n =
      n * Nat.pow 10 digits.length + digitsValue digits := by
  unfold digitsValue
  induction digits generalizing n with
  | nil => exact (Nat.mul_one n).symm
  | cons u digits ih =>
    rw [List.foldl_cons, List.foldl_cons, ih, ih (10 * 0 + _), List.length_cons]
    show _ = n * (Nat.pow 10 digits.length * 10) + _
    ring

theorem digitsValue_append (a b : Text) :
    digitsValue (a ++ b) = digitsValue a * Nat.pow 10 b.length + digitsValue b := by
  rw [digitsValue, List.foldl_append, foldl_digitValue]
  rfl

theorem digitsValue_zeros (k : Nat) : digitsValue (List.replicate k (unit '0')) = 0 := by
  induction k with
  | zero => rfl
  | succ k ih => exact ih

/-- **The digits of a natural number are worth that number.** -/
theorem digitsValue_decimal (n : Nat) : digitsValue (decimal n) = n := by
  have hvalue : ∀ (digits : List Char) (m : Nat), (∀ c ∈ digits, c.isDigit = true) →
      (digits.map unit).foldl (fun n u => 10 * n + u.digitValue) m =
        Nat.ofDigitChars 10 digits m := by
    intro digits
    induction digits with
    | nil => exact fun m _ => rfl
    | cons c digits ih =>
      intro m h
      have hunit := (toNat_unit_digit (h c List.mem_cons_self)).1
      rw [List.map_cons, List.foldl_cons, CodeUnit.digitValue, hunit]
      exact ih _ fun d hd => h d (List.mem_cons_of_mem c hd)
  exact (hvalue _ 0 fun c hc => Nat.isDigit_of_mem_toDigits (by decide) (by decide) hc).trans
    Nat.ofDigitChars_ten_toDigits

end Text

/-! ## Parts of a literal -/

/-- A minus sign, or nothing. -/
def minusSign (negative : Bool) : Text := if negative then [unit '-'] else []

namespace Literal

theorem writesSign_minusSign (negative : Bool) : WritesSign negative (minusSign negative) := by
  cases negative with
  | true => exact .minus
  | false => exact .absent

/-- The exponent behind its letter, with a sign as it is written for a number. -/
theorem writesExponent_decimal (e : Int) :
    WritesExponent e (unit 'e' :: (if e < 0 then unit '-' else unit '+') :: decimal e.natAbs) := by
  have hvalue : ∀ negative, signedValue negative (decimal e.natAbs) =
      if negative then -(e.natAbs : Int) else e.natAbs := by
    intro negative
    rw [signedValue, Text.digitsValue_decimal]
  by_cases he : e < 0
  · have hwritten := WritesExponent.present (.inl rfl) .minus (isDigits_decimal e.natAbs)
    rw [hvalue, if_pos rfl, show -(e.natAbs : Int) = e by omega] at hwritten
    rwa [if_pos he]
  · have hwritten := WritesExponent.present (.inl rfl) .plus (isDigits_decimal e.natAbs)
    rw [hvalue, if_neg Bool.false_ne_true, show (e.natAbs : Int) = e by omega] at hwritten
    rwa [if_neg he]

end Literal

/-! ## Digits around a point -/

/-- The text, behind a sign, is a literal of the decimal `digits * 10 ^ e`. -/
def Spells (t digits : Text) (e : Int) : Prop :=
  ∀ negative, ∃ l, Literal.parse? (minusSign negative ++ t) = some l ∧
    l.value = Number.ofDecimal negative (Text.digitsValue digits) e

/-- A decimal and an exponent are worth what their parts are. -/
theorem Spells.of_written {whole fraction decimal exponent digits : Text} {e place : Int}
    (hdecimal : Literal.WritesDecimal whole fraction decimal)
    (hexponent : Literal.WritesExponent e exponent)
    (hvalue : ∀ negative, Literal.value ⟨negative, whole, fraction, e⟩ =
      Number.ofDecimal negative (Text.digitsValue digits) place) :
    Spells (decimal ++ exponent) digits place :=
  fun negative => ⟨_, Literal.parse?_eq_some_iff.mpr
    (.intro (Literal.writesSign_minusSign negative) hdecimal hexponent), hvalue negative⟩

/-- A decimal without an exponent. -/
theorem Spells.of_decimal {whole fraction decimal digits : Text} {place : Int}
    (hdecimal : Literal.WritesDecimal whole fraction decimal)
    (hvalue : ∀ negative, Literal.value ⟨negative, whole, fraction, 0⟩ =
      Number.ofDecimal negative (Text.digitsValue digits) place) :
    Spells decimal digits place :=
  List.append_nil decimal ▸ Spells.of_written hdecimal .absent hvalue

theorem isDigit_zeros (k : Nat) : ∀ u ∈ List.replicate k (unit '0'), u.isDigit = true := by
  intro u hu
  rw [List.eq_of_mem_replicate hu]
  decide

/-- A point behind the first of several digits. -/
def pointAfterFirst : Text → Text
  | [] => []
  | [digit] => [digit]
  | digit :: rest => digit :: unit '.' :: rest

section Layout

variable {digits : Text} (hne : digits ≠ []) (hdigits : ∀ u ∈ digits, u.isDigit = true)
include hne hdigits

/-- Zeros between the digits and the point. -/
theorem spells_zeros (k : Nat) : Spells (digits ++ List.replicate k (unit '0')) digits k := by
  refine .of_decimal (.whole ⟨List.append_ne_nil_of_left_ne_nil hne _,
    List.forall_mem_append.mpr ⟨hdigits, isDigit_zeros k⟩⟩) fun negative => ?_
  rw [Literal.value, List.append_nil, Text.digitsValue_append, Text.digitsValue_zeros,
    Nat.add_zero, List.length_replicate, Number.ofDecimal_shift]
  congr 1
  exact Int.zero_add _

/-- The point between two digits. -/
theorem spells_point {k : Nat} (hpos : 0 < k) (hk : k ≤ digits.length) :
    Spells (digits.take k ++ unit '.' :: digits.drop k) digits (k - digits.length) := by
  have htake : digits.take k ≠ [] := by
    rw [Ne, List.take_eq_nil_iff]
    rintro (h | h)
    · omega
    · exact hne h
  refine .of_decimal (.pointed ⟨htake, fun u hu => hdigits u (List.mem_of_mem_take hu)⟩
    fun u hu => hdigits u (List.mem_of_mem_drop hu)) fun negative => ?_
  rw [Literal.value, List.take_append_drop, List.length_drop]
  congr 1
  show (0 : Int) - ((digits.length - k : Nat) : Int) = _
  omega

omit hne in
/-- Zeros between the point and the digits. -/
theorem spells_leading_zeros (k : Nat) :
    Spells (text "0." ++ List.replicate k (unit '0') ++ digits) digits (-k - digits.length) := by
  have hvalue : Text.digitsValue ([unit '0'] ++ (List.replicate k (unit '0') ++ digits)) =
      Text.digitsValue digits := by
    rw [← List.append_assoc, Text.digitsValue_append]
    show Text.digitsValue (List.replicate (k + 1) (unit '0')) * _ + _ = _
    rw [Text.digitsValue_zeros, Nat.zero_mul, Nat.zero_add]
  have hdecimal : Literal.WritesDecimal [unit '0'] (List.replicate k (unit '0') ++ digits)
      (text "0." ++ List.replicate k (unit '0') ++ digits) :=
    .pointed ⟨List.cons_ne_nil _ _, isDigit_zeros 1⟩
      (List.forall_mem_append.mpr ⟨isDigit_zeros k, hdigits⟩)
  refine .of_decimal hdecimal fun negative => ?_
  rw [Literal.value, hvalue, List.length_append, List.length_replicate]
  congr 1
  show (0 : Int) - ((k + digits.length : Nat) : Int) = _
  omega

/-- One digit before the point and a signed exponent. -/
theorem spells_exponent (e : Int) :
    Spells (pointAfterFirst digits ++
      unit 'e' :: (if e < 0 then unit '-' else unit '+') :: decimal e.natAbs) digits
      (e + 1 - digits.length) := by
  have hexponent := Literal.writesExponent_decimal e
  match digits, hne, hdigits with
  | [digit], _, hdigits =>
    refine .of_written (.whole ⟨List.cons_ne_nil _ _, hdigits⟩) hexponent fun negative => ?_
    rw [Literal.value, List.append_nil]
    congr 1
    simp only [List.length_nil, List.length_singleton]
    omega
  | digit :: next :: rest, _, hdigits =>
    obtain ⟨hdigit, hrest⟩ := List.forall_mem_cons.mp hdigits
    refine .of_written (.pointed ⟨List.cons_ne_nil digit [], List.forall_mem_singleton.mpr hdigit⟩
      hrest) hexponent fun negative => ?_
    rw [Literal.value]
    congr 1
    simp only [List.length_cons]
    omega

/-- **Digits laid out around a point are worth the decimal they stand for.** -/
theorem spells_layout (point : Int) :
    Spells (Decimal.layout digits point) digits (point - digits.length) := by
  unfold Decimal.layout
  dsimp only
  split
  · obtain ⟨k, rfl⟩ : ∃ k : Nat, point = digits.length + k :=
      ⟨(point - digits.length).toNat, by omega⟩
    rw [add_sub_cancel_left, Int.toNat_natCast]
    exact spells_zeros hne hdigits k
  split
  · obtain ⟨k, rfl⟩ := Int.eq_ofNat_of_zero_le (show 0 ≤ point by omega)
    exact spells_point hne hdigits (by omega) (by omega)
  split
  · obtain ⟨k, rfl⟩ := Int.exists_eq_neg_ofNat (show point ≤ 0 by omega)
    rw [Int.neg_neg, Int.toNat_natCast]
    exact spells_leading_zeros hdigits k
  · have h := spells_exponent hne hdigits (point - 1)
    rw [Int.sub_add_cancel] at h
    exact h

end Layout

/-! ## Units of a numeral -/

/-- A digit, or a sign, point or letter of a numeral. -/
def IsNumeralUnit (u : CodeUnit) : Prop :=
  u.isDigit = true ∨ u ∈ [unit '.', unit 'e', unit '+', unit '-']

theorem IsNumeralUnit.not_delimiter {u : CodeUnit} (h : IsNumeralUnit u) :
    isDelimiter u = false := by
  rcases h with h | h
  · have hbounds := isDigit_iff.mp h
    have hne : ∀ v : CodeUnit, (v.toNat < 48 ∨ 57 < v.toNat) → (u == v) = false := by
      rintro v hv
      refine beq_false_of_ne ?_
      rintro rfl
      omega
    simp only [isDelimiter, isSpace, hne (unit ' ') (by decide), hne (unit '\t') (by decide),
      hne (unit '\r') (by decide), hne (unit '\n') (by decide), hne (unit '(') (by decide),
      hne (unit ')') (by decide), hne (unit '\x27') (by decide), hne (unit '"') (by decide),
      hne (unit ';') (by decide), Bool.or_self]
  · fin_cases h <;> decide

theorem pointAfterFirst_units {digits : Text} (hdigits : ∀ u ∈ digits, IsNumeralUnit u) :
    ∀ u ∈ pointAfterFirst digits, IsNumeralUnit u := by
  match digits, hdigits with
  | [], hdigits => exact hdigits
  | [_], hdigits => exact hdigits
  | digit :: next :: rest, hdigits =>
    rw [pointAfterFirst, List.forall_mem_cons, List.forall_mem_cons]
    rw [List.forall_mem_cons] at hdigits
    · exact ⟨hdigits.1, .inr List.mem_cons_self, hdigits.2⟩
    · exact List.cons_ne_nil _ _

theorem layout_units {digits : Text} (hdigits : ∀ u ∈ digits, u.isDigit = true) (point : Int) :
    ∀ u ∈ Decimal.layout digits point, IsNumeralUnit u := by
  have hd : ∀ u ∈ digits, IsNumeralUnit u := fun u hu => .inl (hdigits u hu)
  have hz : ∀ k, ∀ u ∈ List.replicate k (unit '0'), IsNumeralUnit u :=
    fun k u hu => .inl (isDigit_zeros k u hu)
  unfold Decimal.layout
  dsimp only
  split
  · exact List.forall_mem_append.mpr ⟨hd, hz _⟩
  split
  · refine List.forall_mem_append.mpr ⟨fun u hu => hd u (List.mem_of_mem_take hu),
      List.forall_mem_cons.mpr ⟨.inr List.mem_cons_self, fun u hu => hd u (List.mem_of_mem_drop hu)⟩⟩
  split
  · refine List.forall_mem_append.mpr ⟨List.forall_mem_append.mpr ⟨fun u hu => ?_, hz _⟩, hd⟩
    obtain rfl | rfl : u = unit '0' ∨ u = unit '.' := by simpa [text, CodeUnit.ofChar, unit] using hu
    · exact .inl (by decide)
    · exact .inr List.mem_cons_self
  · refine List.forall_mem_append.mpr ⟨pointAfterFirst_units hd, List.forall_mem_cons.mpr
      ⟨.inr (by decide), List.forall_mem_cons.mpr ⟨?_, fun u hu => .inl (isDigit_of_mem_decimal hu)⟩⟩⟩
    split
    · exact .inr (by decide)
    · exact .inr (by decide)

namespace Decimal

/-- The text of a decimal is a literal of it. -/
theorem spells_toText (d : Decimal) : Spells d.toText (decimal d.digits) d.exponent := by
  have h := spells_layout (decimal_ne_nil d.digits) (fun u hu => isDigit_of_mem_decimal hu)
    (d.exponent + (decimal d.digits).length)
  rwa [add_sub_cancel_right] at h

theorem toText_units (d : Decimal) : ∀ u ∈ d.toText, IsNumeralUnit u :=
  layout_units (fun _ hu => isDigit_of_mem_decimal hu) _

end Decimal

namespace Number

/-! ## The shortest decimal -/

theorem ofDecimal_dropZeros (negative : Bool) (fuel : Nat) (d : Decimal) :
    ofDecimal negative (d.dropZeros fuel).digits (d.dropZeros fuel).exponent =
      ofDecimal negative d.digits d.exponent := by
  induction fuel generalizing d with
  | zero => rfl
  | succ fuel ih =>
    rw [Decimal.dropZeros]
    split
    · have hdigits : d.digits = d.digits / 10 * Nat.pow 10 1 := by
        show _ = d.digits / 10 * 10
        omega
      rw [ih]
      conv_rhs => rw [hdigits, ofDecimal_shift]
      rfl
    · rfl

/-- What reads as a magnitude does so under either sign. -/
theorem ofDecimal_of_readsAs {bits : Nat} {d : Decimal} (h : readsAs bits d = true)
    (negative : Bool) : ofDecimal negative d.digits d.exponent = ofMagnitude negative bits := by
  rw [readsAs, beq_iff_eq, magnitude_ofDecimal] at h
  rw [ofDecimal_eq, h]

/-- The decimal expansion of a binary fraction is exact. -/
theorem ofDecimal_expansion (negative : Bool) (num : Nat) {k den : Nat} {e : Int} (he : e = -k)
    (hden : Nat.pow 2 k = den) :
    ofDecimal negative (num * Nat.pow 5 k) e = ofMagnitude negative (nearest num den) := by
  have hpos : e.toNat = 0 := by omega
  have hneg : (-e).toNat = k := by omega
  rw [ofDecimal_eq, hpos, hneg, ← hden]
  refine congrArg _ (nearest_congr (pow_ten_pos k) (pow_two_pos k) ?_)
  have hpow : Nat.pow 5 k * Nat.pow 2 k = Nat.pow 10 k := (Nat.mul_pow 5 2 k).symm
  show num * Nat.pow 5 k * 1 * Nat.pow 2 k = num * Nat.pow 10 k
  rw [Nat.mul_one, Nat.mul_assoc, hpow]

/-- **The shortest decimal of a number reads as the number.** -/
theorem ofDecimal_shortest (negative : Bool) {bits : Nat} (h : bits < infinityBits) :
    ofDecimal negative (shortest bits).digits (shortest bits).exponent =
      ofMagnitude negative bits := by
  unfold shortest
  dsimp only
  split
  · obtain ⟨exponent, -, hfind⟩ := List.exists_of_findSome?_eq_some ‹_›
    rw [ofDecimal_dropZeros]
    exact ofDecimal_of_readsAs (List.find?_some hfind) negative
  · -- no short decimal reads as the number: it is written out
    have hden : Nat.pow 2 1074 = unitsPerOne := by delta unitsPerOne; rfl
    exact (ofDecimal_expansion negative (scaledOfBits bits) rfl hden).trans
      (congrArg _ (nearest_scaledOfBits h))

/-! ## The text of a number -/

theorem scaled_eq_zero_iff {n : Number} : scaled n = 0 ↔ magnitude n = 0 := by
  unfold scaled scaledOfBits
  split
  · exact Iff.rfl
  · have hpos := Nat.mul_pos (Nat.add_pos_left (pow_two_pos 52) (magnitude n % Nat.pow 2 52))
      (pow_two_pos (magnitude n / Nat.pow 2 52 - 1))
    have hpow := pow_two_pos 52
    omega

theorem toText_of_zero {n : Number} (h : isFinite n = true) (hzero : scaled n = 0) :
    toText n = text "0" := by
  rw [toText]
  simp only [isNaN_of_isFinite h, h, hzero, Bool.not_true, Bool.false_eq_true, if_false, if_true]

theorem toText_of_ne_zero {n : Number} (h : isFinite n = true) (hne : scaled n ≠ 0) :
    toText n = minusSign (isNegative n) ++ (shortest (magnitude n)).toText := by
  rw [toText]
  simp only [isNaN_of_isFinite h, h, hne, Bool.not_true, Bool.false_eq_true, if_false]
  rfl

/-- A number without the sign of a zero. -/
def unsignedZero (n : Number) : Number := if scaled n = 0 then ofMagnitude false 0 else n

/-- **The text of a finite number reads as the number**, that of a zero as zero. -/
theorem parse?_toText {n : Number} (h : isFinite n = true) :
    ∃ l, Literal.parse? (toText n) = some l ∧ l.value = unsignedZero n := by
  by_cases hzero : scaled n = 0
  · rw [toText_of_zero h hzero, unsignedZero, if_pos hzero]
    exact ⟨⟨false, [unit '0'], [], 0⟩, by decide +kernel, rfl⟩
  · have hbits : magnitude n < infinityBits := of_decide_eq_true h
    obtain ⟨l, hparse, hvalue⟩ := (shortest (magnitude n)).spells_toText (isNegative n)
    rw [toText_of_ne_zero h hzero, unsignedZero, if_neg hzero]
    refine ⟨l, hparse, hvalue.trans ?_⟩
    rw [Text.digitsValue_decimal, ofDecimal_shortest _ hbits, ofMagnitude_magnitude]

theorem isNumberLiteral_toText {n : Number} (h : isFinite n = true) :
    isNumberLiteral (toText n) = true := by
  obtain ⟨l, hparse, -⟩ := parse?_toText h
  exact Literal.isNumberLiteral_of_parse? hparse

theorem not_delimiter_of_all {t : Text} (h : t.all (!isDelimiter ·) = true) :
    ∀ u ∈ t, isDelimiter u = false := by
  intro u hu
  simpa using List.all_eq_true.mp h u hu

/-- **The text of a number is one atom**: it has units, none of them a delimiter. -/
theorem toText_atom (n : Number) : toText n ≠ [] ∧ ∀ u ∈ toText n, isDelimiter u = false := by
  by_cases h : isFinite n = true
  · refine ⟨fun hnil => ?_, ?_⟩
    · have hliteral := isNumberLiteral_toText h
      rw [hnil] at hliteral
      cases hliteral
    · by_cases hzero : scaled n = 0
      · rw [toText_of_zero h hzero]
        exact not_delimiter_of_all rfl
      · have hsign : (minusSign (isNegative n)).all (!isDelimiter ·) = true := by
          cases isNegative n <;> rfl
        rw [toText_of_ne_zero h hzero]
        exact List.forall_mem_append.mpr
          ⟨not_delimiter_of_all hsign, fun u hu => (Decimal.toText_units _ u hu).not_delimiter⟩
  · rw [toText]
    by_cases hnan : isNaN n = true
    · simp only [hnan, if_true]
      exact ⟨List.cons_ne_nil _ _, not_delimiter_of_all rfl⟩
    · simp only [hnan, h, if_true, Bool.not_false, Bool.false_eq_true, if_false]
      cases isNegative n <;> exact ⟨List.cons_ne_nil _ _, not_delimiter_of_all rfl⟩

/-- A number that is not finite has the text of a symbol. -/
theorem isNumberLiteral_toText_of_not_finite {n : Number} (h : isFinite n = false) :
    isNumberLiteral (toText n) = false := by
  rw [toText]
  by_cases hnan : isNaN n = true
  · simp only [hnan, if_true]
    decide +kernel
  · simp only [hnan, h, if_false, if_true, Bool.not_false, Bool.false_eq_true]
    cases isNegative n <;> decide +kernel

/-- A zero has the same text with and without its sign. -/
theorem toText_unsignedZero {n : Number} (h : isFinite n = true) :
    toText (unsignedZero n) = toText n := by
  rw [unsignedZero]
  split
  · rw [toText_of_zero h ‹_›]
    exact toText_of_zero (by decide +kernel) (by decide +kernel)
  · rfl

end Number

end ConsoleLisp
