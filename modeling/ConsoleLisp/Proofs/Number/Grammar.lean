import ConsoleLisp.Number.Literal
import Mathlib.Data.List.TakeWhile
import Mathlib.Tactic.SplitIfs

/-!
# The grammar of number literals

A number literal is an optional sign, a decimal and an optional exponent, one behind the other, and
nothing else. `Literal.IsWrittenAs` is this grammar, with the parts that a text gives. The parser
cuts as much as it can from the front of a text; this is the only cut that fits, since no part
begins with a unit that would make the part in front of it longer.

Results:
* `exponentPart?_eq_some_iff`: which texts are an exponent.
* **`parse?_eq_some_iff`**: the parser accepts the texts of the grammar and gives their parts.
* `IsWrittenAs.unique`: no text is cut in two ways.
* `IsWrittenAs.units`, `IsWrittenAs.count_point_le`, **`IsWrittenAs.sign_place`**: which units a
  literal has, and where its signs are.
-/

namespace ConsoleLisp

/-! ## Digits, signs and marks -/

theorem isDigit_iff {u : CodeUnit} : u.isDigit = true ↔ 48 ≤ u.toNat ∧ u.toNat ≤ 57 := by
  rw [CodeUnit.isDigit, Bool.and_eq_true, decide_eq_true_eq, decide_eq_true_eq]
  exact Iff.rfl

/-- Some decimal digits and nothing else. -/
def IsDigits (t : Text) : Prop := t ≠ [] ∧ ∀ u ∈ t, u.isDigit = true

theorem IsDigits.notMem {t : Text} (h : IsDigits t) {u : CodeUnit} (hu : u.isDigit = false) :
    u ∉ t := by
  intro hmem
  cases (h.2 u hmem).symm.trans hu

/-- What may stand behind the digits of a literal: no digit and no point. -/
def IsExponentPart (t : Text) : Prop :=
  ∀ u rest, t = u :: rest → u.isDigit = false ∧ u ≠ unit '.'

/-- A plus or a minus. -/
def IsSign (u : CodeUnit) : Prop := u = unit '-' ∨ u = unit '+'

/-- The letter in front of an exponent. -/
def IsMark (u : CodeUnit) : Prop := u = unit 'e' ∨ u = unit 'E'

/-- A unit that number literals are made of. -/
def IsLiteralUnit (u : CodeUnit) : Prop :=
  u.isDigit = true ∨ u = unit '.' ∨ IsSign u ∨ IsMark u

theorem IsSign.isDigit_eq {u : CodeUnit} (h : IsSign u) : u.isDigit = false := by
  rcases h with rfl | rfl <;> decide

theorem IsMark.isDigit_eq {u : CodeUnit} (h : IsMark u) : u.isDigit = false := by
  rcases h with rfl | rfl <;> decide

theorem IsMark.ne_point {u : CodeUnit} (h : IsMark u) : u ≠ unit '.' := by
  rcases h with rfl | rfl <;> decide

theorem IsMark.not_isSign {u : CodeUnit} (h : IsMark u) : ¬ IsSign u := by
  rcases h with rfl | rfl <;> exact fun h => h.elim (absurd · (by decide)) (absurd · (by decide))

theorem not_isSign_of_isDigit {u : CodeUnit} (h : u.isDigit = true) : ¬ IsSign u := by
  intro hsign
  cases h.symm.trans hsign.isDigit_eq

theorem not_isSign_point : ¬ IsSign (unit '.') :=
  fun h => h.elim (absurd · (by decide)) (absurd · (by decide))

namespace Literal

variable {t rest before after : Text} {u : CodeUnit} {l : Literal}

/-! ## The grammar -/

/-- An optional sign, and whether it is a minus. -/
inductive WritesSign : Bool → Text → Prop
  | absent : WritesSign false []
  | plus : WritesSign false [unit '+']
  | minus : WritesSign true [unit '-']

/-- A decimal, with the digits in front of its point and those behind it: one or more digits, with a
point and zero or more digits behind them or not, or a point and one or more digits. -/
inductive WritesDecimal : Text → Text → Text → Prop
  | whole {whole : Text} : IsDigits whole → WritesDecimal whole [] whole
  | pointed {whole fraction : Text} : IsDigits whole → (∀ u ∈ fraction, u.isDigit = true) →
      WritesDecimal whole fraction (whole ++ unit '.' :: fraction)
  | fraction {fraction : Text} : IsDigits fraction →
      WritesDecimal [] fraction (unit '.' :: fraction)

/-- The integer that some digits write behind a sign. -/
def signedValue (negative : Bool) (digits : Text) : Int :=
  if negative then -(Text.digitsValue digits : Int) else Text.digitsValue digits

/-- An optional exponent and its value: a mark, an optional sign and one or more digits. -/
inductive WritesExponent : Int → Text → Prop
  | absent : WritesExponent 0 []
  | present {mark : CodeUnit} {negative : Bool} {sign digits : Text} : IsMark mark →
      WritesSign negative sign → IsDigits digits →
      WritesExponent (signedValue negative digits) (mark :: (sign ++ digits))

/-- **The grammar of number literals**: an optional sign, a decimal and an optional exponent. -/
inductive IsWrittenAs (l : Literal) : Text → Prop
  | intro {sign decimal exponent : Text} : WritesSign l.negative sign →
      WritesDecimal l.whole l.fraction decimal → WritesExponent l.exponent exponent →
      IsWrittenAs l (sign ++ (decimal ++ exponent))

/-! ## Signs -/

theorem WritesSign.eq_nil_or {negative : Bool} {sign : Text} (h : WritesSign negative sign) :
    sign = [] ∨ ∃ u, IsSign u ∧ sign = [u] := by
  cases h with
  | absent => exact .inl rfl
  | plus => exact .inr ⟨_, .inr rfl, rfl⟩
  | minus => exact .inr ⟨_, .inl rfl, rfl⟩

/-- A sign is split off in front of what is no sign. -/
theorem WritesSign.splitSign_append {negative : Bool} {sign : Text}
    (h : WritesSign negative sign) (hrest : ∀ u t, rest = u :: t → ¬ IsSign u) :
    splitSign (sign ++ rest) = (negative, rest) := by
  cases h with
  | absent =>
    cases rest with
    | nil => rfl
    | cons u t =>
      have hu := not_or.mp (hrest u t rfl)
      rw [List.nil_append, splitSign, if_neg hu.1, if_neg hu.2]
  | plus => rfl
  | minus => rfl

/-- What is split off from the front of a text is a sign. -/
theorem exists_writesSign (t : Text) :
    ∃ sign, WritesSign (splitSign t).1 sign ∧ t = sign ++ (splitSign t).2 := by
  cases t with
  | nil => exact ⟨[], .absent, rfl⟩
  | cons u t =>
    rw [splitSign]
    split_ifs with hminus hplus
    · exact ⟨_, .minus, hminus ▸ rfl⟩
    · exact ⟨_, .plus, hplus ▸ rfl⟩
    · exact ⟨_, .absent, rfl⟩

/-! ## Decimals -/

theorem splitDigits_append {digits rest : Text} (hdigits : ∀ u ∈ digits, u.isDigit = true)
    (hrest : ∀ u t, rest = u :: t → u.isDigit = false) :
    splitDigits (digits ++ rest) = (digits, rest) := by
  rw [splitDigits, List.takeWhile_append_of_pos hdigits, List.dropWhile_append_of_pos hdigits]
  cases rest with
  | nil => rw [List.takeWhile_nil, List.dropWhile_nil, List.append_nil]
  | cons u t =>
    have hu : ¬ u.isDigit = true := by rw [hrest u t rfl]; exact Bool.false_ne_true
    rw [List.takeWhile_cons_of_neg hu, List.dropWhile_cons_of_neg hu, List.append_nil]

/-- What is split off from the front of a text are digits. -/
theorem of_splitDigits {digits rest : Text} (h : splitDigits t = (digits, rest)) :
    (∀ u ∈ digits, u.isDigit = true) ∧ t = digits ++ rest := by
  obtain ⟨rfl, rfl⟩ := Prod.mk.inj h
  exact ⟨fun u hu => List.mem_takeWhile_imp hu, List.takeWhile_append_dropWhile.symm⟩

theorem splitFraction_of_isExponentPart (h : IsExponentPart rest) :
    splitFraction rest = ([], rest) := by
  cases rest with
  | nil => rfl
  | cons u t => rw [splitFraction, if_neg (h u t rfl).2]

theorem splitFraction_point {fraction : Text} (hfraction : ∀ u ∈ fraction, u.isDigit = true)
    (hrest : IsExponentPart rest) :
    splitFraction (unit '.' :: (fraction ++ rest)) = (fraction, rest) := by
  rw [splitFraction, if_pos rfl, splitDigits_append hfraction fun u t h => (hrest u t h).1]

/-- What is split off from the front of a text is nothing, or a point and digits. -/
theorem of_splitFraction {fraction rest : Text} (h : splitFraction t = (fraction, rest)) :
    fraction = [] ∧ t = rest ∨
      (∀ u ∈ fraction, u.isDigit = true) ∧ t = unit '.' :: (fraction ++ rest) := by
  cases t with
  | nil =>
    obtain ⟨rfl, rfl⟩ := Prod.mk.inj h
    exact .inl ⟨rfl, rfl⟩
  | cons u t =>
    rw [splitFraction] at h
    split_ifs at h with hpoint
    · obtain ⟨hdigits, rfl⟩ := of_splitDigits h
      exact .inr ⟨hdigits, hpoint ▸ rfl⟩
    · obtain ⟨rfl, rfl⟩ := Prod.mk.inj h
      exact .inl ⟨rfl, rfl⟩

/-- A decimal is split into its digits in front of what continues none. -/
theorem WritesDecimal.split {whole fraction decimal : Text}
    (h : WritesDecimal whole fraction decimal) (hrest : IsExponentPart rest) :
    ∃ behind, splitDigits (decimal ++ rest) = (whole, behind) ∧
      splitFraction behind = (fraction, rest) := by
  have hpoint : ∀ u t, unit '.' :: (fraction ++ rest) = u :: t → u.isDigit = false := by
    rintro u t heq
    cases heq
    decide
  cases h with
  | whole hwhole =>
    exact ⟨rest, splitDigits_append hwhole.2 fun u t h => (hrest u t h).1,
      splitFraction_of_isExponentPart hrest⟩
  | pointed hwhole hfraction =>
    refine ⟨unit '.' :: (fraction ++ rest), ?_, splitFraction_point hfraction hrest⟩
    rw [List.append_assoc, List.cons_append, splitDigits_append hwhole.2 hpoint]
  | fraction hfraction =>
    exact ⟨unit '.' :: (fraction ++ rest), splitDigits_append (List.forall_mem_nil _) hpoint,
      splitFraction_point hfraction.2 hrest⟩

/-- Digits that were split off are a decimal, if there are any. -/
theorem exists_writesDecimal {whole fraction behind : Text}
    (hwhole : splitDigits t = (whole, behind)) (hfraction : splitFraction behind = (fraction, rest))
    (hne : ¬ (whole = [] ∧ fraction = [])) :
    ∃ decimal, WritesDecimal whole fraction decimal ∧ t = decimal ++ rest := by
  obtain ⟨hdigits, rfl⟩ := of_splitDigits hwhole
  rcases of_splitFraction hfraction with ⟨rfl, rfl⟩ | ⟨hmore, rfl⟩
  · exact ⟨whole, .whole ⟨fun hnil => hne ⟨hnil, rfl⟩, hdigits⟩, rfl⟩
  · by_cases hnil : whole = []
    · subst hnil
      exact ⟨_, .fraction ⟨fun hnil => hne ⟨rfl, hnil⟩, hmore⟩, rfl⟩
    · exact ⟨_, .pointed ⟨hnil, hdigits⟩ hmore, by rw [List.append_assoc, List.cons_append]⟩

theorem WritesDecimal.not_both_nil {whole fraction decimal : Text}
    (h : WritesDecimal whole fraction decimal) : ¬ (whole = [] ∧ fraction = []) := by
  cases h with
  | whole hwhole => exact fun hnil => hwhole.1 hnil.1
  | pointed hwhole => exact fun hnil => hwhole.1 hnil.1
  | fraction hfraction => exact fun hnil => hfraction.1 hnil.2

theorem WritesDecimal.ne_nil {whole fraction decimal : Text}
    (h : WritesDecimal whole fraction decimal) : decimal ≠ [] := by
  cases h with
  | whole hwhole => exact hwhole.1
  | pointed => exact List.append_ne_nil_of_right_ne_nil _ (List.cons_ne_nil _ _)
  | fraction => exact List.cons_ne_nil _ _

/-- A decimal has digits and points only. -/
theorem WritesDecimal.units {whole fraction decimal : Text}
    (h : WritesDecimal whole fraction decimal) :
    ∀ u ∈ decimal, u.isDigit = true ∨ u = unit '.' := by
  cases h with
  | whole hwhole => exact fun u hu => .inl (hwhole.2 u hu)
  | pointed hwhole hfraction =>
    refine List.forall_mem_append.mpr ⟨fun u hu => .inl (hwhole.2 u hu), ?_⟩
    exact List.forall_mem_cons.mpr ⟨.inr rfl, fun u hu => .inl (hfraction u hu)⟩
  | fraction hfraction =>
    exact List.forall_mem_cons.mpr ⟨.inr rfl, fun u hu => .inl (hfraction.2 u hu)⟩

theorem WritesDecimal.not_isSign {whole fraction decimal : Text}
    (h : WritesDecimal whole fraction decimal) (hu : u ∈ decimal) : ¬ IsSign u := by
  rcases h.units u hu with hdigit | rfl
  · exact not_isSign_of_isDigit hdigit
  · exact not_isSign_point

/-! ## Exponents -/

theorem WritesExponent.isExponentPart {e : Int} (h : WritesExponent e t) : IsExponentPart t := by
  cases h with
  | absent => nofun
  | present hmark =>
    rintro u rest heq
    cases heq
    exact ⟨hmark.isDigit_eq, hmark.ne_point⟩

theorem exponentPart?_mark {mark : CodeUnit} (hmark : IsMark mark) (rest : Text) :
    exponentPart? (mark :: rest) =
      if (splitSign rest).2 ≠ [] ∧ (splitSign rest).2.all CodeUnit.isDigit = true then
        some (signedValue (splitSign rest).1 (splitSign rest).2)
      else none :=
  if_pos hmark

/-- **Which texts are an exponent**, and of which value. -/
theorem exponentPart?_eq_some_iff {e : Int} :
    exponentPart? t = some e ↔ WritesExponent e t := by
  constructor
  · intro h
    cases t with
    | nil =>
      cases h
      exact .absent
    | cons mark rest =>
      by_cases hmark : IsMark mark
      · rw [exponentPart?_mark hmark] at h
        split_ifs at h with hdigits
        obtain ⟨sign, hsign, hrest⟩ := exists_writesSign rest
        have hwritten := WritesExponent.present hmark hsign
          ⟨hdigits.1, List.all_eq_true.mp hdigits.2⟩
        cases h
        rwa [← hrest] at hwritten
      · cases (if_neg hmark).symm.trans h
  · intro h
    cases h with
    | absent => rfl
    | @present mark negative sign digits hmark hsign hdigits =>
      have hstart : ∀ u t, digits = u :: t → ¬ IsSign u := by
        rintro u t rfl
        exact not_isSign_of_isDigit (hdigits.2 u List.mem_cons_self)
      rw [exponentPart?_mark hmark, hsign.splitSign_append hstart]
      exact if_pos ⟨hdigits.1, List.all_eq_true.mpr hdigits.2⟩

/-! ## Literals -/

/-- The parts of a text, from what is split off in front one after another. -/
theorem parse?_eq {negative : Bool} {unsigned whole behind fraction rest : Text}
    (hsign : splitSign t = (negative, unsigned)) (hwhole : splitDigits unsigned = (whole, behind))
    (hfraction : splitFraction behind = (fraction, rest)) :
    parse? t = if whole = [] ∧ fraction = [] then none
      else (exponentPart? rest).map fun exponent => ⟨negative, whole, fraction, exponent⟩ := by
  rw [parse?, hsign]
  simp only [hwhole, hfraction]

/-- **The parser accepts exactly the texts of the grammar** and gives their parts. -/
theorem parse?_eq_some_iff : parse? t = some l ↔ l.IsWrittenAs t := by
  constructor
  · intro h
    obtain ⟨sign, hsign, ht⟩ := exists_writesSign t
    obtain ⟨⟨whole, behind⟩, hwhole⟩ : ∃ parts, splitDigits (splitSign t).2 = parts := ⟨_, rfl⟩
    obtain ⟨⟨fraction, rest⟩, hfraction⟩ : ∃ parts, splitFraction behind = parts := ⟨_, rfl⟩
    rw [parse?_eq rfl hwhole hfraction] at h
    split_ifs at h with hnil
    obtain ⟨e, hexponent, rfl⟩ := Option.map_eq_some_iff.mp h
    obtain ⟨decimal, hdecimal, hunsigned⟩ := exists_writesDecimal hwhole hfraction hnil
    have hwritten : IsWrittenAs ⟨(splitSign t).1, whole, fraction, e⟩ (sign ++ (decimal ++ rest)) :=
      .intro hsign hdecimal (exponentPart?_eq_some_iff.mp hexponent)
    rwa [← hunsigned, ← ht] at hwritten
  · intro h
    cases h with
    | @intro sign decimal exponent hsign hdecimal hexponent =>
      -- no decimal begins with a sign and no exponent with a digit or a point, so each cut is right
      have hstart : ∀ u t, decimal ++ exponent = u :: t → ¬ IsSign u := by
        intro u t heq
        obtain ⟨v, more, rfl⟩ := List.exists_cons_of_ne_nil hdecimal.ne_nil
        cases heq
        exact hdecimal.not_isSign List.mem_cons_self
      obtain ⟨behind, hwhole, hfraction⟩ := hdecimal.split hexponent.isExponentPart
      rw [parse?_eq (hsign.splitSign_append hstart) hwhole hfraction,
        if_neg hdecimal.not_both_nil, exponentPart?_eq_some_iff.mpr hexponent]
      rfl

/-- No text can be cut into the parts of a literal in two ways. -/
theorem IsWrittenAs.unique {l' : Literal} (h : l.IsWrittenAs t) (h' : l'.IsWrittenAs t) : l = l' :=
  Option.some.inj ((parse?_eq_some_iff.mpr h).symm.trans (parse?_eq_some_iff.mpr h'))

theorem isNumberLiteral_of_parse? (h : parse? t = some l) : isNumberLiteral t = true := by
  rw [isNumberLiteral, h]
  rfl

theorem parse?_eq_none_iff : parse? t = none ↔ isNumberLiteral t = false := by
  rw [isNumberLiteral, Option.isSome_eq_false_iff, Option.isNone_iff_eq_none]

theorem isNumberLiteral_iff : isNumberLiteral t = true ↔ ∃ l : Literal, l.IsWrittenAs t := by
  rw [isNumberLiteral, Option.isSome_iff_exists]
  exact exists_congr fun l => parse?_eq_some_iff

/-! ## The units of a literal -/

/-- The text ends in a mark. -/
def EndsInMark (t : Text) : Prop := ∃ start mark, t = start ++ [mark] ∧ IsMark mark

theorem EndsInMark.append (h : EndsInMark t) (before : Text) : EndsInMark (before ++ t) := by
  obtain ⟨start, mark, rfl, hmark⟩ := h
  exact ⟨before ++ start, mark, (List.append_assoc ..).symm, hmark⟩

/-- A unit that is not in the front part of a text is behind it. -/
theorem exists_behind {front : Text} (h : front ++ rest = before ++ u :: after) (hu : u ∉ front) :
    ∃ more, before = front ++ more ∧ rest = more ++ u :: after := by
  rcases List.append_eq_append_iff.mp h with ⟨more, hbefore, hrest⟩ | ⟨more, rfl, hafter⟩
  · exact ⟨more, hbefore, hrest⟩
  · cases more with
    | nil => exact ⟨[], by rw [List.append_nil, List.append_nil], hafter.symm⟩
    | cons v more =>
      cases hafter
      exact absurd (List.mem_append_right before List.mem_cons_self) hu

theorem WritesSign.units {negative : Bool} {sign : Text} (h : WritesSign negative sign) :
    ∀ u ∈ sign, IsSign u := by
  rcases h.eq_nil_or with rfl | ⟨u, hu, rfl⟩
  · nofun
  · exact List.forall_mem_singleton.mpr hu

theorem WritesExponent.units {e : Int} (h : WritesExponent e t) :
    ∀ u ∈ t, u.isDigit = true ∨ IsSign u ∨ IsMark u := by
  cases h with
  | absent => nofun
  | present hmark hsign hdigits =>
    refine List.forall_mem_cons.mpr ⟨.inr (.inr hmark), List.forall_mem_append.mpr ⟨?_, ?_⟩⟩
    · exact fun u hu => .inr (.inl (hsign.units u hu))
    · exact fun u hu => .inl (hdigits.2 u hu)

/-- **A literal has digits, points, signs and marks only.** -/
theorem IsWrittenAs.units (h : l.IsWrittenAs t) : ∀ u ∈ t, IsLiteralUnit u := by
  cases h with
  | intro hsign hdecimal hexponent =>
    refine List.forall_mem_append.mpr ⟨?_, List.forall_mem_append.mpr ⟨?_, ?_⟩⟩
    · exact fun u hu => .inr (.inr (.inl (hsign.units u hu)))
    · exact fun u hu => (hdecimal.units u hu).imp_right .inl
    · exact fun u hu => (hexponent.units u hu).imp_right .inr

theorem WritesDecimal.count_point_le {whole fraction decimal : Text}
    (h : WritesDecimal whole fraction decimal) : decimal.count (unit '.') ≤ 1 := by
  have hdigits : ∀ {digits : Text}, (∀ u ∈ digits, u.isDigit = true) →
      digits.count (unit '.') = 0 := by
    intro digits hdigits
    exact List.count_eq_zero.mpr fun hmem => absurd (hdigits _ hmem) (by decide)
  cases h with
  | whole hwhole => exact (hdigits hwhole.2).le.trans (Nat.zero_le 1)
  | pointed hwhole hfraction =>
    rw [List.count_append, List.count_cons_self, hdigits hwhole.2, hdigits hfraction]
  | fraction hfraction => rw [List.count_cons_self, hdigits hfraction.2]

/-- **A literal has one point at most.** -/
theorem IsWrittenAs.count_point_le (h : l.IsWrittenAs t) : t.count (unit '.') ≤ 1 := by
  cases h with
  | @intro sign decimal exponent hsign hdecimal hexponent =>
    have hfront : sign.count (unit '.') = 0 :=
      List.count_eq_zero.mpr fun hmem => not_isSign_point (hsign.units _ hmem)
    have hbehind : exponent.count (unit '.') = 0 := by
      refine List.count_eq_zero.mpr fun hmem => ?_
      rcases hexponent.units _ hmem with hdigit | hsign | hmark
      · exact absurd hdigit (by decide)
      · exact not_isSign_point hsign
      · exact hmark.ne_point rfl
    rw [List.count_append, List.count_append, hfront, hbehind, Nat.zero_add, Nat.add_zero]
    exact hdecimal.count_point_le

/-- A sign in an exponent stands between its mark and its digits. -/
theorem WritesExponent.sign_place {e : Int} (h : WritesExponent e (before ++ u :: after))
    (hu : IsSign u) : EndsInMark before ∧ IsDigits after := by
  generalize ht : before ++ u :: after = t at h
  cases h with
  | absent => cases List.append_ne_nil_of_right_ne_nil _ (List.cons_ne_nil _ _) ht
  | @present mark negative sign digits hmark hsign hdigits =>
    have hdigit : u ∉ digits := hdigits.notMem hu.isDigit_eq
    have hfront : u ∉ [mark] := by
      rintro hmem
      exact hmark.not_isSign (List.mem_singleton.mp hmem ▸ hu)
    have hcut : [mark] ++ (sign ++ digits) = before ++ u :: after := ht.symm
    obtain ⟨more, rfl, hmore⟩ := exists_behind hcut hfront
    rcases hsign.eq_nil_or with rfl | ⟨v, -, rfl⟩
    · change digits = _ at hmore
      exact absurd (hmore ▸ List.mem_append_right more List.mem_cons_self) hdigit
    · cases more with
      | nil =>
        cases hmore
        exact ⟨⟨[], mark, rfl, hmark⟩, hdigits⟩
      | cons w more =>
        obtain ⟨-, rfl⟩ := List.cons.inj hmore
        exact absurd (List.mem_append_right more List.mem_cons_self) hdigit

/-- **A sign of a literal stands at its start**, or between the mark and the digits of its
exponent. -/
theorem IsWrittenAs.sign_place (h : l.IsWrittenAs (before ++ u :: after)) (hu : IsSign u) :
    before = [] ∨ EndsInMark before ∧ IsDigits after := by
  generalize ht : before ++ u :: after = t at h
  cases h with
  | @intro sign decimal exponent hsign hdecimal hexponent =>
    -- behind its own sign a literal has none in front of its exponent
    have hbehind : ∀ {before : Text}, decimal ++ exponent = before ++ u :: after →
        EndsInMark before ∧ IsDigits after := by
      intro before heq
      obtain ⟨more, rfl, rfl⟩ := exists_behind heq fun hmem => hdecimal.not_isSign hmem hu
      obtain ⟨hmark, hdigits⟩ := hexponent.sign_place hu
      exact ⟨hmark.append decimal, hdigits⟩
    rcases hsign.eq_nil_or with rfl | ⟨v, -, rfl⟩
    · exact .inr (hbehind ht.symm)
    · cases before with
      | nil => exact .inl rfl
      | cons w before =>
        obtain ⟨rfl, htail⟩ := List.cons.inj ht
        obtain ⟨hmark, hdigits⟩ := hbehind htail.symm
        exact .inr ⟨hmark.append [w], hdigits⟩

end Literal

end ConsoleLisp
