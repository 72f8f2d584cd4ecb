import ConsoleLisp.Diagnostic
import ConsoleLisp.Proofs.Number.Numeral

/-!
# Places at the end of a message

A message tells its place behind its notice, and whoever wants the notice alone drops what ends the
message in the form of a place. `placeText line column` is that form.

Results:
* `isPlaceSuffix_iff`: what the test for a place accepts.
* **`withoutPlace_append`**: behind any text at all exactly the place is dropped.
* **`withoutPlace_eq_iff`**: what is dropped from a text, whether it ends in a place or not.
* `endsInPlace_append_placeText_iff`: a line and a column that are no digits are no place.
-/

namespace ConsoleLisp

theorem isDigits_iff {t : Text} : IsDigits t ↔ t ≠ [] ∧ t.all CodeUnit.isDigit = true := by
  rw [IsDigits, List.all_eq_true]

/-- What stands behind a leading part. -/
theorem Text.after?_eq_some_iff {part t rest : Text} :
    Text.after? part t = some rest ↔ t = part ++ rest := by
  induction part generalizing t with
  | nil =>
    rw [Text.after?, Option.some.injEq]
    exact Iff.rfl
  | cons p part ih =>
    cases t with
    | nil =>
      constructor
      · intro h
        cases h
      · intro h
        cases h
    | cons u t =>
      rw [Text.after?, List.cons_append, List.cons.injEq]
      split
      · rw [ih]
        exact (and_iff_right (Eq.symm ‹_›)).symm
      · constructor
        · intro h
          cases h
        · exact fun h => absurd h.1.symm ‹_›

/-! ## The form of a place -/

/-- A line and a column, as they end a message. -/
def placeText (line column : Text) : Text := text " at " ++ line ++ unit ':' :: column

/-- The text is a place as it ends a message. -/
def IsPlaceText (t : Text) : Prop :=
  ∃ line column, IsDigits line ∧ IsDigits column ∧ t = placeText line column

theorem Location.suffix_eq (place : Location) :
    place.suffix = placeText (decimal place.line) (decimal place.column) := rfl

theorem Place.suffix_eq (place : Place) :
    place.suffix = placeText (Number.toText place.line) (Number.toText place.column) := rfl

theorem isDigit_colon : (unit ':').isDigit = false := by decide

/-- **What the test for a place accepts.** -/
theorem isPlaceSuffix_iff {t : Text} : isPlaceSuffix t = true ↔ IsPlaceText t := by
  have hcolon : ¬ (unit ':').isDigit = true := by rw [isDigit_colon]; exact Bool.false_ne_true
  unfold isPlaceSuffix
  constructor
  · intro h
    cases hafter : Text.after? (text " at ") t with
    | none =>
      rw [hafter] at h
      cases h
    | some found =>
      rw [hafter] at h
      dsimp only at h
      rw [Bool.and_eq_true, decide_eq_true_eq] at h
      obtain ⟨hline, h⟩ := h
      cases hrest : found.dropWhile CodeUnit.isDigit with
      | nil =>
        rw [hrest] at h
        cases h
      | cons u column =>
        rw [hrest] at h
        dsimp only at h
        rw [Bool.and_eq_true, Bool.and_eq_true, beq_iff_eq, decide_eq_true_eq] at h
        obtain ⟨⟨rfl, hne⟩, hcolumn⟩ := h
        refine ⟨found.takeWhile CodeUnit.isDigit, column, ⟨hline, ?_⟩, isDigits_iff.mpr ⟨hne, hcolumn⟩,
          ?_⟩
        · exact fun u hu => List.mem_takeWhile_imp hu
        · rw [Text.after?_eq_some_iff.mp hafter, placeText, List.append_assoc, ← hrest,
            List.takeWhile_append_dropWhile]
  · rintro ⟨line, column, hline, hcolumn, rfl⟩
    have hafter : Text.after? (text " at ") (placeText line column) =
        some (line ++ unit ':' :: column) :=
      Text.after?_eq_some_iff.mpr (List.append_assoc ..)
    rw [hafter]
    dsimp only
    rw [List.takeWhile_append_of_pos hline.2, List.dropWhile_append_of_pos hline.2,
      List.takeWhile_cons_of_neg hcolon, List.dropWhile_cons_of_neg hcolon, List.append_nil]
    dsimp only
    rw [decide_eq_true hline.1, decide_eq_true hcolumn.1, beq_self_eq_true,
      (isDigits_iff.mp hcolumn).2]
    rfl

/-- There are two spaces in a place, the first of them in front. -/
theorem IsPlaceText.count_space {t : Text} (h : IsPlaceText t) : t.count (unit ' ') = 2 := by
  have hnone : ∀ {digits : Text}, IsDigits digits → digits.count (unit ' ') = 0 := by
    intro digits hdigits
    refine List.count_eq_zero.mpr fun hmem => ?_
    have hspace := hdigits.2 _ hmem
    revert hspace
    decide
  obtain ⟨line, column, hline, hcolumn, rfl⟩ := h
  rw [placeText, List.count_append, List.count_append, List.count_cons, hnone hline, hnone hcolumn]
  rfl

theorem IsPlaceText.exists_cons {t : Text} (h : IsPlaceText t) : ∃ rest, t = unit ' ' :: rest := by
  obtain ⟨line, column, -, -, rfl⟩ := h
  exact ⟨_, rfl⟩

/-! ## Dropping a place -/

theorem withoutPlace_cons_of_isPlaceText {u : CodeUnit} {rest : Text}
    (h : IsPlaceText (u :: rest)) : withoutPlace (u :: rest) = [] := by
  rw [withoutPlace, if_pos (isPlaceSuffix_iff.mpr h)]

theorem withoutPlace_cons_of_not {u : CodeUnit} {rest : Text} (h : ¬ IsPlaceText (u :: rest)) :
    withoutPlace (u :: rest) = u :: withoutPlace rest := by
  rw [withoutPlace, if_neg (mt isPlaceSuffix_iff.mp h)]

/-- **Behind any text exactly the place is dropped**, whatever the text ends in itself: a match that
starts earlier would have a third space. -/
theorem withoutPlace_append (before : Text) {place : Text} (h : IsPlaceText place) :
    withoutPlace (before ++ place) = before := by
  induction before with
  | nil =>
    obtain ⟨rest, rfl⟩ := h.exists_cons
    exact withoutPlace_cons_of_isPlaceText h
  | cons u before ih =>
    have hnot : ¬ IsPlaceText (u :: (before ++ place)) := by
      intro hmatch
      obtain ⟨rest, heq⟩ := hmatch.exists_cons
      have hcount := hmatch.count_space
      rw [List.count_cons, List.count_append, h.count_space, (List.cons.inj heq).1,
        beq_self_eq_true, if_pos rfl] at hcount
      omega
    rw [List.cons_append, withoutPlace_cons_of_not hnot, ih]

/-- The text ends in a place. -/
def EndsInPlace (t : Text) : Prop := ∃ before place, t = before ++ place ∧ IsPlaceText place

/-- A text that does not end in a place stays as it is. -/
theorem withoutPlace_of_not_endsInPlace {t : Text} (h : ¬ EndsInPlace t) : withoutPlace t = t := by
  induction t with
  | nil => rfl
  | cons u rest ih =>
    have hnot : ¬ IsPlaceText (u :: rest) := fun hplace => h ⟨[], _, rfl, hplace⟩
    rw [withoutPlace_cons_of_not hnot, ih]
    rintro ⟨before, place, rfl, hplace⟩
    exact h ⟨u :: before, place, rfl, hplace⟩

/-- **What is dropped from a text**: the place at its end, or nothing when it does not end in one. -/
theorem withoutPlace_eq_iff {t kept : Text} : withoutPlace t = kept ↔
    (∃ place, IsPlaceText place ∧ t = kept ++ place) ∨ kept = t ∧ ¬ EndsInPlace t := by
  constructor
  · rintro rfl
    by_cases hends : EndsInPlace t
    · obtain ⟨before, place, rfl, hplace⟩ := hends
      rw [withoutPlace_append before hplace]
      exact .inl ⟨place, hplace, rfl⟩
    · exact .inr ⟨withoutPlace_of_not_endsInPlace hends, hends⟩
  · rintro (⟨place, hplace, rfl⟩ | ⟨rfl, hnone⟩)
    · exact withoutPlace_append kept hplace
    · exact withoutPlace_of_not_endsInPlace hnone

/-- A text stays as it is exactly when it does not end in a place. -/
theorem withoutPlace_eq_self_iff {t : Text} : withoutPlace t = t ↔ ¬ EndsInPlace t := by
  rw [withoutPlace_eq_iff]
  constructor
  · rintro (⟨place, hplace, heq⟩ | ⟨-, hnone⟩)
    · obtain ⟨rest, rfl⟩ := hplace.exists_cons
      exact absurd (List.self_eq_append_right.mp heq) (List.cons_ne_nil _ _)
    · exact hnone
  · exact fun hnone => .inr ⟨rfl, hnone⟩

/-! ## Lines and columns that are no digits -/

/-- The last occurrence of a unit is in one place. -/
theorem split_at_last {u : CodeUnit} {before before' behind behind' : Text} (h : u ∉ behind)
    (h' : u ∉ behind') (heq : before ++ u :: behind = before' ++ u :: behind') :
    before = before' ∧ behind = behind' := by
  have hnone : ∀ {between rest rest' : Text}, u ∉ rest → u :: rest = between ++ u :: rest' →
      between = [] := by
    intro between rest rest' hrest hsplit
    cases between with
    | nil => rfl
    | cons v between =>
      rw [List.cons_append, List.cons.injEq] at hsplit
      exact absurd (hsplit.2 ▸ List.mem_append_right between List.mem_cons_self) hrest
  rcases List.append_eq_append_iff.mp heq with ⟨between, rfl, hsplit⟩ | ⟨between, rfl, hsplit⟩
  · obtain rfl := hnone h hsplit
    rw [List.append_nil]
    exact ⟨rfl, (List.cons.inj hsplit).2⟩
  · obtain rfl := hnone h' hsplit
    rw [List.append_nil]
    exact ⟨rfl, (List.cons.inj hsplit).2.symm⟩

/-- **A line and a column are a place when both are digits**, for any texts without the units that
part them. -/
theorem endsInPlace_append_placeText_iff {notice line column : Text} (hline : unit ' ' ∉ line)
    (hcolumn : unit ':' ∉ column) :
    EndsInPlace (notice ++ placeText line column) ↔ IsDigits line ∧ IsDigits column := by
  have hsplit : ∀ notice line column : Text, notice ++ placeText line column =
      (notice ++ text " at" ++ unit ' ' :: line) ++ unit ':' :: column := by
    intro notice line column
    have hat : text " at " = text " at" ++ [unit ' '] := by decide
    simp [placeText, hat]
  constructor
  · rintro ⟨before, _, heq, line', column', hline', hcolumn', rfl⟩
    rw [hsplit, hsplit] at heq
    obtain ⟨hfront, rfl⟩ := split_at_last hcolumn (hcolumn'.notMem isDigit_colon) heq
    obtain ⟨-, rfl⟩ := split_at_last hline (hline'.notMem (by decide)) hfront
    exact ⟨hline', hcolumn'⟩
  · rintro ⟨hline, hcolumn⟩
    exact ⟨notice, _, rfl, line, column, hline, hcolumn, rfl⟩

end ConsoleLisp
