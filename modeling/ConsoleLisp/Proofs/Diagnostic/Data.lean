import ConsoleLisp.Proofs.Diagnostic.Place
import ConsoleLisp.Proofs.Number.Whole

/-!
# The data of a diagnostic

A diagnostic is built from a code, a message, a place and a context, and gives these back to a host.
`BuiltFrom d given` says what each of the five kinds is built from. The message is kept with the
place behind it, and is given back without whatever place it then ends in, so a message that ends in
a place of its own is cut.

Results:
* `BuiltFrom.data_eq`: the code, the place and the context are given back as they were.
* `withoutPlace_append_suffix`: the place behind a message is dropped when it is written in digits.
* **`data_given_back`**: which message is given back, and when it is the one that was given.
-/

namespace ConsoleLisp

variable {γ : Type}

/-- The message with the place behind it. -/
def DiagnosticData.placed (given : DiagnosticData γ) : Text :=
  given.message ++ match given.place with
    | some place => place.suffix
    | none => []

/-- The parts that a diagnostic is built from. -/
inductive Diagnostic.BuiltFrom : Diagnostic γ → DiagnosticData γ → Prop
  | general (code : ErrorCode) (message : Text) (place : Option Place) (context : Option γ) :
      BuiltFrom (.general code message place context) ⟨code, message, place, context.map .given⟩
  | parse (code : ErrorCode) (message : Text) (place : Place) (context : Option γ) :
      BuiltFrom (.parse code message place context) ⟨code, message, some place, context.map .given⟩
  | lexical (code : ErrorCode) (message : Text) (place : Place) (context : Option γ) :
      BuiltFrom (.lexical code message place context)
        ⟨code, message, some place, context.map .given⟩
  | heap (code : ErrorCode) (message : Text) (context : Option γ) :
      BuiltFrom (.heap code message context) ⟨code, message, none, context.map .given⟩
  | configuration (code : ErrorCode) (message path : Text) :
      BuiltFrom (.configuration code message path) ⟨code, message, none, some (.path path)⟩

namespace Diagnostic

variable {d : Diagnostic γ} {given : DiagnosticData γ}

/-- **The code, the place and the context are given back**, and the message without a place. -/
theorem BuiltFrom.data_eq (h : BuiltFrom d given) :
    d.data = { given with message := withoutPlace given.placed } := by
  cases h <;> rfl

/-- No unit of a numeral parts a line from a column. -/
theorem notMem_toText {n : Number} (h : n.isFinite = true) :
    unit ' ' ∉ n.toText ∧ unit ':' ∉ n.toText := by
  have hnone : ∀ u : CodeUnit, u.isDigit = false → u ∉ [unit '.', unit 'e', unit '+', unit '-'] →
      u ∉ n.toText := by
    intro u hdigit hother hmem
    rcases Number.toText_units h u hmem with hu | hu
    · cases hdigit.symm.trans hu
    · exact hother hu
  exact ⟨hnone _ (by decide) (by decide), hnone _ (by decide) (by decide)⟩

/-- **The place behind a message is dropped** when its line and its column are below `10 ^ 21`, and
otherwise stays, since it is not written in digits. -/
theorem withoutPlace_append_suffix (message : Text) {place : Place} {line column : Nat}
    (hline : place.line.IsCount line) (hcolumn : place.column.IsCount column) :
    (line < Nat.pow 10 21 ∧ column < Nat.pow 10 21 →
      withoutPlace (message ++ place.suffix) = message) ∧
    (¬ (line < Nat.pow 10 21 ∧ column < Nat.pow 10 21) →
      withoutPlace (message ++ place.suffix) = message ++ place.suffix) := by
  rw [← Number.isDigits_toText_iff hline, ← Number.isDigits_toText_iff hcolumn]
  rw [Place.suffix_eq]
  constructor
  · rintro ⟨hdigits, hdigits'⟩
    exact withoutPlace_append message ⟨_, _, hdigits, hdigits', rfl⟩
  · intro hnot
    rw [withoutPlace_eq_self_iff, endsInPlace_append_placeText_iff
      (notMem_toText hline.finite).1 (notMem_toText hcolumn.finite).2]
    exact hnot

/-- **What a diagnostic gives back.** The code, the place and the context always are what it was
built from. With a place at a line and a column below `10 ^ 21` the message is too; a larger one is
not written in digits, and stays behind the message. Without a place the message is given back when
it does not end in one, and otherwise without that ending. -/
theorem data_given_back (h : BuiltFrom d given) :
    d.data = { given with message := d.data.message } ∧
    (∀ place line column, given.place = some place → place.line.IsCount line →
      place.column.IsCount column →
      (line < Nat.pow 10 21 ∧ column < Nat.pow 10 21 → d.data = given) ∧
      (¬ (line < Nat.pow 10 21 ∧ column < Nat.pow 10 21) →
        d.data.message = given.message ++ place.suffix)) ∧
    (given.place = none →
      (¬ EndsInPlace given.message → d.data = given) ∧
      ∀ kept ending, given.message = kept ++ ending → IsPlaceText ending →
        d.data.message = kept) := by
  have hdata := h.data_eq
  refine ⟨by rw [hdata], fun place line column hplace hline hcolumn => ?_, fun hplace => ?_⟩
  · have hplaced : given.placed = given.message ++ place.suffix := by
      rw [DiagnosticData.placed, hplace]
    obtain ⟨hsmall, hlarge⟩ := withoutPlace_append_suffix given.message hline hcolumn
    rw [hdata, hplaced]
    exact ⟨fun hless => by rw [hsmall hless], hlarge⟩
  · have hplaced : given.placed = given.message := by
      rw [DiagnosticData.placed, hplace, List.append_nil]
    rw [hdata, hplaced]
    refine ⟨fun hnone => by rw [withoutPlace_of_not_endsInPlace hnone], ?_⟩
    rintro kept ending heq hending
    show withoutPlace given.message = kept
    rw [heq, withoutPlace_append kept hending]

/-- A message with a place of its own, and a place behind it. -/
theorem data_given_back_parse :
    let place : Place := ⟨Number.ofNat 3, Number.ofNat 14, Number.ofNat 20⟩
    let given : DiagnosticData Unit := ⟨.unbalanced, text "Unexpected ')' at 1:1", some place, none⟩
    BuiltFrom (.parse given.code given.message place none) given ∧
      (Number.ofNat 3).IsCount 3 ∧ (Number.ofNat 14).IsCount 14 ∧
      (Diagnostic.parse given.code given.message place (none : Option Unit)).data = given := by
  intro place given
  have hbuilt : BuiltFrom (.parse given.code given.message place none) given := .parse _ _ _ _
  have hline : (Number.ofNat 3).IsCount 3 :=
    ⟨by decide +kernel, by decide +kernel, by decide +kernel⟩
  have hcolumn : (Number.ofNat 14).IsCount 14 :=
    ⟨by decide +kernel, by decide +kernel, by decide +kernel⟩
  obtain ⟨-, hplaced, -⟩ := data_given_back hbuilt
  exact ⟨hbuilt, hline, hcolumn, (hplaced place 3 14 rfl hline hcolumn).1 ⟨by decide, by decide⟩⟩

/-- The key of a configuration that looks like a place is lost from the message. -/
theorem data_ne_given_configuration :
    let given : DiagnosticData Unit := ⟨.configurationInvalid,
      text "Invalid configuration: unknown key x at 1:2", none, some (.path (text ".cinder.yaml"))⟩
    let d : Diagnostic Unit := .configuration given.code given.message (text ".cinder.yaml")
    BuiltFrom d given ∧ d.data.message = text "Invalid configuration: unknown key x" ∧
      d.data ≠ given := by
  intro given d
  have hmessage : d.data.message = text "Invalid configuration: unknown key x" := by
    decide +kernel
  refine ⟨.configuration _ _ _, hmessage, fun hsame => ?_⟩
  rw [hsame] at hmessage
  revert hmessage
  decide +kernel

end Diagnostic

end ConsoleLisp
