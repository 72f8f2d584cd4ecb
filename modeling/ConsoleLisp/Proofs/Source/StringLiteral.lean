import ConsoleLisp.Proofs.Source.Partition
import ConsoleLisp.Proofs.Source.Written

/-!
# String literals

A string literal is units between quotes: `Decodes` says what a sequence of units stands for, each
a character other than a quote and a backslash, or one of the five escapes.

* `IsLongestBody t units`: no longer sequence of units starts the text `t`.
* `Halts t`: no unit starts `t`. It starts with a quote or with a backslash that is no escape, or
  it is at its end, a last backslash aside.
* `Text.replaceAll`: every occurrence of a unit replaced by a text.

Results:
* `isLongestBody_iff`: the longest sequence of units is the one behind which the text halts.
* `quoteString_eq_replaceAll`: a literal is what five replacements make of the string, that of the
  backslash first.
* **`string_literals_decode`**: a literal is decoded unit by unit or refused where its longest
  sequence of units ends, and the literal of every string gives the string back.
-/

namespace ConsoleLisp

/-! ## Sequences of units -/

theorem Decodes.append {units more value rest : Text} (h : Decodes units value)
    (h' : Decodes more rest) : Decodes (units ++ more) (value ++ rest) := by
  induction h with
  | nil => exact h'
  | plain hquote hback _ ih => exact .plain hquote hback ih
  | escaped hletter _ ih => exact .escaped hletter ih

/-- No unit of a literal starts the text. -/
inductive Halts : Text → Prop
  | quote (rest : Text) : Halts (unit '"' :: rest)
  | nothing : Halts []
  | backslash : Halts [unit '\\']
  | noEscape {u : CodeUnit} (rest : Text) : unescape u = none → Halts (unit '\\' :: u :: rest)

theorem Halts.quote_or_backslash {u : CodeUnit} {t : Text} (h : Halts (u :: t)) :
    u = unit '"' ∨ u = unit '\\' := by
  cases h with
  | quote => exact .inl rfl
  | backslash | noEscape => exact .inr rfl

theorem Halts.unescape_eq_none {letter : CodeUnit} {t : Text}
    (h : Halts (unit '\\' :: letter :: t)) : unescape letter = none := by
  generalize hu : unit '\\' = u at h
  cases h with
  | quote => exact absurd hu (by decide)
  | noEscape _ hnone => exact hnone

/-- Every text is units up to a place where it halts. -/
theorem exists_units (t : Text) : ∃ units value rest, t = units ++ rest ∧ Decodes units value ∧
    Halts rest := by
  generalize hn : t.length = n
  induction n using Nat.strongRecOn generalizing t with
  | ind n ih =>
  cases t with
  | nil => exact ⟨[], [], [], rfl, .nil, .nothing⟩
  | cons u t =>
    rw [List.length_cons] at hn
    by_cases hquote : u = unit '"'
    · subst hquote
      exact ⟨[], [], _, rfl, .nil, .quote t⟩
    by_cases hback : u = unit '\\'
    · subst hback
      cases t with
      | nil => exact ⟨[], [], _, rfl, .nil, .backslash⟩
      | cons letter t =>
        rw [List.length_cons] at hn
        cases hletter : unescape letter with
        | none => exact ⟨[], [], _, rfl, .nil, .noEscape t hletter⟩
        | some v =>
          obtain ⟨units, value, rest, rfl, hdecodes, hhalts⟩ := ih t.length (by omega) t rfl
          exact ⟨_, _, rest, rfl, .escaped hletter hdecodes, hhalts⟩
    · obtain ⟨units, value, rest, rfl, hdecodes, hhalts⟩ := ih t.length (by omega) t rfl
      exact ⟨_, _, rest, rfl, .plain hquote hback hdecodes, hhalts⟩

/-- Units in front of a place where the text halts do not go beyond it. -/
theorem Decodes.length_le {units longer value value' rest : Text} (h : Decodes units value)
    (hhalts : Halts rest) (h' : Decodes longer value') (hle : longer <+: units ++ rest) :
    longer.length ≤ units.length := by
  induction h generalizing longer value' with
  | nil =>
    obtain ⟨more, hmore⟩ := hle
    rw [List.nil_append] at hmore
    subst hmore
    cases h' with
    | nil => exact Nat.le_refl _
    | plain hquote hback _ => exact (hhalts.quote_or_backslash.elim hquote hback).elim
    | escaped hletter _ => exact nomatch hletter.symm.trans hhalts.unescape_eq_none
  | plain _ hback _ ih =>
    cases h' with
    | nil => exact Nat.zero_le _
    | plain _ _ h' => exact Nat.succ_le_succ (ih h' (List.cons_prefix_cons.mp hle).2)
    | escaped _ _ => exact absurd (List.cons_prefix_cons.mp hle).1.symm hback
  | escaped _ _ ih =>
    cases h' with
    | nil => exact Nat.zero_le _
    | plain _ hback _ => exact absurd (List.cons_prefix_cons.mp hle).1 hback
    | escaped _ h' =>
      have htail := (List.cons_prefix_cons.mp (List.cons_prefix_cons.mp hle).2).2
      exact Nat.succ_le_succ (Nat.succ_le_succ (ih h' htail))

/-- The longest sequence of units that a text starts with. -/
structure IsLongestBody (t units : Text) : Prop where
  starts : units <+: t
  decodes : ∃ value, Decodes units value
  longest : ∀ longer, longer <+: t → (∃ value, Decodes longer value) →
    longer.length ≤ units.length

/-- **The longest sequence of units is the one behind which the text halts.** -/
theorem isLongestBody_iff {units rest : Text} :
    IsLongestBody (units ++ rest) units ↔ (∃ value, Decodes units value) ∧ Halts rest := by
  constructor
  · rintro ⟨-, ⟨value, hdecodes⟩, hlongest⟩
    obtain ⟨more, value', rest', rfl, hmore, hhalts⟩ := exists_units rest
    have hlength := hlongest (units ++ more) (by simp) ⟨_, hdecodes.append hmore⟩
    rw [List.length_append] at hlength
    obtain rfl : more = [] := List.length_eq_zero_iff.mp (by omega)
    exact ⟨⟨value, hdecodes⟩, hhalts⟩
  · rintro ⟨⟨value, hdecodes⟩, hhalts⟩
    exact ⟨List.prefix_append _ _, ⟨value, hdecodes⟩,
      fun longer hle ⟨_, h⟩ => hdecodes.length_le hhalts h hle⟩

/-! ## The scan of a literal -/

theorem lexeme_doubleQuote (body : Text) (place : Location) :
    (Cursor.lexeme ⟨unit '"' :: body, place⟩).token =
      (stringBody place body (place.advance (unit '"'))).1.map fun value => ⟨.string, value, place,
        (stringBody place body (place.advance (unit '"'))).2.place⟩ := by
  unfold Cursor.lexeme
  rw [skipTrivia_token (by decide) (by decide)]
  rfl

variable {units value : Text}

/-- Units and a closing quote are a literal. -/
theorem Decodes.lexeme_closed (h : Decodes units value) (rest : Text) (place : Location) :
    (Cursor.lexeme ⟨unit '"' :: (units ++ unit '"' :: rest), place⟩).token =
      .ok ⟨.string, value, place, place.after (unit '"' :: (units ++ [unit '"']))⟩ := by
  rw [lexeme_doubleQuote, h.stringBody_closed]
  rfl

/-- A literal whose text is at its end is not closed. -/
theorem Decodes.lexeme_open {rest : Text} (h : Decodes units value)
    (hrest : rest = [] ∨ rest = [unit '\\']) (place : Location) :
    (Cursor.lexeme ⟨unit '"' :: (units ++ rest), place⟩).token =
      .error (.unterminatedString place) := by
  have hopen (p : Location) : (stringBody place rest p).1 = .error (.unterminatedString place) := by
    rcases hrest with rfl | rfl
    · rfl
    · rw [stringBody.eq_def]
      simp [show unit '\\' ≠ unit '"' by decide]
  rw [lexeme_doubleQuote, h.stringBody_append, hopen]
  rfl

/-- A backslash in front of what it does not escape. -/
theorem Decodes.lexeme_noEscape {u : CodeUnit} (h : Decodes units value) (hu : unescape u = none)
    (rest : Text) (place : Location) :
    (Cursor.lexeme ⟨unit '"' :: (units ++ unit '\\' :: u :: rest), place⟩).token =
      .error (.invalidEscape u (place.after (unit '"' :: (units ++ [unit '\\'])))) := by
  have hrefused (p : Location) : (stringBody place (unit '\\' :: u :: rest) p).1 =
      .error (.invalidEscape u (p.advance (unit '\\'))) := by
    rw [stringBody, if_neg (by decide), if_pos rfl]
    simp [hu]
  rw [lexeme_doubleQuote, h.stringBody_append, hrefused, ← Location.after_singleton]
  rfl

/-- The place of a lexical error is counted right. -/
theorem Cursor.StandsIn.isAt_error {c : Cursor} {t : Text} {error : LexicalError}
    (h : c.StandsIn t) (herror : c.lexeme.token = .error error) : t.IsAt error.location := by
  obtain ⟨gap, body, hrest, hliteral⟩ := exists_of_lexeme_error herror
  obtain ⟨units, value, rest, rfl, hdecodes, hhalts⟩ := exists_units body
  cases hhalts with
  | quote rest => cases (hdecodes.lexeme_closed rest _).symm.trans hliteral
  | nothing =>
    cases (hdecodes.lexeme_open (.inl rfl) _).symm.trans hliteral
    exact h.isAt_after hrest
  | backslash =>
    cases (hdecodes.lexeme_open (.inr rfl) _).symm.trans hliteral
    exact h.isAt_after hrest
  | @noEscape u rest hnone =>
    cases (hdecodes.lexeme_noEscape hnone rest _).symm.trans hliteral
    have hsplit : c.rest = (gap ++ unit '"' :: (units ++ [unit '\\'])) ++ u :: rest := by
      rw [hrest]
      simp
    rw [LexicalError.location, ← Location.after_append]
    exact h.isAt_after hsplit

/-! ## The literal of a string -/

/-- Every occurrence of a unit replaced by a text. -/
def Text.replaceAll (t : Text) (u : CodeUnit) (written : Text) : Text :=
  t.flatMap fun v => if v = u then written else [v]

/-- **A literal is the string after five replacements, one after another.** The first one is that
of the backslash: each of the others brings new ones in. -/
theorem quoteString_eq_replaceAll (value : Text) :
    quoteString value = (((((value.replaceAll (unit '\\') (text "\\\\")).replaceAll
      (unit '"') (text "\\\"")).replaceAll (unit '\n') (text "\\n")).replaceAll
      (unit '\r') (text "\\r")).replaceAll (unit '\t') (text "\\t")).inDoubleQuotes := by
  rw [quoteString_eq]
  unfold Text.replaceAll
  simp only [List.flatMap_assoc]
  show Text.inDoubleQuotes (value.flatMap escape) = _
  congr 2
  funext u
  by_cases h : u = unit '\\' ∨ u = unit '"' ∨ u = unit '\n' ∨ u = unit '\r' ∨ u = unit '\t'
  · rcases h with rfl | rfl | rfl | rfl | rfl <;> decide
  · simp only [not_or] at h
    obtain ⟨hback, hquote, hfeed, hreturn, htab⟩ := h
    simp [escape, hback, hquote, hfeed, hreturn, htab]

/-- The literal of a string is the only token of its text. -/
theorem tokenize_quoteString (value : Text) :
    tokenize (quoteString value) = .ok [
      ⟨.string, value, .start, Location.start.after (quoteString value)⟩,
      ⟨.endOfText, [], Location.start.after (quoteString value),
        Location.start.after (quoteString value)⟩] := by
  obtain ⟨read, hread, htokens⟩ := lexes_quoteString value [] .start
  rw [List.append_nil, lexemes_eq ⟨[], _⟩] at hread
  rw [tokenize, scan_eq_lexemes, Cursor.ofText, hread]
  obtain ⟨lexeme, rfl, hlexeme⟩ := List.map_eq_singleton_iff.mp htokens
  rw [List.singleton_append, List.mapM_cons, hlexeme]
  rfl

/-! ## Decoding -/

/-- **String literals decode exactly.** From an opening quote on, with `before` in front of it and
`body` behind it, a token is read if and only if units and a closing quote follow, and it has the
value of the units and spans them with their quotes. Otherwise the longest sequence of units is not
followed by a quote, and the literal is refused: at the unit behind the backslash that follows, or
as not closed, at its opening quote, when the text ends there or with that backslash. The literal of
a string, made by five replacements, is one token with the string as its value. -/
theorem string_literals_decode (before body : Text) :
    let opened := Location.start.after before
    let read := (Cursor.lexeme ⟨unit '"' :: body, opened⟩).token
    (∀ token, read = .ok token ↔ ∃ units value rest, body = units ++ unit '"' :: rest ∧
      Decodes units value ∧ token = ⟨.string, value, opened,
        Location.start.after (before ++ unit '"' :: (units ++ [unit '"']))⟩) ∧
    (∃ units, IsLongestBody body units) ∧
    (∀ units rest, IsLongestBody body units → body = units ++ rest →
      ((∃ more, rest = unit '"' :: more) ∨ (∃ u more, rest = unit '\\' :: u :: more) ∨
        rest = [] ∨ rest = [unit '\\']) ∧
      (∀ u more, rest = unit '\\' :: u :: more → ∃ error, read = .error error ∧
        error.code = .invalidEscape ∧ error.location =
          Location.start.after (before ++ unit '"' :: (units ++ [unit '\\']))) ∧
      (rest = [] ∨ rest = [unit '\\'] → ∃ error, read = .error error ∧
        error.code = .unterminatedString ∧ error.location = opened)) ∧
    ∀ value, quoteString value = (((((value.replaceAll (unit '\\') (text "\\\\")).replaceAll
        (unit '"') (text "\\\"")).replaceAll (unit '\n') (text "\\n")).replaceAll
        (unit '\r') (text "\\r")).replaceAll (unit '\t') (text "\\t")).inDoubleQuotes ∧
      tokenize (quoteString value) = .ok [
        ⟨.string, value, .start, Location.start.after (quoteString value)⟩,
        ⟨.endOfText, [], Location.start.after (quoteString value),
          Location.start.after (quoteString value)⟩] := by
  intro opened read
  refine ⟨fun token => ⟨fun h => ?_, ?_⟩, ?_, fun units rest hlongest hbody => ?_, fun value =>
    ⟨quoteString_eq_replaceAll value, tokenize_quoteString value⟩⟩
  · obtain ⟨units, value, rest, rfl, hdecodes, hhalts⟩ := exists_units body
    cases hhalts with
    | quote rest =>
      have hread := hdecodes.lexeme_closed rest opened
      rw [← Location.after_append] at hread
      exact ⟨units, value, rest, rfl, hdecodes, Except.ok.inj (h.symm.trans hread)⟩
    | nothing => exact nomatch h.symm.trans (hdecodes.lexeme_open (.inl rfl) opened)
    | backslash => exact nomatch h.symm.trans (hdecodes.lexeme_open (.inr rfl) opened)
    | noEscape rest hnone => exact nomatch h.symm.trans (hdecodes.lexeme_noEscape hnone rest opened)
  · rintro ⟨units, value, rest, rfl, hdecodes, rfl⟩
    rw [Location.after_append]
    exact hdecodes.lexeme_closed rest opened
  · obtain ⟨units, value, rest, rfl, hdecodes, hhalts⟩ := exists_units body
    exact ⟨units, isLongestBody_iff.mpr ⟨⟨value, hdecodes⟩, hhalts⟩⟩
  · subst hbody
    obtain ⟨⟨value, hdecodes⟩, hhalts⟩ := isLongestBody_iff.mp hlongest
    refine ⟨?_, ?_, fun hrest => ⟨_, hdecodes.lexeme_open hrest opened, rfl, rfl⟩⟩
    · cases hhalts with
      | quote more => exact .inl ⟨more, rfl⟩
      | nothing => exact .inr (.inr (.inl rfl))
      | backslash => exact .inr (.inr (.inr rfl))
      | noEscape more _ => exact .inr (.inl ⟨_, more, rfl⟩)
    · rintro u more rfl
      refine ⟨_, hdecodes.lexeme_noEscape hhalts.unescape_eq_none more opened, rfl, ?_⟩
      rw [Location.after_append]
      rfl

/-- A literal with an escape that there is not, behind an open list. -/
theorem string_literals_decode_no_escape :
    IsLongestBody (text "a\\n\\qz\"") (text "a\\n") ∧ ∃ error,
      (Cursor.lexeme ⟨unit '"' :: text "a\\n\\qz\"", Location.start.after [unit '(']⟩).token =
        .error error ∧ error.code = .invalidEscape ∧ error.location = ⟨1, 7, 6⟩ := by
  have hdecodes : Decodes (text "a\\n") [unit 'a', unit '\n'] :=
    .plain (by decide) (by decide) (.escaped (by decide) .nil)
  have hlongest : IsLongestBody (text "a\\n" ++ text "\\qz\"") (text "a\\n") :=
    isLongestBody_iff.mpr ⟨⟨_, hdecodes⟩, .noEscape _ (by decide)⟩
  have hresult := (string_literals_decode [unit '('] (text "a\\n\\qz\"")).2.2.1 _ _ hlongest rfl
  exact ⟨hlongest, hresult.2.1 _ _ rfl⟩

end ConsoleLisp
