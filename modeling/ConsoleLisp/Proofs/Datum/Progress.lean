import Mathlib.Data.List.Forall2
import ConsoleLisp.Datum.Reader
import ConsoleLisp.Proofs.Source.Stretch

/-!
# The reader, one token after another

What a token does depends on the frames that are open: `Reader.absorb` tells the datum that it
completes, or the frames that are then open, or that it cannot stand there. Everything that the
reader does is a stretch of tokens that it absorbs and then one lexeme that stops it.

* `Absorbs base token frames result`, `Refuses base frames next error`: the ways a token can stand
  inside the frames, and those in which what comes next cannot.
* `Advances base frames tokens frames'`: the tokens lead from some open frames to others.
* `Completes base frames tokens d`: the tokens complete the datum `d` and no datum before.

Results:
* **`absorb_eq_some_iff`**, `refuses_iff`: what a token does, said once.
* `lexeme_cases`: a lexeme completes a datum, is absorbed or is refused.
* **`resume_eq_ok_iff`**: the reader gives a datum when a stretch of tokens completes it, and is
  then behind the stretch.
* **`resume_eq_error_iff`**: the reader fails when it is refused behind a stretch that it absorbs.
* **`Completes.alike`**: the datum depends on the kinds and the values of the tokens only.
* `readDatum_eq_ok_iff`, `readDatum_eq_error_iff`: the first datum of a text.
* **`gives_iff_readDatum`**: reading on behind a cursor is reading the rest of the text.
-/

namespace ConsoleLisp

/-! ## Frames alike -/

/-- Two frames with the same items, wherever they were opened. -/
inductive Frame.Alike : Frame → Frame → Prop
  | list (opened opened' : Location) (items : List Datum) :
      Frame.Alike (.list opened items) (.list opened' items)
  | quotation : Frame.Alike .quotation .quotation

theorem plug_alike (d : Datum) {frames frames' : List Frame}
    (h : List.Forall₂ Frame.Alike frames frames') :
    Sum.LiftRel Eq (List.Forall₂ Frame.Alike) (plug d frames) (plug d frames') := by
  induction h generalizing d with
  | nil => exact .inl rfl
  | cons hframe h ih =>
    cases hframe with
    | list => exact .inr (.cons (.list _ _ _) h)
    | quotation => exact ih (.quoted d)

namespace Reader

/-! ## One token -/

/-- What a token does inside the open frames: it completes the outermost datum, leaves frames open
or cannot stand there. -/
def absorb (base : Nat) (token : Token) (frames : List Frame) : Option (Datum ⊕ List Frame) :=
  match token.kind, frames with
  | .openList, frames =>
    if maxReadDepth ≤ base + frames.length then none
    else some (.inr (.list token.start [] :: frames))
  | .quote, frames =>
    if maxReadDepth ≤ base + frames.length then none else some (.inr (.quotation :: frames))
  | .closeList, .list _ items :: outer => some (plug (.ofList items.reverse) outer)
  | .string, frames => some (plug (.string token.value) frames)
  | .atom, frames => some (plug (.ofAtom token.value) frames)
  | _, _ => none

/-- What is wrong with a token that cannot stand inside the open frames. -/
def refusal (token : Token) (frames : List Frame) : ReadError :=
  match token.kind, frames with
  | .endOfText, frames => errorAtEnd token.start frames
  | .closeList, [] => .unexpectedClose token.start
  | .closeList, _ => .nothingQuoted token.start
  | _, _ => .tooDeep token.start

/-- The tokens that can stand inside open frames, and what they do there. -/
inductive Absorbs (base : Nat) (token : Token) : List Frame → Datum ⊕ List Frame → Prop
  | openList {frames : List Frame} : token.kind = .openList →
      base + frames.length < maxReadDepth →
      Absorbs base token frames (.inr (.list token.start [] :: frames))
  | quote {frames : List Frame} : token.kind = .quote → base + frames.length < maxReadDepth →
      Absorbs base token frames (.inr (.quotation :: frames))
  | closeList {opened : Location} {items : List Datum} {outer : List Frame} :
      token.kind = .closeList →
      Absorbs base token (.list opened items :: outer) (plug (.ofList items.reverse) outer)
  | string {frames : List Frame} : token.kind = .string →
      Absorbs base token frames (plug (.string token.value) frames)
  | atom {frames : List Frame} : token.kind = .atom →
      Absorbs base token frames (plug (.ofAtom token.value) frames)

/-- What comes next cannot stand inside the open frames, for this reason. -/
inductive Refuses (base : Nat) : List Frame → Except LexicalError Token → ReadError → Prop
  | lexical (frames : List Frame) (error : LexicalError) :
      Refuses base frames (.error error) (.lexical error)
  | endOfText {token : Token} (frames : List Frame) : token.kind = .endOfText →
      Refuses base frames (.ok token) (errorAtEnd token.start frames)
  | unexpectedClose {token : Token} : token.kind = .closeList →
      Refuses base [] (.ok token) (.unexpectedClose token.start)
  | nothingQuoted {token : Token} {outer : List Frame} : token.kind = .closeList →
      Refuses base (.quotation :: outer) (.ok token) (.nothingQuoted token.start)
  | tooDeep {token : Token} {frames : List Frame} :
      token.kind = .openList ∨ token.kind = .quote → maxReadDepth ≤ base + frames.length →
      Refuses base frames (.ok token) (.tooDeep token.start)

variable {base lastEnd : Nat} {frames frames' : List Frame} {place : Location} {c c' : Cursor}
  {token : Token} {tokens : List Token} {d : Datum} {r : Reader} {error : ReadError}
  {result : Datum ⊕ List Frame}

/-- **What a token does** where it can stand. -/
theorem absorb_eq_some_iff :
    absorb base token frames = some result ↔ Absorbs base token frames result := by
  constructor
  · intro h
    unfold absorb at h
    cases hk : token.kind with
    | endOfText =>
      rw [hk] at h
      cases h
    | openList =>
      simp only [hk, Option.ite_none_left_eq_some, Nat.not_le] at h
      obtain ⟨hroom, ⟨⟩⟩ := h
      exact .openList hk hroom
    | quote =>
      simp only [hk, Option.ite_none_left_eq_some, Nat.not_le] at h
      obtain ⟨hroom, ⟨⟩⟩ := h
      exact .quote hk hroom
    | string =>
      rw [hk] at h
      cases h
      exact .string hk
    | atom =>
      rw [hk] at h
      cases h
      exact .atom hk
    | closeList =>
      rw [hk] at h
      cases frames with
      | nil => cases h
      | cons frame outer =>
        cases frame with
        | quotation => cases h
        | list opened items =>
          cases h
          exact .closeList hk
  · intro h
    unfold absorb
    cases h with
    | openList hk hroom | quote hk hroom => simp only [hk, if_neg (Nat.not_le.mpr hroom)]
    | closeList hk | string hk | atom hk => simp only [hk]

/-- **What is wrong with a token** that cannot stand there. -/
theorem refuses_iff : Refuses base frames (.ok token) error ↔
    absorb base token frames = none ∧ error = refusal token frames := by
  constructor
  · intro h
    unfold absorb refusal
    cases h with
    | endOfText _ hk | unexpectedClose hk | nothingQuoted hk => simp only [hk, and_self]
    | tooDeep hk hdeep => rcases hk with hk | hk <;> simp only [hk, if_pos hdeep, and_self]
  · rintro ⟨h, rfl⟩
    unfold absorb at h
    unfold refusal
    cases hk : token.kind with
    | endOfText => exact .endOfText frames hk
    | openList =>
      simp only [hk, ite_eq_left_iff, reduceCtorEq, imp_false, not_not] at h
      exact .tooDeep (.inl hk) h
    | quote =>
      simp only [hk, ite_eq_left_iff, reduceCtorEq, imp_false, not_not] at h
      exact .tooDeep (.inr hk) h
    | string | atom =>
      rw [hk] at h
      cases h
    | closeList =>
      rw [hk] at h
      cases frames with
      | nil => exact .unexpectedClose hk
      | cons frame outer =>
        cases frame with
        | quotation => exact .nothingQuoted hk
        | list opened items => cases h

theorem kind_ne_of_absorb (h : absorb base token frames = some result) :
    token.kind ≠ .endOfText := by
  intro hend
  cases absorb_eq_some_iff.mp h with
  | openList hk | quote hk | closeList hk | string hk | atom hk => cases hend.symm.trans hk

/-- A token is absorbed or refused. -/
theorem resume_cons {lexeme : Lexeme} (rest : List Lexeme) (ht : lexeme.token = .ok token) :
    resume base frames lastEnd place (lexeme :: rest) =
      match absorb base token frames with
      | none => (.error ⟨refusal token frames, completed frames⟩,
          ⟨lexeme :: rest, lexeme.next.place, lastEnd, base + frames.length⟩)
      | some (.inl d) => (.ok d, ⟨rest, lexeme.next.place, token.stop.offset, base⟩)
      | some (.inr frames') => resume base frames' token.stop.offset lexeme.next.place rest := by
  rw [resume, ht]
  unfold absorb refusal
  cases hk : token.kind with
  | endOfText => simp only [hk]
  | openList | quote =>
    by_cases hdeep : maxReadDepth ≤ base + frames.length
    · simp only [hk, if_pos hdeep]
    · simp only [hk, if_neg hdeep]
  | closeList =>
    cases frames with
    | nil => simp only [hk]
    | cons frame outer =>
      cases frame with
      | quotation => simp only [hk]
      | list opened items =>
        simp only [hk]
        cases plug (.ofList items.reverse) outer <;> rfl
  | string =>
    simp only [hk]
    cases plug (.string token.value) frames <;> rfl
  | atom =>
    simp only [hk]
    cases plug (.ofAtom token.value) frames <;> rfl

/-! ## The lexemes of a cursor -/

/-- A reader that has used up the text in front of a cursor. -/
def behind (base : Nat) (c : Cursor) : Reader := ⟨c.lexemes, c.place, c.place.offset, base⟩

theorem isEnd_of_absorb (ht : c.lexeme.token = .ok token)
    (h : absorb base token frames = some result) : c.lexeme.isEnd = false := by
  rw [Lexeme.isEnd_of_ok ht]
  exact beq_false_of_ne (kind_ne_of_absorb h)

theorem lexemes_of_absorb (ht : c.lexeme.token = .ok token)
    (h : absorb base token frames = some result) :
    c.lexemes = c.lexeme :: c.lexeme.next.lexemes ∧ c.lexeme.next.place = token.stop := by
  obtain ⟨-, -, -, -, -, -, -, hnext⟩ := lexeme_cuts ht
  rw [lexemes_eq, isEnd_of_absorb ht h]
  exact ⟨rfl, hnext⟩

theorem resume_of_completing (ht : c.lexeme.token = .ok token)
    (h : absorb base token frames = some (.inl d)) :
    resume base frames lastEnd place c.lexemes = (.ok d, behind base c.lexeme.next) := by
  obtain ⟨hlexemes, hplace⟩ := lexemes_of_absorb ht h
  rw [hlexemes, resume_cons _ ht, h]
  show (_, _) = (_, Reader.mk _ _ c.lexeme.next.place.offset _)
  rw [hplace]

theorem resume_of_absorbed (ht : c.lexeme.token = .ok token)
    (h : absorb base token frames = some (.inr frames')) :
    resume base frames lastEnd place c.lexemes =
      resume base frames' c.lexeme.next.place.offset c.lexeme.next.place c.lexeme.next.lexemes := by
  obtain ⟨hlexemes, hplace⟩ := lexemes_of_absorb ht h
  rw [hlexemes, resume_cons _ ht, h, hplace]

theorem resume_of_refused (h : Refuses base frames c.lexeme.token error) :
    (resume base frames lastEnd place c.lexemes).1 = .error ⟨error, completed frames⟩ := by
  obtain ⟨rest, hlexemes⟩ := exists_lexemes_eq c
  rw [hlexemes]
  cases ht : c.lexeme.token with
  | error lexical =>
    rw [ht] at h
    cases h
    rw [resume, ht]
  | ok token =>
    rw [ht] at h
    obtain ⟨hnone, rfl⟩ := refuses_iff.mp h
    rw [resume_cons _ ht, hnone]

/-! ## Stretches of tokens -/

/-- The tokens lead from some open frames to others. -/
inductive Advances (base : Nat) : List Frame → List Token → List Frame → Prop
  | nil (frames : List Frame) : Advances base frames [] frames
  | cons {frames frames' frames'' : List Frame} {token : Token} {tokens : List Token} :
      absorb base token frames = some (.inr frames') → Advances base frames' tokens frames'' →
      Advances base frames (token :: tokens) frames''

/-- The tokens complete a datum, the last of them and none before it. -/
inductive Completes (base : Nat) : List Frame → List Token → Datum → Prop
  | last {frames : List Frame} {token : Token} {d : Datum} :
      absorb base token frames = some (.inl d) → Completes base frames [token] d
  | cons {frames frames' : List Frame} {token : Token} {tokens : List Token} {d : Datum} :
      absorb base token frames = some (.inr frames') → Completes base frames' tokens d →
      Completes base frames (token :: tokens) d

theorem Completes.ne_nil (h : Completes base frames tokens d) : tokens ≠ [] := by
  cases h <;> exact List.cons_ne_nil _ _

/-- The reader goes over a stretch that it absorbs. -/
theorem resume_of_advances (hscan : c.Scans tokens c') (h : Advances base frames tokens frames')
    (lastEnd : Nat) (place : Location) : ∃ lastEnd' place',
      resume base frames lastEnd place c.lexemes =
        resume base frames' lastEnd' place' c'.lexemes := by
  induction h generalizing c lastEnd place with
  | nil =>
    cases hscan
    exact ⟨lastEnd, place, rfl⟩
  | cons habsorb _ ih =>
    cases hscan with
    | cons htoken _ hscan =>
      rw [resume_of_absorbed htoken habsorb]
      exact ih hscan _ _

theorem resume_of_completes (hscan : c.Scans tokens c') (h : Completes base frames tokens d)
    (lastEnd : Nat) (place : Location) :
    resume base frames lastEnd place c.lexemes = (.ok d, behind base c') := by
  induction h generalizing c lastEnd place with
  | last habsorb =>
    cases hscan with
    | cons htoken _ hscan =>
      cases hscan
      exact resume_of_completing htoken habsorb
  | cons habsorb _ ih =>
    cases hscan with
    | cons htoken _ hscan =>
      rw [resume_of_absorbed htoken habsorb]
      exact ih hscan _ _

/-- A lexeme completes a datum, is absorbed or is refused. -/
theorem lexeme_cases (base : Nat) (frames : List Frame) (c : Cursor) :
    (∃ token d, c.lexeme.token = .ok token ∧ absorb base token frames = some (.inl d)) ∨
    (∃ token frames', c.lexeme.token = .ok token ∧
      absorb base token frames = some (.inr frames')) ∨
    ∃ error, Refuses base frames c.lexeme.token error := by
  cases htoken : c.lexeme.token with
  | error error => exact .inr (.inr ⟨_, .lexical frames error⟩)
  | ok token =>
    cases habsorb : absorb base token frames with
    | none => exact .inr (.inr ⟨_, refuses_iff.mpr ⟨habsorb, rfl⟩⟩)
    | some result =>
      cases result with
      | inl d => exact .inl ⟨token, d, rfl, habsorb⟩
      | inr frames' => exact .inr (.inl ⟨token, frames', rfl, habsorb⟩)

/-- **The reader gives a datum when a stretch of tokens completes it**, and is then behind it. -/
theorem resume_eq_ok_iff : resume base frames lastEnd place c.lexemes = (.ok d, r) ↔
    ∃ tokens c', c.Scans tokens c' ∧ Completes base frames tokens d ∧ r = behind base c' := by
  constructor
  · intro h
    induction c using Cursor.induction generalizing frames lastEnd place with
    | step c ih =>
    rcases lexeme_cases base frames c with ⟨token, d', htoken, habsorb⟩ |
      ⟨token, frames', htoken, habsorb⟩ | ⟨error, hrefuses⟩
    · rw [resume_of_completing htoken habsorb] at h
      cases h
      exact ⟨[token], _, .cons htoken (kind_ne_of_absorb habsorb) (.nil _), .last habsorb, rfl⟩
    · rw [resume_of_absorbed htoken habsorb] at h
      obtain ⟨tokens, c', hscan, hcompletes, hr⟩ := ih (isEnd_of_absorb htoken habsorb) h
      exact ⟨token :: tokens, c', .cons htoken (kind_ne_of_absorb habsorb) hscan,
        .cons habsorb hcompletes, hr⟩
    · have hfails : (resume base frames lastEnd place c.lexemes).1 =
          .error ⟨error, completed frames⟩ := resume_of_refused hrefuses
      rw [h] at hfails
      cases hfails
  · rintro ⟨tokens, c', hscan, hcompletes, rfl⟩
    exact resume_of_completes hscan hcompletes lastEnd place

/-- **The reader fails when it is refused behind a stretch that it absorbs.** What is complete by
then stands in the frames that are open there. -/
theorem resume_eq_error_iff {failure : ReadFailure} :
    (resume base frames lastEnd place c.lexemes).1 = .error failure ↔
      ∃ tokens frames' c', c.Scans tokens c' ∧ Advances base frames tokens frames' ∧
        Refuses base frames' c'.lexeme.token failure.error ∧
        failure.completed = completed frames' := by
  constructor
  · intro h
    induction c using Cursor.induction generalizing frames lastEnd place with
    | step c ih =>
    rcases lexeme_cases base frames c with ⟨token, d', htoken, habsorb⟩ |
      ⟨token, frames', htoken, habsorb⟩ | ⟨error, hrefuses⟩
    · rw [resume_of_completing htoken habsorb] at h
      cases h
    · rw [resume_of_absorbed htoken habsorb] at h
      obtain ⟨tokens, frames'', c', hscan, hadvances, hrefused⟩ :=
        ih (isEnd_of_absorb htoken habsorb) h
      exact ⟨token :: tokens, frames'', c', .cons htoken (kind_ne_of_absorb habsorb) hscan,
        .cons habsorb hadvances, hrefused⟩
    · rw [resume_of_refused hrefuses] at h
      cases h
      exact ⟨[], frames, c, .nil c, .nil frames, hrefuses, rfl⟩
  · rintro ⟨tokens, frames', c', hscan, hadvances, hrefuses, hcompleted⟩
    obtain ⟨lastEnd', place', hrun⟩ := resume_of_advances hscan hadvances lastEnd place
    rw [hrun, resume_of_refused hrefuses, ← hcompleted]

/-! ## Tokens alike -/

theorem absorb_alike {token' : Token} (h : absorb base token frames = some result)
    (ht : token.Alike token') (hf : List.Forall₂ Frame.Alike frames frames') :
    ∃ result', absorb base token' frames' = some result' ∧
      Sum.LiftRel Eq (List.Forall₂ Frame.Alike) result result' := by
  simp only [absorb_eq_some_iff] at h ⊢
  have hkind := ht.kind_eq
  have hvalue := ht.value_eq
  have hlength := hf.length_eq
  cases h with
  | openList hk hroom =>
    exact ⟨_, .openList (hkind ▸ hk) (hlength ▸ hroom), .inr (.cons (.list _ _ _) hf)⟩
  | quote hk hroom => exact ⟨_, .quote (hkind ▸ hk) (hlength ▸ hroom), .inr (.cons .quotation hf)⟩
  | string hk => exact ⟨_, .string (hkind ▸ hk), hvalue ▸ plug_alike _ hf⟩
  | atom hk => exact ⟨_, .atom (hkind ▸ hk), hvalue ▸ plug_alike _ hf⟩
  | closeList hk =>
    cases hf with
    | cons hframe hf =>
      cases hframe with
      | list => exact ⟨_, .closeList (hkind ▸ hk), plug_alike _ hf⟩

/-- **The datum depends on the kinds and the values of the tokens only.** -/
theorem Completes.alike {tokens' : List Token} (h : Completes base frames tokens d)
    (ht : List.Forall₂ Token.Alike tokens tokens')
    (hf : List.Forall₂ Frame.Alike frames frames') : Completes base frames' tokens' d := by
  induction h generalizing tokens' frames' with
  | last habsorb =>
    cases ht with
    | cons htoken hnil =>
      cases hnil
      obtain ⟨result', hresult, hrel⟩ := absorb_alike habsorb htoken hf
      cases hrel with
      | inl heq =>
        subst heq
        exact .last hresult
  | cons habsorb _ ih =>
    cases ht with
    | cons htoken ht =>
      obtain ⟨result', hresult, hrel⟩ := absorb_alike habsorb htoken hf
      cases hrel with
      | inr hf' => exact .cons hresult (ih ht hf')

end Reader

/-! ## The first datum behind a cursor -/

/-- From `c` on the text gives the datum `d`, up to `c'`. -/
def Cursor.Gives (c : Cursor) (d : Datum) (c' : Cursor) : Prop :=
  ∃ tokens, c.Scans tokens c' ∧ Reader.Completes 0 [] tokens d

namespace Cursor.Gives

variable {c c' : Cursor} {d : Datum}

/-- A datum takes some of the text. -/
theorem cuts (h : c.Gives d c') : ∃ units, units ≠ [] ∧ c.rest = units ++ c'.rest ∧
    c'.place = c.place.after units := by
  obtain ⟨tokens, hscan, hcompletes⟩ := h
  obtain ⟨units, hunits, hplace, hnil, -⟩ := hscan.cuts
  exact ⟨units, fun h => hcompletes.ne_nil (hnil h), hunits, hplace⟩

/-- The datum is the same wherever its text stands. -/
theorem at_place (h : c.Gives d c') {units : Text} (hunits : c.rest = units ++ c'.rest)
    (place : Location) : Cursor.Gives ⟨c.rest, place⟩ d ⟨c'.rest, place.after units⟩ := by
  obtain ⟨tokens, hscan, hcompletes⟩ := h
  obtain ⟨tokens', halike, hscan'⟩ := hscan.transfer hunits c'.rest hscan.isBounded place
  rw [← hunits] at hscan'
  exact ⟨tokens', hscan', hcompletes.alike halike .nil⟩

end Cursor.Gives

theorem readDatum_eq (source : Text) :
    readDatum source = (Reader.resume 0 [] 0 .start (scan source)).1.map fun datum =>
      (datum, (Reader.resume 0 [] 0 .start (scan source)).2.lastEnd) := rfl

theorem readDatum_eq_ok_iff {source : Text} {d : Datum} {stop : Nat} :
    readDatum source = .ok (d, stop) ↔
      ∃ c, (Cursor.ofText source).Gives d c ∧ stop = c.place.offset := by
  rw [readDatum_eq, scan_eq_lexemes]
  constructor
  · intro h
    cases hrun : Reader.resume 0 [] 0 .start (Cursor.ofText source).lexemes with
    | mk result r =>
      rw [hrun] at h
      cases result with
      | error failure => cases h
      | ok datum =>
        cases h
        obtain ⟨tokens, c, hscan, hcompletes, rfl⟩ := Reader.resume_eq_ok_iff.mp hrun
        exact ⟨c, ⟨tokens, hscan, hcompletes⟩, rfl⟩
  · rintro ⟨c, ⟨tokens, hscan, hcompletes⟩, rfl⟩
    rw [Reader.resume_of_completes hscan hcompletes]
    rfl

theorem readDatum_eq_error_iff {source : Text} {failure : ReadFailure} :
    readDatum source = .error failure ↔ ∃ tokens frames c, (Cursor.ofText source).Scans tokens c ∧
      Reader.Advances 0 [] tokens frames ∧ Reader.Refuses 0 frames c.lexeme.token failure.error ∧
      failure.completed = completed frames := by
  have hresume : (Reader.resume 0 [] 0 .start (Cursor.ofText source).lexemes).1 = .error failure ↔
      _ := Reader.resume_eq_error_iff
  rw [readDatum_eq, scan_eq_lexemes, ← hresume]
  cases (Reader.resume 0 [] 0 .start (Cursor.ofText source).lexemes).1 with
  | ok d => exact ⟨nofun, nofun⟩
  | error failure' => exact ⟨fun h => by cases h; rfl, fun h => by cases h; rfl⟩

/-- **Reading on behind a cursor is reading the rest of the text**, cut off there. -/
theorem gives_iff_readDatum {c : Cursor} {d : Datum} {rest : Text} :
    (∃ c', c.Gives d c' ∧ c'.rest = rest) ↔
      ∃ stop, readDatum c.rest = .ok (d, stop) ∧ rest = c.rest.drop stop := by
  constructor
  · rintro ⟨c', h, rfl⟩
    obtain ⟨units, -, hunits, -⟩ := h.cuts
    refine ⟨units.length, readDatum_eq_ok_iff.mpr ⟨_, h.at_place hunits .start, ?_⟩, ?_⟩
    · rw [Location.offset_start_after]
    · rw [hunits, List.drop_left]
  · rintro ⟨stop, hread, rfl⟩
    obtain ⟨c', h, rfl⟩ := readDatum_eq_ok_iff.mp hread
    obtain ⟨units, -, hunits, hplace⟩ := h.cuts
    have hrest : c.rest = units ++ c'.rest := hunits
    refine ⟨⟨c'.rest, c.place.after units⟩, h.at_place hunits c.place, ?_⟩
    rw [hplace, Cursor.ofText, Location.offset_start_after, hrest, List.drop_left]

end ConsoleLisp
