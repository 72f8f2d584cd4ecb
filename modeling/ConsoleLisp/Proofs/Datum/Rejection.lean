import ConsoleLisp.Proofs.Datum.Reading
import ConsoleLisp.Proofs.Source.StringLiteral

/-!
# The error of a text that is rejected

Which error a text is rejected with can be told from its tokens and from what they leave open, with
no data in sight.

* `Opening` is a list or a quotation that is still open, and `openedBy` what a token makes of them.
* `Objects opened next notice place`: what comes next cannot stand there, for this reason.
* `Unopposed opened tokens opened'`: to none of the tokens there is an objection, and each leaves
  something open.
* `FirstObjection source notice place`: the first objection to a text.

Results:
* **`absorb_opened`**: the frames of the reader are what the tokens leave open.
* `objects_iff`, `unopposed_iff`: the reader goes over tokens without an objection and is refused
  where there is one.
* **`firstObjection_iff`**: the error of a text is the first objection to it.
* **`read_reports_first_objection`**: so it is for a read into a heap, with a message that ends in
  the place.
-/

namespace ConsoleLisp

open Reader

/-! ## What is open -/

/-- A list, with where it was opened, or a quotation that is still open. -/
inductive Opening
  | list (opened : Location)
  | quotation
  deriving DecidableEq

/-- With an expression the quotations right around it are complete. -/
def settle : List Opening → List Opening
  | .quotation :: outer => settle outer
  | opened => opened

/-- What is open behind a token, the innermost first, by what is open in front of it. -/
def openedBy (token : Token) (opened : List Opening) : List Opening :=
  match token.kind, opened with
  | .openList, opened => .list token.start :: opened
  | .quote, opened => .quotation :: opened
  | .closeList, .list _ :: outer => settle outer
  | .string, opened | .atom, opened => settle opened
  | _, opened => opened

/-- What comes next cannot stand inside these lists and quotations. -/
inductive Objects : List Opening → Except LexicalError Token → Text → Location → Prop
  | lexical (opened : List Opening) (error : LexicalError) :
      Objects opened (.error error) error.notice error.location
  | nothingToRead {token : Token} : token.kind = .endOfText →
      Objects [] (.ok token) (text "Expected an expression") token.start
  | unexpectedClose {token : Token} : token.kind = .closeList →
      Objects [] (.ok token) (text "Unexpected ')'") token.start
  | tooDeep {opened : List Opening} {token : Token} : token.kind = .openList ∨ token.kind = .quote →
      maxReadDepth ≤ opened.length →
      Objects opened (.ok token) (text "Nesting deeper than 512 levels") token.start
  | nothingQuoted {outer : List Opening} {token : Token} :
      token.kind = .endOfText ∨ token.kind = .closeList →
      Objects (.quotation :: outer) (.ok token) (text "Expected an expression after '") token.start
  /-- The place is that of the innermost list. -/
  | unclosedList {opened : Location} {outer : List Opening} {token : Token} :
      token.kind = .endOfText →
      Objects (.list opened :: outer) (.ok token) (text "Expected ')' to close list opened") opened

/-- To none of the tokens there is an objection, and each leaves something open. -/
inductive Unopposed : List Opening → List Token → List Opening → Prop
  | nil (opened : List Opening) : Unopposed opened [] opened
  | cons {opened opened' : List Opening} {token : Token} {tokens : List Token} :
      (∀ notice place, ¬ Objects opened (.ok token) notice place) → openedBy token opened ≠ [] →
      Unopposed (openedBy token opened) tokens opened' → Unopposed opened (token :: tokens) opened'

/-- **The first objection to a text**: to the tokens in front of it there is none. -/
def FirstObjection (source : Text) (notice : Text) (place : Location) : Prop :=
  ∃ tokens opened next, tokens.map .ok ++ [next] <+: (scan source).map Lexeme.token ∧
    Unopposed [] tokens opened ∧ Objects opened next notice place

/-! ## The frames of the reader -/

/-- What is left of a frame without its items. -/
def Frame.opening : Frame → Opening
  | .list opened _ => .list opened
  | .quotation => .quotation

/-- What is open when a datum is complete or when there are frames. -/
def openings : Datum ⊕ List Frame → List Opening
  | .inl _ => []
  | .inr frames => frames.map Frame.opening

theorem openings_plug (d : Datum) (frames : List Frame) :
    openings (plug d frames) = settle (frames.map Frame.opening) ∧
      ∀ frames', plug d frames = .inr frames' → frames' ≠ [] := by
  induction frames generalizing d with
  | nil => exact ⟨rfl, nofun⟩
  | cons frame outer ih =>
    cases frame with
    | quotation => exact ih (.quoted d)
    | list opened items =>
      refine ⟨rfl, fun frames' h => ?_⟩
      cases h
      exact List.cons_ne_nil _ _

theorem notice_tooDeep (place : Location) :
    (ReadError.tooDeep place).notice = text "Nesting deeper than 512 levels" := by
  rw [ReadError.notice]
  decide

section Steps

variable {frames frames' : List Frame} {token : Token} {tokens : List Token}
  {next : Except LexicalError Token} {opened : List Opening} {notice : Text} {place : Location}

/-- **The frames of the reader are what the tokens leave open.** -/
theorem absorb_opened {result : Datum ⊕ List Frame} (h : absorb 0 token frames = some result) :
    openings result = openedBy token (frames.map Frame.opening) ∧
      ∀ frames', result = .inr frames' → frames' ≠ [] := by
  unfold openedBy
  cases absorb_eq_some_iff.mp h with
  | openList hk _ | quote hk _ =>
    simp only [hk]
    exact ⟨rfl, fun frames' h => by cases h; exact List.cons_ne_nil _ _⟩
  | string hk | atom hk =>
    simp only [hk]
    exact openings_plug _ frames
  | closeList hk =>
    simp only [hk]
    exact openings_plug _ _

/-- **The reader is refused where there is an objection.** -/
theorem objects_iff : Objects (frames.map Frame.opening) next notice place ↔
    ∃ error, Refuses 0 frames next error ∧ error.notice = notice ∧ error.location = place := by
  constructor
  · intro h
    generalize hopened : frames.map Frame.opening = opened at h
    cases h with
    | lexical _ error => exact ⟨_, .lexical frames error, rfl, rfl⟩
    | nothingToRead hk =>
      obtain rfl := List.map_eq_nil_iff.mp hopened
      exact ⟨_, .endOfText [] hk, rfl, rfl⟩
    | unexpectedClose hk =>
      obtain rfl := List.map_eq_nil_iff.mp hopened
      exact ⟨_, .unexpectedClose hk, rfl, rfl⟩
    | tooDeep hk hdeep =>
      rw [← hopened, List.length_map] at hdeep
      exact ⟨_, .tooDeep hk (by omega), notice_tooDeep _, rfl⟩
    | nothingQuoted hk =>
      obtain ⟨frame, outer, rfl, hframe, -⟩ := List.map_eq_cons_iff.mp hopened
      cases frame with
      | list => cases hframe
      | quotation =>
        rcases hk with hk | hk
        · exact ⟨_, .endOfText _ hk, rfl, rfl⟩
        · exact ⟨_, .nothingQuoted hk, rfl, rfl⟩
    | unclosedList hk =>
      obtain ⟨frame, outer, rfl, hframe, -⟩ := List.map_eq_cons_iff.mp hopened
      cases frame with
      | quotation => cases hframe
      | list =>
        cases hframe
        exact ⟨_, .endOfText _ hk, rfl, rfl⟩
  · rintro ⟨error, hrefuses, rfl, rfl⟩
    cases hrefuses with
    | lexical _ error => exact .lexical _ error
    | unexpectedClose hk => exact .unexpectedClose hk
    | nothingQuoted hk => exact .nothingQuoted (.inr hk)
    | tooDeep hk hdeep =>
      rw [notice_tooDeep]
      refine .tooDeep hk ?_
      rw [List.length_map]
      omega
    | endOfText _ hk =>
      cases frames with
      | nil => exact .nothingToRead hk
      | cons frame outer =>
        cases frame with
        | quotation => exact .nothingQuoted (.inl hk)
        | list => exact .unclosedList hk

/-- **The reader goes over tokens without an objection.** -/
theorem unopposed_iff : Unopposed (frames.map Frame.opening) tokens opened ↔
    ∃ frames', Advances 0 frames tokens frames' ∧ frames'.map Frame.opening = opened := by
  constructor
  · intro h
    induction tokens generalizing frames with
    | nil =>
      cases h
      exact ⟨frames, .nil frames, rfl⟩
    | cons token tokens ih =>
      cases h with
      | cons hunopposed hopen hrest =>
      cases habsorb : absorb 0 token frames with
      | none =>
        have hrefuses := refuses_iff.mpr ⟨habsorb, rfl⟩
        exact absurd (objects_iff.mpr ⟨_, hrefuses, rfl, rfl⟩) (hunopposed _ _)
      | some result =>
        obtain ⟨hopenings, -⟩ := absorb_opened habsorb
        rw [← hopenings] at hopen hrest
        cases result with
        | inl d => exact absurd rfl hopen
        | inr frames₁ =>
          obtain ⟨frames', hadvances, hopened⟩ := ih hrest
          exact ⟨frames', .cons habsorb hadvances, hopened⟩
  · rintro ⟨frames', hadvances, rfl⟩
    induction hadvances with
    | nil frames => exact .nil _
    | cons habsorb _ ih =>
      obtain ⟨hopenings, hne⟩ := absorb_opened habsorb
      refine .cons (fun notice place hobjects => ?_) ?_ (hopenings ▸ ih)
      · obtain ⟨error, hrefuses, -, -⟩ := objects_iff.mp hobjects
        cases habsorb.symm.trans (refuses_iff.mp hrefuses).1
      · rw [← hopenings]
        exact fun h => hne _ rfl (List.map_eq_nil_iff.mp h)

theorem mem_settle {opening : Opening} (h : opening ∈ settle opened) : opening ∈ opened := by
  induction opened with
  | nil => exact h
  | cons first outer ih =>
    cases first with
    | list => exact h
    | quotation => exact List.mem_cons_of_mem _ (ih h)

/-- A list is opened by a token. -/
theorem mem_openedBy (h : .list place ∈ openedBy token opened) :
    .list place ∈ opened ∨ token.start = place := by
  unfold openedBy at h
  split at h
  · rcases List.mem_cons.mp h with h | h
    · cases h
      exact .inr rfl
    · exact .inl h
  · exact .inl ((List.mem_cons.mp h).resolve_left nofun)
  · exact .inl (List.mem_cons_of_mem _ (mem_settle h))
  · exact .inl (mem_settle h)
  · exact .inl (mem_settle h)
  · exact .inl h

theorem Unopposed.mem_list {opened' : List Opening} (h : Unopposed opened tokens opened')
    (hplace : .list place ∈ opened') :
    .list place ∈ opened ∨ ∃ token ∈ tokens, token.start = place := by
  induction h with
  | nil => exact .inl hplace
  | cons _ _ _ ih =>
    rcases ih hplace with hopened | ⟨token, htoken, hstart⟩
    · exact (mem_openedBy hopened).imp_right fun hstart => ⟨_, List.mem_cons_self, hstart⟩
    · exact .inr ⟨token, List.mem_cons_of_mem _ htoken, hstart⟩

end Steps

/-! ## The first datum of a text -/

/-- **The place of an objection is counted right.** -/
theorem FirstObjection.isAt {source notice : Text} {place : Location}
    (h : FirstObjection source notice place) : source.IsAt place := by
  obtain ⟨tokens, opened, next, hbegins, hunopposed, hobjects⟩ := h
  rw [scan_eq_lexemes, ← scans_iff] at hbegins
  obtain ⟨c, hscan, rfl⟩ := hbegins
  have hstands := (Cursor.StandsIn.ofText source).scans hscan
  have hopened : ∀ place, .list place ∈ opened → source.IsAt place := fun place hplace => by
    rcases hunopposed.mem_list hplace with hnil | ⟨token, htoken, rfl⟩
    · cases hnil
    · exact (Cursor.StandsIn.ofText source).isAt_of_mem hscan token htoken
  generalize htoken : c.lexeme.token = next at hobjects
  cases hobjects with
  | lexical => exact hstands.isAt_error htoken
  | nothingToRead | unexpectedClose | tooDeep | nothingQuoted => exact (hstands.isAt_token htoken).1
  | unclosedList => exact hopened _ List.mem_cons_self

/-- **The error of a text is the first objection to it.** -/
theorem firstObjection_iff {source notice : Text} {place : Location} :
    FirstObjection source notice place ↔ ∃ failure, readDatum source = .error failure ∧
      failure.error.notice = notice ∧ failure.error.location = place := by
  constructor
  · rintro ⟨tokens, opened, next, hbegins, hunopposed, hobjects⟩
    rw [scan_eq_lexemes, ← scans_iff] at hbegins
    obtain ⟨c, hscan, rfl⟩ := hbegins
    obtain ⟨frames, hadvances, rfl⟩ : ∃ frames, Advances 0 [] tokens frames ∧
        frames.map Frame.opening = opened := unopposed_iff.mp hunopposed
    obtain ⟨error, hrefuses, hnotice, hplace⟩ := objects_iff.mp hobjects
    have hread : readDatum source = .error ⟨error, completed frames⟩ :=
      readDatum_eq_error_iff.mpr ⟨tokens, frames, c, hscan, hadvances, hrefuses, rfl⟩
    exact ⟨_, hread, hnotice, hplace⟩
  · rintro ⟨failure, hread, rfl, rfl⟩
    obtain ⟨tokens, frames, c, hscan, hadvances, hrefuses, -⟩ := readDatum_eq_error_iff.mp hread
    have hunopposed : Unopposed (List.map Frame.opening []) tokens (frames.map Frame.opening) :=
      unopposed_iff.mpr ⟨frames, hadvances, rfl⟩
    refine ⟨tokens, _, c.lexeme.token, ?_, hunopposed, objects_iff.mpr ⟨_, hrefuses, rfl, rfl⟩⟩
    rw [scan_eq_lexemes]
    exact scans_iff.mp ⟨c, hscan, rfl⟩

namespace Heap

variable {κ : Type}

/-- **A text that is rejected is rejected with the first objection to it.** The message ends in the
place, and the place has the line and the column of its offset in the text. Conversely a text with a
first objection is rejected with it in every heap with room for what was complete by then; in
another heap it is not read either. The token that ends a text, where an objection may be, stands
behind its last unit. -/
theorem read_reports_first_objection (source : Text) :
    (∀ (heap heap' : Heap κ) error, read source heap = (.ok (.error error), heap') →
      FirstObjection source error.notice error.location ∧
        error.message = error.notice ++ (text " at " ++ decimal error.location.line ++
          unit ':' :: decimal error.location.column) ∧
        source.IsAt error.location) ∧
    (∀ notice place, FirstObjection source notice place → ∃ error room, error.notice = notice ∧
      error.location = place ∧ ∀ heap : Heap κ, heap.WellFormed → ∃ heap',
        read source heap = (.ok (.error error), heap') ∨
        ¬ heap.Room room ∧
          read source heap = (.error (.heap (.exhausted heap.id heap.maxSlots)), heap')) ∧
    ∀ tokens token, BeginsWith source (tokens ++ [token]) → token.kind = .endOfText →
      token.start = Location.start.after source := by
  refine ⟨fun heap heap' error h => ?_, fun notice place h => ?_, fun tokens token h hkind => ?_⟩
  · obtain ⟨failure, hread, rfl⟩ := readDatum_of_read_error h
    have hfirst := firstObjection_iff.mpr ⟨failure, hread, rfl, rfl⟩
    exact ⟨hfirst, rfl, hfirst.isAt⟩
  · obtain ⟨failure, hread, hnotice, hplace⟩ := firstObjection_iff.mp h
    refine ⟨failure.error, cellsOf failure.completed, hnotice, hplace, fun heap w => ?_⟩
    obtain ⟨heap', -, -, ⟨result, hrun, -, rfl⟩ | ⟨hrun, hroom⟩⟩ := read_of_readDatum_error hread w
    · exact ⟨heap', .inl hrun⟩
    · exact ⟨heap', .inr ⟨hroom, hrun⟩⟩
  · rw [BeginsWith, List.map_append, scan_eq_lexemes] at h
    obtain ⟨c, hscan, htoken⟩ := scans_iff.mpr h
    exact (((Cursor.StandsIn.ofText source).scans hscan).isAt_token htoken).2 hkind

/-- A quotation mark in front of the end of a list, on the next line. -/
theorem read_reports_first_objection_quotation : ∃ heap heap' : Heap Unit,
    create 1 Number.infinity = .ok heap ∧
      read (text "(a '\n)") heap = (.ok (.error (.nothingQuoted ⟨2, 1, 5⟩)), heap') ∧
      FirstObjection (text "(a '\n)") (text "Expected an expression after '") ⟨2, 1, 5⟩ ∧
      (text "(a '\n)").IsAt ⟨2, 1, 5⟩ := by
  let heap : Heap Unit :=
    ⟨1, Number.infinity, #[⟨0, some .nil, some ⟨1, 0, 0⟩⟩], [], 1, false⟩
  have hcreate : create 1 Number.infinity = .ok heap := create_unbounded 1
  have hresult : (read (text "(a '\n)") heap).1 = .ok (.error (.nothingQuoted ⟨2, 1, 5⟩)) := by
    decide +kernel
  cases hrun : read (text "(a '\n)") heap with
  | mk result heap' =>
    rw [hrun] at hresult
    subst hresult
    obtain ⟨hfirst, -, hat⟩ := (read_reports_first_objection _).1 heap heap' _ hrun
    exact ⟨heap, heap', hcreate, hrun, hfirst, hat⟩

end Heap

end ConsoleLisp
