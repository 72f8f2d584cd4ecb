import ConsoleLisp.Proofs.Source.Partition

/-!
# Stretches of a scan

`Cursor.Scans c tokens c'`: from the cursor `c` on the scan goes over the tokens, without an error
and short of the end of the text, and is then at `c'`. What it reads depends on the units that it
goes over only: not on the place where they stand, and on what follows them only where the last
token is an atom.

Results:
* `Cursor.induction`: what goes over from the cursor behind a lexeme to the one in front of it.
* `Reads.lexeme_eq`: trivia and the units of a token are read as that token (the converse of
  `lexeme_cuts`).
* `Scans.cuts`: a stretch spans a part of the text, up to the end of its last token.
* **`lexeme_append`**: text behind a token does not change it, but that an atom may grow.
* **`Scans.transfer`**: the units of a stretch are read alike in another text and at another place.
* `scans_iff`: the first tokens of a scan are a stretch.
* `StandsIn.isAt_token`: places in a text are counted right.
* `exists_of_lexeme_error`: a lexical error is one of a string literal.
* `isEnd_iff`: the scan is at the end where nothing but trivia is left.
-/

namespace ConsoleLisp

/-! ## One lexeme -/

/-- **What goes over from behind a lexeme to the place in front of it holds of every cursor**, since
each lexeme but the end of the text takes some of it. -/
theorem Cursor.induction {P : Cursor → Prop}
    (step : ∀ c, (c.lexeme.isEnd = false → P c.lexeme.next) → P c) (c : Cursor) : P c := by
  generalize hn : c.rest.length = n
  induction n using Nat.strongRecOn generalizing c with
  | ind n ih => exact step c fun hend => ih _ (hn ▸ (lexeme_spec c).1 hend) _ rfl

/-- The text is empty or a token starts it. -/
def Text.StartsToken : Text → Prop
  | [] => True
  | u :: _ => isSpace u = false ∧ u ≠ unit ';'

/-- Trivia in front of a token is skipped. -/
theorem IsTrivia.skipTrivia_eq {rest gap : Text} (h : IsTrivia rest gap)
    (hrest : rest.StartsToken) (place : Location) :
    skipTrivia false (gap ++ rest) place = ⟨rest, place.after gap⟩ := by
  induction h generalizing place with
  | nil =>
    cases rest with
    | nil => rfl
    | cons u rest => exact skipTrivia_token hrest.1 hrest.2 rest place
  | @space u gap hspace _ ih =>
    rw [List.cons_append, skipTrivia_space hspace, ih]
    rfl
  | @comment body gap hbody hends _ ih =>
    have hline : ∀ u ∈ body, (u != unit '\n') = true := fun u hu => bne_iff_ne.mpr (hbody u hu)
    have hstop : (gap ++ rest).takeWhile (· != unit '\n') = [] ∧
        (gap ++ rest).dropWhile (· != unit '\n') = gap ++ rest := by
      revert hends
      cases gap ++ rest with
      | nil => exact fun _ => ⟨rfl, rfl⟩
      | cons u t => simp +contextual [Text.EndsLine]
    have hskip : skipTrivia false (unit ';' :: (body ++ (gap ++ rest))) place =
        skipTrivia true (body ++ (gap ++ rest)) (place.advance (unit ';')) := by
      rw [skipTrivia, if_neg Bool.false_ne_true, if_neg (by decide), if_pos rfl]
    rw [List.cons_append, List.append_assoc, hskip, skipTrivia_comment,
      List.takeWhile_append_of_pos hline, List.dropWhile_append_of_pos hline, hstop.1, hstop.2, ih,
      List.append_nil, ← Location.after_append]
    rfl

/-- Trivia in front of a lexeme makes no difference but for the place. -/
theorem IsTrivia.lexeme_eq {rest gap : Text} (h : IsTrivia rest gap) (hrest : rest.StartsToken)
    (place : Location) :
    Cursor.lexeme ⟨gap ++ rest, place⟩ = Cursor.lexeme ⟨rest, place.after gap⟩ := by
  have hhere : skipTrivia false rest (place.after gap) = ⟨rest, place.after gap⟩ :=
    IsTrivia.nil.skipTrivia_eq hrest _
  unfold Cursor.lexeme
  rw [h.skipTrivia_eq hrest, hhere]

/-- Trivia is so by what stands at most one unit behind it. -/
theorem IsTrivia.congr {u : CodeUnit} {rest rest' gap : Text} (h : IsTrivia (u :: rest) gap) :
    IsTrivia (u :: rest') gap := by
  induction h with
  | nil => exact .nil
  | space hspace _ ih => exact .space hspace ih
  | @comment body gap hbody hends _ ih =>
    refine .comment hbody ?_ ih
    cases gap with
    | nil => exact hends
    | cons v gap => exact hends

variable {kind : TokenKind} {value span rest gap : Text}

theorem Reads.startsToken (h : Reads kind value span rest) : (span ++ rest).StartsToken := by
  cases h with
  | openList | closeList | quote => exact ⟨by decide, by decide⟩
  | string => exact ⟨by decide, by decide⟩
  | endOfText => trivial
  | atom hne hatom _ =>
    obtain ⟨u, span, rfl⟩ := List.exists_cons_of_ne_nil hne
    have hu := hatom u List.mem_cons_self
    simp only [isDelimiter, Bool.or_eq_false_iff, beq_eq_false_iff_ne, ne_eq] at hu
    exact ⟨hu.1.1.1.1.1, hu.2⟩

theorem lexeme_quote (rest : Text) (place : Location) :
    Cursor.lexeme ⟨unit '\x27' :: rest, place⟩ =
      ⟨.ok ⟨.quote, [unit '\x27'], place, place.advance (unit '\x27')⟩,
        ⟨rest, place.advance (unit '\x27')⟩⟩ := by
  unfold Cursor.lexeme
  rw [skipTrivia_token (by decide) (by decide)]
  rfl

/-- **Trivia and the units of a token are read as that token.** -/
theorem Reads.lexeme_eq (h : Reads kind value span rest) (htrivia : IsTrivia (span ++ rest) gap)
    (place : Location) : Cursor.lexeme ⟨gap ++ (span ++ rest), place⟩ =
      ⟨.ok ⟨kind, value, place.after gap, place.after (gap ++ span)⟩,
        ⟨rest, place.after (gap ++ span)⟩⟩ := by
  rw [htrivia.lexeme_eq h.startsToken, Location.after_append]
  generalize place.after gap = place
  cases h with
  | openList => exact lexeme_open rest place
  | closeList => exact lexeme_close rest place
  | quote => exact lexeme_quote rest place
  | atom hne hatom hbounded => exact lexeme_atom hne hatom hbounded place
  | endOfText => rfl
  | @string body _ _ hdecodes =>
    rw [List.cons_append, List.append_assoc, List.singleton_append,
      lexeme_string (hdecodes.stringBody_closed place rest _)]
    rfl

/-- What a token is read from depends on what follows it only where it is an atom. -/
theorem Reads.congr {rest' : Text} (h : Reads kind value span rest) (hkind : kind ≠ .endOfText)
    (hrest : kind = .atom → rest'.IsBounded) : Reads kind value span rest' := by
  cases h with
  | openList => exact .openList rest'
  | closeList => exact .closeList rest'
  | quote => exact .quote rest'
  | string _ hdecodes => exact .string rest' hdecodes
  | atom hne hatom _ => exact .atom hne hatom (hrest rfl)
  | endOfText => exact absurd rfl hkind

theorem Reads.rest_isBounded (h : Reads .atom value span rest) : rest.IsBounded := by
  cases h with
  | atom _ _ hrest => exact hrest

/-- An atom goes on in the text behind it, up to a delimiter. -/
theorem Reads.grow (h : Reads .atom value span rest) (more : Text) :
    Reads .atom (span ++ more.takeWhile (!isDelimiter ·)) (span ++ more.takeWhile (!isDelimiter ·))
      (more.dropWhile (!isDelimiter ·)) := by
  cases h with
  | atom hne hspan _ =>
    refine .atom (by simp [hne]) (fun u hu => ?_) (isBounded_dropWhile more)
    rcases List.mem_append.mp hu with hu | hu
    · exact hspan u hu
    · simpa using List.all_eq_true.mp List.all_takeWhile u hu

/-- **Text behind a token does not change it**, unless it is an atom up to the end of the text: that
may grow. -/
theorem lexeme_append {c : Cursor} {token : Token} (h : c.lexeme.token = .ok token)
    (hkind : token.kind ≠ .endOfText) (more : Text) :
    Cursor.lexeme ⟨c.rest ++ more, c.place⟩ =
        ⟨.ok token, ⟨c.lexeme.next.rest ++ more, c.lexeme.next.place⟩⟩ ∨
      token.kind = .atom ∧ c.lexeme.next.rest = [] ∧ ∃ token',
        (Cursor.lexeme ⟨c.rest ++ more, c.place⟩).token = .ok token' ∧ token'.kind = .atom := by
  obtain ⟨gap, span, hrest, htrivia, hreads, hstart, hstop, hnext⟩ := lexeme_cuts h
  have hcut : c.rest ++ more = gap ++ (span ++ (c.lexeme.next.rest ++ more)) := by
    rw [hrest]
    simp only [List.append_assoc]
  have hbehind {rest : Text} : IsTrivia (span ++ rest) gap := by
    obtain ⟨u, span, rfl⟩ := List.exists_cons_of_ne_nil (hreads.ne_nil hkind)
    exact htrivia.congr
  rw [hcut]
  by_cases hbounded : token.kind = .atom → (c.lexeme.next.rest ++ more).IsBounded
  · refine .inl ?_
    rw [(hreads.congr hkind hbounded).lexeme_eq hbehind, hnext, ← hstart, ← hstop]
  · obtain ⟨hatom, hopen⟩ := Classical.not_imp.mp hbounded
    rw [hatom] at hreads
    have hnil : c.lexeme.next.rest = [] := by
      have hrest := hreads.rest_isBounded
      cases hnext : c.lexeme.next.rest with
      | nil => rfl
      | cons v rest =>
        rw [hnext] at hopen hrest
        exact absurd hrest hopen
    have hsplit : span ++ (c.lexeme.next.rest ++ more) =
        (span ++ more.takeWhile (!isDelimiter ·)) ++ more.dropWhile (!isDelimiter ·) := by
      rw [hnil, List.nil_append, List.append_assoc, List.takeWhile_append_dropWhile]
    rw [hsplit, (hreads.grow more).lexeme_eq (by rw [List.append_assoc]; exact hbehind)]
    exact .inr ⟨hatom, hnil, _, rfl, rfl⟩

/-! ## Stretches -/

theorem exists_lexemes_eq (c : Cursor) : ∃ rest, c.lexemes = c.lexeme :: rest := by
  rw [lexemes_eq]
  split
  · exact ⟨[], rfl⟩
  · exact ⟨_, rfl⟩

/-- From a cursor on the scan goes over the tokens, none of them the end of the text. -/
inductive Cursor.Scans : Cursor → List Token → Cursor → Prop
  | nil (c : Cursor) : Scans c [] c
  | cons {c c' : Cursor} {token : Token} {tokens : List Token} : c.lexeme.token = .ok token →
      token.kind ≠ .endOfText → Scans c.lexeme.next tokens c' → Scans c (token :: tokens) c'

/-- Two tokens of one kind and one value, wherever they stand. -/
structure Token.Alike (token token' : Token) : Prop where
  kind_eq : token.kind = token'.kind
  value_eq : token.value = token'.value

namespace Cursor.Scans

variable {c c' : Cursor} {tokens : List Token}

/-- The lexemes from a cursor on are those of the stretch and those behind it. -/
theorem lexemes_eq (h : c.Scans tokens c') :
    c.lexemes.map Lexeme.token = tokens.map .ok ++ c'.lexemes.map Lexeme.token := by
  induction h with
  | nil => rfl
  | @cons c c' token tokens htoken hkind _ ih =>
    have hend : c.lexeme.isEnd = false := by
      rw [Lexeme.isEnd_of_ok htoken]
      exact beq_false_of_ne hkind
    rw [ConsoleLisp.lexemes_eq c, hend, if_neg Bool.false_ne_true, List.map_cons, htoken, ih]
    rfl

/-- **A stretch spans a part of the text**, which is not empty unless the stretch is, up to the end
of its last token. -/
theorem cuts (h : c.Scans tokens c') : ∃ units, c.rest = units ++ c'.rest ∧
    c'.place = c.place.after units ∧ (units = [] → tokens = []) ∧
    ∀ last ∈ tokens.getLast?, last.stop = c'.place := by
  induction h with
  | nil c => exact ⟨[], rfl, rfl, fun _ => rfl, nofun⟩
  | @cons c c' token tokens htoken hkind hscan ih =>
    obtain ⟨gap, span, hrest, -, hreads, -, hstop, hnext⟩ := lexeme_cuts htoken
    obtain ⟨units, hunits, hplace, hnil, hlast⟩ := ih
    refine ⟨gap ++ span ++ units, ?_, ?_, fun h => ?_, fun last hmem => ?_⟩
    · rw [hrest, hunits]
      simp only [List.append_assoc]
    · rw [hplace, hnext, hstop, Location.after_append c.place (gap ++ span)]
    · simp only [List.append_eq_nil_iff] at h
      exact absurd h.1.2 (hreads.ne_nil hkind)
    · cases tokens with
      | nil =>
        obtain rfl : token = last := by simpa using hmem
        cases hscan
        exact hnext.symm
      | cons => exact hlast last (by simpa using hmem)

/-- From the start of a text a stretch goes over the units up to its offset. -/
theorem splits {source : Text} (h : (Cursor.ofText source).Scans tokens c) :
    source = source.take c.place.offset ++ c.rest ∧ c.place.offset ≤ source.length := by
  obtain ⟨units, hunits, hplace, -, -⟩ := h.cuts
  have hsource : source = units ++ c.rest := hunits
  have hoffset : c.place.offset = units.length := by
    rw [hplace, Cursor.ofText, Location.offset_start_after]
  rw [hoffset, hsource, List.take_left, List.length_append]
  exact ⟨rfl, Nat.le_add_right _ _⟩

/-- The first token has the same kind with more text behind a stretch. -/
theorem kind_eq {first first' : Token} {tokens' : List Token} {more : Text} {c'' : Cursor}
    (h : c.Scans (first :: tokens) c')
    (h' : Cursor.Scans ⟨c.rest ++ more, c.place⟩ (first' :: tokens') c'') :
    first'.kind = first.kind := by
  cases h with
  | cons htoken hkind _ =>
  cases h' with
  | cons htoken' _ _ =>
  rcases lexeme_append htoken hkind more with hsame | ⟨hatom, -, token, htoken'', hatom'⟩
  · cases (congrArg Lexeme.token hsame).symm.trans htoken'
    rfl
  · cases htoken''.symm.trans htoken'
    exact hatom'.trans hatom.symm

/-- An atom at the end of a stretch is bounded. -/
theorem isBounded (h : c.Scans tokens c') :
    ∀ last ∈ tokens.getLast?, last.kind = .atom → c'.rest.IsBounded := by
  induction h with
  | nil => exact nofun
  | @cons c c' token tokens htoken _ hscan ih =>
    intro last hmem hatom
    cases tokens with
    | nil =>
      obtain rfl : token = last := by simpa using hmem
      obtain ⟨_, _, -, -, hreads, -, -, -⟩ := lexeme_cuts htoken
      rw [hatom] at hreads
      cases hscan
      exact hreads.rest_isBounded
    | cons => exact ih last (by simpa using hmem) hatom

/-- **The units of a stretch are read alike in another text and at another place.** What follows
them has to bound the last token where that is an atom. -/
theorem transfer (h : c.Scans tokens c') {units : Text} (hunits : c.rest = units ++ c'.rest)
    (rest : Text) (hrest : ∀ last ∈ tokens.getLast?, last.kind = .atom → rest.IsBounded)
    (place : Location) : ∃ tokens', List.Forall₂ Token.Alike tokens tokens' ∧
      Cursor.Scans ⟨units ++ rest, place⟩ tokens' ⟨rest, place.after units⟩ := by
  induction h generalizing units place with
  | nil c =>
    obtain rfl : units = [] := by simpa using hunits
    exact ⟨[], .nil, .nil _⟩
  | @cons c c' token tokens htoken hkind hscan ih =>
    obtain ⟨gap, span, hcut, htrivia, hreads, -, -, -⟩ := lexeme_cuts htoken
    obtain ⟨more, hmore, -, hnil, -⟩ := hscan.cuts
    obtain rfl : units = gap ++ (span ++ more) := by
      refine List.append_cancel_right (hunits.symm.trans (hcut.trans ?_))
      rw [hmore]
      simp only [List.append_assoc]
    rw [hmore] at htrivia hreads
    -- only a last token has the new text right behind it
    have hlast : ∀ last ∈ tokens.getLast?, last.kind = .atom → rest.IsBounded := fun last hmem => by
      refine hrest last ?_
      cases tokens with
      | nil => cases hmem
      | cons => exact hmem
    have hbounded : token.kind = .atom → (more ++ rest).IsBounded := fun hatom => by
      cases more with
      | nil =>
        obtain rfl := hnil rfl
        exact hrest token rfl hatom
      | cons v more =>
        rw [hatom] at hreads
        exact hreads.rest_isBounded
    have hreads' := hreads.congr hkind hbounded
    have htrivia' : IsTrivia (span ++ (more ++ rest)) gap := by
      obtain ⟨u, span, rfl⟩ := List.exists_cons_of_ne_nil (hreads.ne_nil hkind)
      exact htrivia.congr
    obtain ⟨tokens', halike, hscan'⟩ := ih hmore hlast (place.after (gap ++ span))
    have hlexeme := hreads'.lexeme_eq htrivia' place
    refine ⟨⟨token.kind, token.value, place.after gap, place.after (gap ++ span)⟩ :: tokens',
      .cons ⟨rfl, rfl⟩ halike, ?_⟩
    simp only [List.append_assoc]
    refine .cons (by rw [hlexeme]) hkind ?_
    rw [hlexeme, ← List.append_assoc, Location.after_append place (gap ++ span)]
    exact hscan'

end Cursor.Scans

/-- The first tokens of a scan are a stretch, and what comes next stands behind it. -/
theorem scans_iff {c : Cursor} {tokens : List Token} {next : Except LexicalError Token} :
    (∃ c', c.Scans tokens c' ∧ c'.lexeme.token = next) ↔
      tokens.map .ok ++ [next] <+: c.lexemes.map Lexeme.token := by
  constructor
  · rintro ⟨c', hscan, rfl⟩
    obtain ⟨rest, hlexemes⟩ := exists_lexemes_eq c'
    rw [hscan.lexemes_eq, hlexemes, List.prefix_append_right_inj]
    exact ⟨_, rfl⟩
  · intro h
    induction tokens generalizing c with
    | nil =>
      obtain ⟨rest, hlexemes⟩ := exists_lexemes_eq c
      rw [hlexemes] at h
      exact ⟨c, .nil c, (List.cons_prefix_cons.mp h).1.symm⟩
    | cons token tokens ih =>
      rw [lexemes_eq c] at h
      split at h
      · have hlength := h.length_le
        simp at hlength
      · next hend =>
        obtain ⟨htoken, hrest⟩ := List.cons_prefix_cons.mp h
        obtain ⟨c', hscan, hnext⟩ := ih hrest
        refine ⟨c', .cons htoken.symm (fun hkind => hend ?_) hscan, hnext⟩
        rw [Lexeme.isEnd_of_ok htoken.symm]
        exact beq_iff_eq.mpr hkind

/-! ## Places -/

/-- The cursor stands in the text: its rest ends the text, and its place is that of the rest. -/
def Cursor.StandsIn (c : Cursor) (t : Text) : Prop :=
  ∃ before, t = before ++ c.rest ∧ c.place = Location.start.after before

namespace Cursor.StandsIn

variable {c c' : Cursor} {t : Text} {tokens : List Token} {token : Token}

theorem ofText (t : Text) : (Cursor.ofText t).StandsIn t := ⟨[], rfl, rfl⟩

theorem scans (h : c.StandsIn t) (hscan : c.Scans tokens c') : c'.StandsIn t := by
  obtain ⟨before, rfl, hplace⟩ := h
  obtain ⟨units, hunits, hplace', -, -⟩ := hscan.cuts
  refine ⟨before ++ units, ?_, ?_⟩
  · rw [hunits, List.append_assoc]
  · rw [hplace', hplace, ← Location.after_append]

/-- The place behind some units of the rest is counted right. -/
theorem isAt_after (h : c.StandsIn t) {units rest : Text} (hrest : c.rest = units ++ rest) :
    t.IsAt (c.place.after units) := by
  obtain ⟨before, rfl, hplace⟩ := h
  rw [hplace, ← Location.after_append, hrest, ← List.append_assoc]
  exact Text.isAt_after _ _

/-- **The places of a token are counted right**, and the end of the text is at its end. -/
theorem isAt_token (h : c.StandsIn t) (htoken : c.lexeme.token = .ok token) :
    t.IsAt token.start ∧ (token.kind = .endOfText → token.start = Location.start.after t) := by
  obtain ⟨gap, span, hrest, -, hreads, hstart, -, -⟩ := lexeme_cuts htoken
  rw [hstart]
  refine ⟨h.isAt_after hrest, fun hkind => ?_⟩
  obtain ⟨rfl, hnil⟩ := hreads.eq_nil hkind
  obtain ⟨before, rfl, hplace⟩ := h
  rw [hplace, hrest, hnil, ← Location.after_append, List.append_nil, List.append_nil]

/-- The places of the tokens of a stretch are counted right. -/
theorem isAt_of_mem (h : c.StandsIn t) (hscan : c.Scans tokens c') :
    ∀ token ∈ tokens, t.IsAt token.start := by
  induction hscan with
  | nil => exact nofun
  | cons htoken hkind _ ih =>
    exact List.forall_mem_cons.mpr
      ⟨(h.isAt_token htoken).1, ih (h.scans (.cons htoken hkind (.nil _)))⟩

end Cursor.StandsIn

/-- A lexeme is that of the token behind the trivia. -/
theorem exists_lexeme_eq (c : Cursor) : ∃ gap rest, c.rest = gap ++ rest ∧ rest.StartsToken ∧
    c.lexeme = Cursor.lexeme ⟨rest, c.place.after gap⟩ := by
  obtain ⟨gap, hrest, -, htrivia⟩ := skipTrivia_cuts c.rest c.place
  obtain ⟨-, hstart⟩ := skipTrivia_spec false c.rest c.place
  generalize (skipTrivia false c.rest c.place).rest = rest at hrest htrivia hstart
  have hstarts : rest.StartsToken := by
    cases rest with
    | nil => trivial
    | cons u rest => exact hstart u rest rfl
  refine ⟨gap, rest, hrest, hstarts, ?_⟩
  rw [← htrivia.lexeme_eq hstarts, ← hrest]

/-- **A lexical error is one of a string literal.** -/
theorem exists_of_lexeme_error {c : Cursor} {error : LexicalError}
    (h : c.lexeme.token = .error error) : ∃ gap body, c.rest = gap ++ unit '"' :: body ∧
      (Cursor.lexeme ⟨unit '"' :: body, c.place.after gap⟩).token = .error error := by
  obtain ⟨gap, rest, hrest, hstarts, hlexeme⟩ := exists_lexeme_eq c
  rw [hlexeme] at h
  cases rest with
  | nil => cases h
  | cons u rest =>
    by_cases hquote : u = unit '"'
    · subst hquote
      exact ⟨gap, rest, hrest, h⟩
    · unfold Cursor.lexeme at h
      rw [skipTrivia_token hstarts.1 hstarts.2] at h
      dsimp only at h
      split_ifs at h

/-- At the end of the text there is nothing but trivia, and there only. -/
theorem isEnd_iff (c : Cursor) : c.lexeme.isEnd = true ↔ IsTrivia [] c.rest := by
  constructor
  · intro h
    cases htoken : c.lexeme.token with
    | error error =>
      unfold Lexeme.isEnd at h
      rw [htoken] at h
      cases h
    | ok token =>
      obtain ⟨gap, span, hrest, htrivia, hreads, -, -, -⟩ := lexeme_cuts htoken
      rw [Lexeme.isEnd_of_ok htoken] at h
      obtain ⟨rfl, hnil⟩ := hreads.eq_nil (beq_iff_eq.mp h)
      rw [hnil] at hrest htrivia
      rw [hrest, List.append_nil, List.append_nil]
      exact htrivia
  · intro h
    have htrivia : IsTrivia ([] ++ []) c.rest := h
    have hlexeme := Reads.endOfText.lexeme_eq htrivia c.place
    rw [List.append_nil, List.append_nil] at hlexeme
    rw [show c.lexeme = _ from hlexeme]
    rfl

end ConsoleLisp
