import Mathlib.Data.List.Induction
import ConsoleLisp.Proofs.Source.Scan

/-!
# Tokens partition their text

The scan is a loop over tokens up to the end of the text or to the first lexical error.

* `Cursor.Stops c result`: from `c` on that loop stops, after some number of tokens, with `result`.
* `IsTrivia rest gap`: `gap` is white space and comments, and every comment runs up to the next
  line feed or, when `rest` is empty, to the end of the text.
* `Decodes body value`: the units of a string literal and what they stand for.
* `Token.Spans t token`: what a token says of the part of `t` between its two places.
* `Partitions t tokens`: the tokens lie one behind another in `t`, the last one is the end of the
  text, and trivia fills the gaps.

Results:
* `Text.isAt_after`: the place after a part of a text has its line, its column and its offset.
* `stringBody_decodes`, `Decodes.stringBody_closed`: the body of a string literal, both ways.
* `lexeme_cuts`: a lexeme takes trivia and then the units of its token.
* `Cut.partitions`: a text cut into trivia and tokens from its start on is partitioned.
* **`tokenize_partitions`**: the scan of every text stops, and its tokens partition the text.
-/

namespace ConsoleLisp

/-! ## Places -/

/-- A place is counted right in a text: its line by the line feeds in front of it, its column by the
units since the last of them. -/
structure Text.IsAt (t : Text) (place : Location) : Prop where
  within : place.offset ≤ t.length
  line : place.line = 1 + (t.take place.offset).count (unit '\n')
  column : place.column =
    1 + ((t.take place.offset).reverse.takeWhile (· != unit '\n')).length

/-- The part of a text between two offsets. -/
def Text.between (t : Text) (i j : Nat) : Text := (t.take j).drop i

theorem Location.after_singleton (place : Location) (s : Text) (u : CodeUnit) :
    place.after (s ++ [u]) = (place.after s).advance u := by
  rw [after_append]
  rfl

theorem Location.offset_start_after (s : Text) : (Location.start.after s).offset = s.length := by
  rw [offset_after]
  exact Nat.zero_add _

theorem Location.line_start_after (s : Text) :
    (Location.start.after s).line = 1 + s.count (unit '\n') := by
  induction s using List.reverseRecOn with
  | nil => rfl
  | append_singleton s u ih =>
    rw [after_singleton, advance]
    by_cases hu : u = unit '\n'
    · simp [hu, ih]
      omega
    · simp [hu, ih]

theorem Location.column_start_after (s : Text) :
    (Location.start.after s).column = 1 + (s.reverse.takeWhile (· != unit '\n')).length := by
  induction s using List.reverseRecOn with
  | nil => rfl
  | append_singleton s u ih =>
    rw [after_singleton, advance]
    by_cases hu : u = unit '\n'
    · simp [hu]
    · simp [hu, ih]
      omega

/-- The place after the first part of a text. -/
theorem Text.isAt_after (s rest : Text) : (s ++ rest).IsAt (Location.start.after s) := by
  have htake : (s ++ rest).take (Location.start.after s).offset = s := by
    rw [Location.offset_start_after, List.take_left]
  constructor
  · rw [Location.offset_start_after, List.length_append]
    exact Nat.le_add_right _ _
  · rw [htake, Location.line_start_after]
  · rw [htake, Location.column_start_after]

theorem Text.between_append (before span rest : Text) :
    (before ++ span ++ rest).between before.length (before ++ span).length = span := by
  rw [between, List.take_left, List.drop_left]

/-! ## Trivia -/

/-- Nothing, or a line feed, follows. -/
def Text.EndsLine : Text → Prop
  | [] => True
  | u :: _ => u = unit '\n'

/-- White space and comments in front of `rest`. -/
inductive IsTrivia (rest : Text) : Text → Prop
  | nil : IsTrivia rest []
  | space {u : CodeUnit} {gap : Text} : isSpace u = true → IsTrivia rest gap →
      IsTrivia rest (u :: gap)
  /-- A comment does not contain the line feed that ends it. -/
  | comment {body gap : Text} : (∀ u ∈ body, u ≠ unit '\n') → Text.EndsLine (gap ++ rest) →
      IsTrivia rest gap → IsTrivia rest (unit ';' :: (body ++ gap))

theorem isSpace_isDelimiter {u : CodeUnit} (h : isSpace u = true) : isDelimiter u = true := by
  simp [isDelimiter, h]

/-- In front of a unit that is no line feed, trivia ends with a delimiter. -/
theorem IsTrivia.isBounded_reverse {u : CodeUnit} {rest gap : Text} (h : IsTrivia (u :: rest) gap)
    (hu : u ≠ unit '\n') (before : Text) (hgap : gap ≠ []) :
    Text.IsBounded (before ++ gap).reverse := by
  induction h generalizing before with
  | nil => exact absurd rfl hgap
  | @space v gap hv _ ih =>
    by_cases hnil : gap = []
    · rw [hnil, List.reverse_append]
      exact isSpace_isDelimiter hv
    · simpa using ih (before ++ [v]) hnil
  | @comment body gap _ hends _ ih =>
    by_cases hnil : gap = []
    · rw [hnil] at hends
      exact absurd hends hu
    · simpa using ih (before ++ unit ';' :: body) hnil

/-- Inside a comment, everything in front of the next line feed is skipped. -/
theorem skipTrivia_comment (t : Text) (place : Location) :
    skipTrivia true t place = skipTrivia false (t.dropWhile (· != unit '\n'))
      (place.after (t.takeWhile (· != unit '\n'))) := by
  induction t generalizing place with
  | nil => rfl
  | cons u t ih =>
    rw [skipTrivia, if_pos rfl]
    by_cases hu : u = unit '\n'
    · subst hu
      exact (skipTrivia_space (by decide) t place).symm
    · rw [List.takeWhile_cons_of_pos (by simpa using hu),
        List.dropWhile_cons_of_pos (by simpa using hu), bne_iff_ne.mpr hu, ih]
      rfl

theorem endsLine_dropWhile (t : Text) : Text.EndsLine (t.dropWhile (· != unit '\n')) := by
  induction t with
  | nil => trivial
  | cons u t ih =>
    by_cases hu : u = unit '\n'
    · rw [List.dropWhile_cons_of_neg (by simpa using hu)]
      exact hu
    · rwa [List.dropWhile_cons_of_pos (by simpa using hu)]

/-- What is skipped in front of a token is trivia. -/
theorem skipTrivia_cuts (t : Text) (place : Location) :
    ∃ gap, t = gap ++ (skipTrivia false t place).rest ∧
      (skipTrivia false t place).place = place.after gap ∧
      IsTrivia (skipTrivia false t place).rest gap := by
  generalize hn : t.length = n
  induction n using Nat.strongRecOn generalizing t place with
  | ind n ih =>
  cases t with
  | nil => exact ⟨[], rfl, rfl, .nil⟩
  | cons u t =>
    by_cases hspace : isSpace u = true
    · rw [skipTrivia_space hspace]
      obtain ⟨gap, htext, hplace, htrivia⟩ := ih t.length (hn ▸ Nat.lt_succ_self _) t _ rfl
      exact ⟨u :: gap, congrArg (u :: ·) htext, hplace, .space hspace htrivia⟩
    by_cases hu : u = unit ';'
    · subst hu
      let comment := t.takeWhile (· != unit '\n')
      let behind := t.dropWhile (· != unit '\n')
      have hcut : comment ++ behind = t := List.takeWhile_append_dropWhile
      have hless : behind.length < n := by
        rw [← hn, List.length_cons, ← hcut, List.length_append]
        omega
      have hskip : skipTrivia false (unit ';' :: t) place =
          skipTrivia false behind ((place.advance (unit ';')).after comment) := by
        rw [← skipTrivia_comment]
        rfl
      obtain ⟨gap, htext, hplace, htrivia⟩ := ih _ hless behind
        ((place.advance (unit ';')).after comment) rfl
      have hcomment : ∀ v ∈ comment, v ≠ unit '\n' := fun v hv => by
        simpa using List.all_eq_true.mp List.all_takeWhile v hv
      rw [hskip]
      refine ⟨unit ';' :: (comment ++ gap), ?_, ?_, .comment hcomment ?_ htrivia⟩
      · rw [List.cons_append, List.append_assoc, ← htext, hcut]
      · rw [hplace, ← Location.after_append]
        rfl
      · rw [← htext]
        exact endsLine_dropWhile t
    · rw [skipTrivia_token (by simpa using hspace) hu]
      exact ⟨[], rfl, rfl, .nil⟩

/-! ## The units of a string literal -/

/-- The body of a string literal and its value, one unit of the value after another. -/
inductive Decodes : Text → Text → Prop
  | nil : Decodes [] []
  | plain {u : CodeUnit} {body value : Text} : u ≠ unit '"' → u ≠ unit '\\' → Decodes body value →
      Decodes (u :: body) (u :: value)
  | escaped {letter u : CodeUnit} {body value : Text} : unescape letter = some u →
      Decodes body value → Decodes (unit '\\' :: letter :: body) (u :: value)

/-- A string literal that is read runs to its closing quote. -/
theorem stringBody_decodes (opened : Location) (t : Text) (place : Location) :
    ∀ value next, stringBody opened t place = (.ok value, next) →
      ∃ body, Decodes body value ∧ t = body ++ unit '"' :: next.rest ∧
        next.place = place.after (body ++ [unit '"']) := by
  fun_induction stringBody opened t place with
  | case1 => rintro value next ⟨⟩
  | case2 place rest =>
    rintro value next ⟨⟩
    exact ⟨[], .nil, rfl, rfl⟩
  | case3 => rintro value next ⟨⟩
  | case4 => rintro value next ⟨⟩
  | case5 place letter rest u hletter body behind _ inside heq ih =>
    rintro value next h
    obtain ⟨hbody, rfl⟩ := Prod.mk.inj h
    cases body with
    | error => cases hbody
    | ok tail =>
      cases hbody
      obtain ⟨body, hdecodes, htext, hplace⟩ := ih _ _ heq
      exact ⟨unit '\\' :: letter :: body, .escaped hletter hdecodes,
        congrArg (unit '\\' :: letter :: ·) htext, hplace⟩
  | case6 u rest place hquote hback body behind heq ih =>
    rintro value next h
    obtain ⟨hbody, rfl⟩ := Prod.mk.inj h
    cases body with
    | error => cases hbody
    | ok tail =>
      cases hbody
      obtain ⟨body, hdecodes, htext, hplace⟩ := ih _ _ heq
      exact ⟨u :: body, .plain hquote hback hdecodes, congrArg (u :: ·) htext, hplace⟩

/-- The scan of a literal goes over units that decode and puts their value in front. -/
theorem Decodes.stringBody_append {units value : Text} (h : Decodes units value)
    (opened : Location) (t : Text) (place : Location) :
    stringBody opened (units ++ t) place =
      ((stringBody opened t (place.after units)).1.map (value ++ ·),
        (stringBody opened t (place.after units)).2) := by
  have hcons (u : CodeUnit) (value : Text) (x : Except LexicalError Text) :
      (x.map (value ++ ·)).map (u :: ·) = x.map (u :: value ++ ·) := by
    cases x <;> rfl
  induction h generalizing place with
  | nil =>
    show stringBody opened t place = ((stringBody opened t place).1.map id, _)
    rw [Except.map_id, id]
    rfl
  | @plain u units value hquote hback _ ih =>
    show stringBody opened (u :: (units ++ t)) place = _
    rw [stringBody.eq_def]
    simp only [if_neg hquote, if_neg hback, ih, hcons]
    rfl
  | @escaped letter u units value hletter _ ih =>
    show stringBody opened (unit '\\' :: letter :: (units ++ t)) place = _
    rw [stringBody, if_neg (by decide), if_pos rfl]
    simp only [hletter, ih, hcons]
    rfl

/-- A string literal gives its value and ends behind its closing quote. -/
theorem Decodes.stringBody_closed {body value : Text} (h : Decodes body value) (opened : Location)
    (rest : Text) (place : Location) :
    stringBody opened (body ++ unit '"' :: rest) place =
      (.ok value, ⟨rest, place.after (body ++ [unit '"'])⟩) := by
  have hquote (p : Location) :
      stringBody opened (unit '"' :: rest) p = (.ok [], ⟨rest, p.advance (unit '"')⟩) := by
    rw [stringBody.eq_def]
    simp
  rw [h.stringBody_append, hquote, Location.after_singleton]
  simp [Except.map]

/-! ## One lexeme -/

/-- What a token of a kind and a value spans, and what may stand behind it. -/
inductive Reads : TokenKind → Text → Text → Text → Prop
  | openList (rest : Text) : Reads .openList [unit '('] [unit '('] rest
  | closeList (rest : Text) : Reads .closeList [unit ')'] [unit ')'] rest
  | quote (rest : Text) : Reads .quote [unit '\x27'] [unit '\x27'] rest
  | string {body value : Text} (rest : Text) : Decodes body value →
      Reads .string value (unit '"' :: (body ++ [unit '"'])) rest
  | atom {span rest : Text} : span ≠ [] → (∀ u ∈ span, isDelimiter u = false) →
      Text.IsBounded rest → Reads .atom span span rest
  | endOfText : Reads .endOfText [] [] []

theorem isBounded_dropWhile (t : Text) : Text.IsBounded (t.dropWhile (!isDelimiter ·)) := by
  induction t with
  | nil => trivial
  | cons u t ih =>
    by_cases hu : isDelimiter u = true
    · rw [List.dropWhile_cons_of_neg (by simpa using hu)]
      exact hu
    · rwa [List.dropWhile_cons_of_pos (by simpa using hu)]

/-- A token that a lexeme starts with spans the units up to the cursor behind it. -/
theorem lexeme_cuts {c : Cursor} {token : Token} (h : c.lexeme.token = .ok token) :
    ∃ gap span, c.rest = gap ++ (span ++ c.lexeme.next.rest) ∧
      IsTrivia (span ++ c.lexeme.next.rest) gap ∧
      Reads token.kind token.value span c.lexeme.next.rest ∧
      token.start = c.place.after gap ∧ token.stop = c.place.after (gap ++ span) ∧
      c.lexeme.next.place = token.stop := by
  obtain ⟨gap, htext, hplace, htrivia⟩ := skipTrivia_cuts c.rest c.place
  obtain ⟨-, hstart⟩ := skipTrivia_spec false c.rest c.place
  refine ⟨gap, ?_⟩
  rw [htext]
  simp only [Location.after_append, ← hplace]
  revert h
  unfold Cursor.lexeme
  generalize skipTrivia false c.rest c.place = here at htrivia hstart
  obtain ⟨_ | ⟨u, rest⟩, start⟩ := here
  · rintro ⟨⟩
    exact ⟨[], rfl, htrivia, .endOfText, rfl, rfl, rfl⟩
  obtain ⟨hspace, hcomment⟩ := hstart u rest rfl
  dsimp only
  split_ifs with hopen hclose hquote hstring
  · rintro ⟨⟩
    exact ⟨[u], rfl, htrivia, hopen ▸ .openList rest, rfl, rfl, rfl⟩
  · rintro ⟨⟩
    exact ⟨[u], rfl, htrivia, hclose ▸ .closeList rest, rfl, rfl, rfl⟩
  · rintro ⟨⟩
    exact ⟨[u], rfl, htrivia, hquote ▸ .quote rest, rfl, rfl, rfl⟩
  · rcases hbody : stringBody start rest (start.advance u) with ⟨_ | value, next⟩
    · rintro ⟨⟩
    · rintro ⟨⟩
      obtain ⟨body, hdecodes, hrest, hnext⟩ := stringBody_decodes _ _ _ _ _ hbody
      have hwhole : u :: rest = unit '"' :: (body ++ [unit '"']) ++ next.rest := by
        rw [hrest, hstring]
        simp
      refine ⟨unit '"' :: (body ++ [unit '"']), congrArg (gap ++ ·) hwhole, ?_,
        .string _ hdecodes, rfl, ?_, rfl⟩
      · exact hwhole ▸ htrivia
      · rw [hnext, hstring]
        rfl
  · rintro ⟨⟩
    have hu := isDelimiter_eq_false hspace hcomment hopen hclose hquote hstring
    have hcut : (u :: rest).takeWhile (!isDelimiter ·) ++ (u :: rest).dropWhile (!isDelimiter ·) =
        u :: rest := List.takeWhile_append_dropWhile
    refine ⟨(u :: rest).takeWhile (!isDelimiter ·), congrArg (gap ++ ·) hcut.symm, ?_,
      .atom ?_ ?_ (isBounded_dropWhile _), rfl, rfl, rfl⟩
    · exact hcut.symm ▸ htrivia
    · rw [List.takeWhile_cons_of_pos (by simpa using hu)]
      exact List.cons_ne_nil _ _
    · exact fun v hv => by simpa using List.all_eq_true.mp List.all_takeWhile v hv

/-! ## All lexemes -/

/-- The text `rest`, with `before` in front of it, as trivia and tokens up to the end of the text. -/
inductive Cut : Text → List Token → Text → Prop
  | last {before gap : Text} {token : Token} : IsTrivia [] gap →
      token.kind = .endOfText → Reads token.kind token.value [] [] →
      token.start = Location.start.after (before ++ gap) → token.stop = token.start →
      Cut before [token] gap
  | token {before gap span rest : Text} {token : Token} {tokens : List Token} :
      IsTrivia (span ++ rest) gap →
      token.kind ≠ .endOfText → Reads token.kind token.value span rest →
      (token.kind = .atom → Text.IsBounded (before ++ gap).reverse) →
      token.start = Location.start.after (before ++ gap) →
      token.stop = Location.start.after (before ++ gap ++ span) →
      Cut (before ++ gap ++ span) tokens rest → Cut before (token :: tokens) (gap ++ (span ++ rest))

theorem Reads.ne_nil {kind : TokenKind} {value span rest : Text} (h : Reads kind value span rest)
    (hkind : kind ≠ .endOfText) : span ≠ [] := by
  cases h with
  | atom hne _ _ => exact hne
  | endOfText => exact absurd rfl hkind
  | _ => exact List.cons_ne_nil _ _

theorem Reads.eq_nil {kind : TokenKind} {value span rest : Text}
    (h : Reads kind value span rest) (hkind : kind = .endOfText) : span = [] ∧ rest = [] := by
  cases h with
  | endOfText => exact ⟨rfl, rfl⟩
  | _ => cases hkind

/-- Between a token and the text behind it stands a delimiter on one of the two sides. -/
theorem Reads.isBounded {kind : TokenKind} {value span rest : Text} (h : Reads kind value span rest)
    (hkind : kind ≠ .endOfText) (before : Text) :
    Text.IsBounded (before ++ span).reverse ∨ Text.IsBounded rest := by
  cases h with
  | atom _ _ hrest => exact .inr hrest
  | endOfText => exact absurd rfl hkind
  | string rest _ =>
    refine .inl ?_
    rw [← List.cons_append, ← List.append_assoc, List.reverse_append]
    exact (by decide : isDelimiter (unit '"') = true)
  | openList rest =>
    refine .inl ?_
    rw [List.reverse_append]
    exact (by decide : isDelimiter (unit '(') = true)
  | closeList rest =>
    refine .inl ?_
    rw [List.reverse_append]
    exact (by decide : isDelimiter (unit ')') = true)
  | quote rest =>
    refine .inl ?_
    rw [List.reverse_append]
    exact (by decide : isDelimiter (unit '\x27') = true)

/-- An atom behind trivia has a delimiter or the start of the text in front of it. -/
theorem Reads.isBounded_before {value span rest before gap : Text}
    (h : Reads .atom value span rest) (htrivia : IsTrivia (span ++ rest) gap)
    (hbefore : Text.IsBounded before.reverse ∨ Text.IsBounded (gap ++ (span ++ rest))) :
    Text.IsBounded (before ++ gap).reverse := by
  cases h with
  | atom hne hatom _ =>
    obtain ⟨u, span, rfl⟩ := List.exists_cons_of_ne_nil hne
    have hu : isDelimiter u = false := hatom u List.mem_cons_self
    by_cases hgap : gap = []
    · subst hgap
      rw [List.append_nil]
      refine hbefore.resolve_right fun h => ?_
      exact Bool.false_ne_true (hu.symm.trans h)
    · refine htrivia.isBounded_reverse ?_ before hgap
      rintro rfl
      exact Bool.false_ne_true (hu.symm.trans (by decide))

theorem Lexeme.isEnd_of_ok {l : Lexeme} {token : Token} (h : l.token = .ok token) :
    l.isEnd = (token.kind == .endOfText) := by
  unfold isEnd
  rw [h]

/-- **The tokens from a cursor on cut its text.** -/
theorem lexemes_cut {c : Cursor} {before : Text} {tokens : List Token}
    (hplace : c.place = Location.start.after before)
    (hbefore : Text.IsBounded before.reverse ∨ Text.IsBounded c.rest)
    (h : c.lexemes.mapM Lexeme.token = .ok tokens) : Cut before tokens c.rest := by
  generalize hn : c.rest.length = n
  induction n using Nat.strongRecOn generalizing c before tokens with
  | ind n ih =>
  rw [lexemes_eq] at h
  cases htoken : c.lexeme.token with
  | error error =>
    split at h
    · rw [List.mapM_cons, htoken] at h
      cases h
    · rw [List.mapM_cons, htoken] at h
      cases h
  | ok token =>
    obtain ⟨gap, span, hrest, htrivia, hreads, hstart, hstop, hnext⟩ := lexeme_cuts htoken
    rw [hplace, ← Location.after_append] at hstart hstop
    rw [← List.append_assoc] at hstop
    have hprogress := (lexeme_spec c).1
    rw [Lexeme.isEnd_of_ok htoken] at h hprogress
    by_cases hkind : token.kind = .endOfText
    · have hend : (token.kind == .endOfText) = true := beq_iff_eq.mpr hkind
      rw [hend, if_pos rfl, List.mapM_cons, htoken] at h
      cases h
      obtain ⟨rfl, hbehind⟩ := hreads.eq_nil hkind
      rw [hbehind] at hrest htrivia hreads
      rw [hrest, List.append_nil, List.append_nil]
      rw [List.append_nil, ← hstart] at hstop
      exact .last htrivia hkind hreads hstart hstop
    · have hend : (token.kind == .endOfText) = false := beq_false_of_ne hkind
      rw [hend, if_neg Bool.false_ne_true, List.mapM_cons, htoken] at h
      cases htail : c.lexeme.next.lexemes.mapM Lexeme.token with
      | error error =>
        rw [htail] at h
        cases h
      | ok tail =>
        rw [htail] at h
        cases h
        rw [hrest]
        refine .token htrivia hkind hreads (fun hatom => ?_) hstart hstop ?_
        · rw [hatom] at hreads
          exact hreads.isBounded_before htrivia (hrest ▸ hbefore)
        · exact ih _ (hn ▸ hprogress hend) (hnext.trans hstop) (hreads.isBounded hkind _) htail rfl

/-! ## The partition -/

/-- What a token says of its text: its places are counted right, they enclose what the token was
read from, and an atom does not start inside a longer one. -/
structure Token.Spans (t : Text) (token : Token) : Prop where
  start_isAt : t.IsAt token.start
  stop_isAt : t.IsAt token.stop
  reads : Reads token.kind token.value (t.between token.start.offset token.stop.offset)
    (t.drop token.stop.offset)
  not_empty : token.kind ≠ .endOfText → token.start.offset < token.stop.offset
  atom_left : token.kind = .atom → Text.IsBounded (t.take token.start.offset).reverse

/-- The offsets between the ends of tokens and the starts of the tokens behind them. -/
def gaps (behind : Nat) : List Token → List (Nat × Nat)
  | [] => []
  | token :: tokens => (behind, token.start.offset) :: gaps token.stop.offset tokens

/-- From an offset of `t` on there is nothing but the tokens and trivia, up to the end of the text,
which is the last token and no other. -/
structure Partitions (t : Text) (behind : Nat) (tokens : List Token) : Prop where
  ends : ∃ body last, tokens = body ++ [last] ∧ last.kind = .endOfText ∧
    last.start.offset = t.length ∧ last.stop = last.start ∧
    ∀ token ∈ body, token.kind ≠ .endOfText
  spans : ∀ token ∈ tokens, token.Spans t
  starts : ∀ token ∈ tokens, behind ≤ token.start.offset
  ordered : tokens.Pairwise fun token later => token.stop.offset ≤ later.start.offset
  trivia : ∀ gap ∈ gaps behind tokens, IsTrivia (t.drop gap.2) (t.between gap.1 gap.2)

/-- The end of the text behind trivia. -/
theorem Partitions.last {before gap : Text} {token : Token} (htrivia : IsTrivia [] gap)
    (hkind : token.kind = .endOfText) (hreads : Reads token.kind token.value [] [])
    (hstart : token.start = Location.start.after (before ++ gap)) (hstop : token.stop = token.start) :
    Partitions (before ++ gap) before.length [token] := by
  have hoffset : token.start.offset = (before ++ gap).length := by
    rw [hstart, Location.offset_start_after]
  have hisAt : (before ++ gap).IsAt token.start := by
    simpa [hstart] using Text.isAt_after (before ++ gap) []
  have hspan : (before ++ gap).between token.start.offset token.start.offset = [] := by
    rw [hoffset, Text.between, List.take_length, List.drop_length]
  have hgap : (before ++ gap).between before.length token.start.offset = gap := by
    rw [hoffset, Text.between, List.take_length, List.drop_left]
  have hrest : (before ++ gap).drop token.start.offset = [] := by
    rw [hoffset, List.drop_length]
  constructor
  · exact ⟨[], token, rfl, hkind, hoffset, hstop, fun _ h => nomatch h⟩
  · intro other h
    obtain rfl := List.mem_singleton.mp h
    constructor
    · exact hisAt
    · exact hstop ▸ hisAt
    · rw [hstop, hspan, hrest]
      exact hreads
    · exact fun h => absurd hkind h
    · intro h
      rw [hkind] at h
      cases h
  · intro other h
    obtain rfl := List.mem_singleton.mp h
    rw [hoffset, List.length_append]
    exact Nat.le_add_right _ _
  · exact List.pairwise_singleton _ _
  · intro place h
    obtain rfl := List.mem_singleton.mp h
    dsimp only
    rw [hrest, hgap]
    exact htrivia

/-- A token in front of a partition. -/
theorem Partitions.token {t : Text} {behind : Nat} {token : Token} {tokens : List Token}
    (h : Partitions t token.stop.offset tokens) (hspans : token.Spans t)
    (hkind : token.kind ≠ .endOfText) (hstart : behind ≤ token.start.offset)
    (htrivia : IsTrivia (t.drop token.start.offset) (t.between behind token.start.offset)) :
    Partitions t behind (token :: tokens) := by
  have hspan := hspans.not_empty hkind
  constructor
  · obtain ⟨body, last, rfl, hlast, hend, hstop, hbody⟩ := h.ends
    exact ⟨token :: body, last, rfl, hlast, hend, hstop, by simpa using ⟨hkind, hbody⟩⟩
  · simpa using ⟨hspans, h.spans⟩
  · intro other hmem
    rcases List.mem_cons.mp hmem with rfl | hmem
    · exact hstart
    · have := h.starts other hmem
      omega
  · exact List.pairwise_cons.mpr ⟨h.starts, h.ordered⟩
  · intro gap hmem
    rcases List.mem_cons.mp hmem with rfl | hmem
    · exact htrivia
    · exact h.trivia gap hmem

/-- **A text that is cut into trivia and tokens is partitioned by the tokens.** -/
theorem Cut.partitions {before rest : Text} {tokens : List Token} (h : Cut before tokens rest) :
    Partitions (before ++ rest) before.length tokens := by
  induction h with
  | last htrivia hkind hreads hstart hstop => exact .last htrivia hkind hreads hstart hstop
  | @token before gap span rest token tokens htrivia hkind hreads hleft hstart hstop _ ih =>
    have htext : before ++ (gap ++ (span ++ rest)) = before ++ gap ++ span ++ rest := by
      simp only [List.append_assoc]
    have hstart' : token.start.offset = (before ++ gap).length := by
      rw [hstart, Location.offset_start_after]
    have hstop' : token.stop.offset = (before ++ gap ++ span).length := by
      rw [hstop, Location.offset_start_after]
    rw [htext]
    refine Partitions.token (hstop' ▸ ih) ?_ hkind ?_ ?_
    · constructor
      · rw [hstart, List.append_assoc]
        exact Text.isAt_after (before ++ gap) _
      · rw [hstop]
        exact Text.isAt_after _ _
      · rw [hstart', hstop', Text.between_append, List.drop_left]
        exact hreads
      · intro _
        rw [hstart', hstop', @List.length_append _ _ span]
        exact Nat.lt_add_of_pos_right (List.length_pos_iff.mpr (hreads.ne_nil hkind))
      · intro hatom
        rw [hstart', List.append_assoc, List.take_left]
        exact hleft hatom
    · rw [hstart', List.length_append]
      exact Nat.le_add_right _ _
    · rw [hstart', List.append_assoc (before ++ gap), List.drop_left, Text.between_append]
      exact htrivia

/-! ## The loop -/

/-- The loop over the tokens from a cursor on stops with a result. -/
inductive Cursor.Stops : Cursor → Except LexicalError (List Token) → Prop
  | error {c : Cursor} {error : LexicalError} : c.lexeme.token = .error error →
      Stops c (.error error)
  | last {c : Cursor} {token : Token} : c.lexeme.token = .ok token → token.kind = .endOfText →
      Stops c (.ok [token])
  | next {c : Cursor} {token : Token} {result : Except LexicalError (List Token)} :
      c.lexeme.token = .ok token → token.kind ≠ .endOfText → Stops c.lexeme.next result →
      Stops c (result.map (token :: ·))

/-- The loop stops, since every token takes some of the text. -/
theorem Cursor.stops (c : Cursor) : c.Stops (c.lexemes.mapM Lexeme.token) := by
  generalize hn : c.rest.length = n
  induction n using Nat.strongRecOn generalizing c with
  | ind n ih =>
  have hprogress := (lexeme_spec c).1
  rw [lexemes_eq]
  cases htoken : c.lexeme.token with
  | error error =>
    have hend : c.lexeme.isEnd = false := by
      unfold Lexeme.isEnd
      rw [htoken]
    rw [hend, if_neg Bool.false_ne_true, List.mapM_cons, htoken]
    exact .error htoken
  | ok token =>
    rw [Lexeme.isEnd_of_ok htoken] at hprogress ⊢
    by_cases hkind : token.kind = .endOfText
    · rw [if_pos (beq_iff_eq.mpr hkind), List.mapM_cons, htoken]
      exact .last htoken hkind
    · have hend : (token.kind == .endOfText) = false := beq_false_of_ne hkind
      have hrest := Stops.next htoken hkind (ih _ (hn ▸ hprogress hend) _ rfl)
      rw [hend, if_neg Bool.false_ne_true, List.mapM_cons, htoken]
      cases hresult : c.lexeme.next.lexemes.mapM Lexeme.token <;> rwa [hresult] at hrest

/-- It stops in one way only. -/
theorem Cursor.Stops.unique {c : Cursor} {result result' : Except LexicalError (List Token)}
    (h : c.Stops result) (h' : c.Stops result') : result = result' := by
  induction h generalizing result' with
  | error htoken =>
    cases h' with
    | error htoken' =>
      rw [htoken] at htoken'
      cases htoken'
      rfl
    | last htoken' _ | next htoken' _ _ => cases htoken.symm.trans htoken'
  | last htoken hkind =>
    cases h' with
    | error htoken' => cases htoken.symm.trans htoken'
    | last htoken' _ =>
      cases htoken.symm.trans htoken'
      rfl
    | next htoken' hkind' _ =>
      cases htoken.symm.trans htoken'
      exact absurd hkind hkind'
  | next htoken hkind _ ih =>
    cases h' with
    | error htoken' => cases htoken.symm.trans htoken'
    | last htoken' hkind' =>
      cases htoken.symm.trans htoken'
      exact absurd hkind' hkind
    | next htoken' _ hrest =>
      cases htoken.symm.trans htoken'
      rw [ih hrest]

/-- **The scan of every text stops, and its tokens partition the text.** They come in the order of
the text, no two share a unit, only the end of the text is empty, each spans what it was read from,
and nothing but white space and comments lies between them. -/
theorem tokenize_partitions (t : Text) :
    (∀ result, (Cursor.ofText t).Stops result ↔ result = tokenize t) ∧
      ∀ tokens, tokenize t = .ok tokens → Partitions t 0 tokens := by
  have hstops : (Cursor.ofText t).Stops (tokenize t) := Cursor.stops _
  constructor
  · intro result
    constructor
    · intro h
      exact h.unique hstops
    · rintro rfl
      exact hstops
  · intro tokens h
    have hcut : Cut [] tokens t := @lexemes_cut (Cursor.ofText t) [] tokens rfl (.inl trivial) h
    exact hcut.partitions

/-- A call over two lines, with a comment and a string. -/
theorem tokenize_partitions_call :
    ∃ tokens, tokenize (text "(f;\n\"c\")") = .ok tokens ∧ tokens.length = 5 ∧
      Partitions (text "(f;\n\"c\")") 0 tokens := by
  have h : tokenize (text "(f;\n\"c\")") = .ok [⟨.openList, text "(", ⟨1, 1, 0⟩, ⟨1, 2, 1⟩⟩,
      ⟨.atom, text "f", ⟨1, 2, 1⟩, ⟨1, 3, 2⟩⟩, ⟨.string, text "c", ⟨2, 1, 4⟩, ⟨2, 4, 7⟩⟩,
      ⟨.closeList, text ")", ⟨2, 4, 7⟩, ⟨2, 5, 8⟩⟩, ⟨.endOfText, [], ⟨2, 5, 8⟩, ⟨2, 5, 8⟩⟩] := by
    decide +kernel
  exact ⟨_, h, rfl, (tokenize_partitions _).2 _ h⟩

end ConsoleLisp
