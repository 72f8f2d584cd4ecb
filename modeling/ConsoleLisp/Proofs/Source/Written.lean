import ConsoleLisp.Heap.Print
import ConsoleLisp.Proofs.Datum.Grammar
import ConsoleLisp.Proofs.Source.Scan

/-!
# Texts that are scanned as they were written

`Lexes t rest tokens place` says that the text `t`, from `place` on and with `rest` behind it, is
scanned as the tokens and nothing else. A string literal gives its value back, since every escape
stands for the unit that it was written for.

Results:
* `Lexes.append`: one text behind another.
* `beginsWith_of_lexes`: what a text by itself begins with.
* `lexes_atom`, `lexes_open`, `lexes_close`, `lexes_space`: what a printer writes.
* `escape_cases`, `decodes_escape`: what a string is written as stands for the string.
* **`lexes_quoteString`**: a string literal is one token with the value of the string.
-/

namespace ConsoleLisp

/-- Scanning the text from the place gives the tokens and goes on with the rest. -/
def Lexes (t rest : Text) (tokens : List Token) (place : Location) : Prop :=
  ∃ read, Cursor.lexemes ⟨t ++ rest, place⟩ = read ++ Cursor.lexemes ⟨rest, place.after t⟩ ∧
    read.map Lexeme.token = tokens.map .ok

theorem Lexes.nil (rest : Text) (place : Location) : Lexes [] rest [] place := ⟨[], rfl, rfl⟩

/-- **One text behind another.** -/
theorem Lexes.append {t u rest : Text} {tokens more : List Token} {place : Location}
    (h : Lexes t (u ++ rest) tokens place) (h' : Lexes u rest more (place.after t)) :
    Lexes (t ++ u) rest (tokens ++ more) place := by
  obtain ⟨read, hread, htokens⟩ := h
  obtain ⟨read', hread', htokens'⟩ := h'
  refine ⟨read ++ read', ?_, ?_⟩
  · rw [List.append_assoc, hread, hread', List.append_assoc, Location.after_append]
  · rw [List.map_append, List.map_append, htokens, htokens']

/-- A text by itself begins with the tokens that it is scanned as. -/
theorem beginsWith_of_lexes {t : Text} {tokens : List Token} (h : Lexes t [] tokens .start) :
    BeginsWith t tokens := by
  obtain ⟨read, hread, htokens⟩ := h
  rw [List.append_nil] at hread
  rw [BeginsWith, ← htokens, scan_eq_lexemes, Cursor.ofText, hread, List.map_append]
  exact List.prefix_append ..

/-- A text whose first lexeme takes all of it. -/
theorem Lexes.one {t rest : Text} {token : Token} {place : Location}
    (h : Cursor.lexeme ⟨t ++ rest, place⟩ = ⟨.ok token, ⟨rest, place.after t⟩⟩)
    (hkind : token.kind ≠ .endOfText) : Lexes t rest [token] place := by
  have hend : (Lexeme.mk (.ok token) ⟨rest, place.after t⟩).isEnd = false := beq_false_of_ne hkind
  refine ⟨[⟨.ok token, ⟨rest, place.after t⟩⟩], ?_, rfl⟩
  rw [lexemes_eq, h, hend]
  rfl

theorem lexes_open (rest : Text) (place : Location) :
    Lexes [unit '('] rest [⟨.openList, [unit '('], place, place.after [unit '(']⟩] place :=
  .one (lexeme_open rest place) (fun h => TokenKind.noConfusion h)

theorem lexes_close (rest : Text) (place : Location) :
    Lexes [unit ')'] rest [⟨.closeList, [unit ')'], place, place.after [unit ')']⟩] place :=
  .one (lexeme_close rest place) (fun h => TokenKind.noConfusion h)

/-- White space gives no token. -/
theorem lexes_space {u : CodeUnit} (h : isSpace u = true) (rest : Text) (place : Location) :
    Lexes [u] rest [] place := by
  refine ⟨[], ?_, rfl⟩
  show Cursor.lexemes ⟨u :: rest, place⟩ = Cursor.lexemes ⟨rest, place.advance u⟩
  rw [lexemes_eq, lexeme_space h, ← lexemes_eq]

theorem lexes_atom {name rest : Text} (hne : name ≠ [])
    (hname : ∀ u ∈ name, isDelimiter u = false) (hrest : Text.IsBounded rest) (place : Location) :
    Lexes name rest [⟨.atom, name, place, place.after name⟩] place :=
  .one (lexeme_atom hne hname hrest place) (fun h => TokenKind.noConfusion h)

/-! ## String literals -/

/-- A unit as it is written in a string literal. -/
def escape (u : CodeUnit) : Text :=
  if u = unit '\\' then text "\\\\"
  else if u = unit '"' then text "\\\""
  else if u = unit '\n' then text "\\n"
  else if u = unit '\r' then text "\\r"
  else if u = unit '\t' then text "\\t"
  else [u]

theorem quoteString_eq (value : Text) :
    quoteString value = unit '"' :: (value.flatMap escape ++ [unit '"']) := rfl

/-- A unit is written as a backslash and a letter that stands for it, or as itself. -/
theorem escape_cases (u : CodeUnit) :
    (∃ letter, escape u = [unit '\\', letter] ∧ unescape letter = some u) ∨
      escape u = [u] ∧ u ≠ unit '"' ∧ u ≠ unit '\\' := by
  by_cases h : u = unit '\\' ∨ u = unit '"' ∨ u = unit '\n' ∨ u = unit '\r' ∨ u = unit '\t'
  · rcases h with rfl | rfl | rfl | rfl | rfl <;> exact .inl ⟨_, rfl, by decide⟩
  · simp only [not_or] at h
    refine .inr ⟨?_, h.2.1, h.1⟩
    rw [escape, if_neg h.1, if_neg h.2.1, if_neg h.2.2.1, if_neg h.2.2.2.1, if_neg h.2.2.2.2]

/-- What a string is written as stands for the string. -/
theorem decodes_escape (value : Text) : Decodes (value.flatMap escape) value := by
  induction value with
  | nil => exact .nil
  | cons u value ih =>
    rw [List.flatMap_cons]
    rcases escape_cases u with ⟨letter, hescape, hletter⟩ | ⟨hescape, hquote, hbackslash⟩
    · rw [hescape]
      exact .escaped hletter ih
    · rw [hescape]
      exact .plain hquote hbackslash ih

/-- **A string literal is one token with the value of the string.** -/
theorem lexes_quoteString (value rest : Text) (place : Location) :
    Lexes (quoteString value) rest
      [⟨.string, value, place, place.after (quoteString value)⟩] place := by
  have hbody := (decodes_escape value).stringBody_closed place rest (place.advance (unit '"'))
  have hnext : (place.advance (unit '"')).after (value.flatMap escape ++ [unit '"']) =
      place.after (quoteString value) := rfl
  refine .one ?_ (fun h => TokenKind.noConfusion h)
  rw [quoteString_eq, List.cons_append, List.append_assoc, List.singleton_append,
    lexeme_string hbody, hnext, quoteString_eq]

end ConsoleLisp
