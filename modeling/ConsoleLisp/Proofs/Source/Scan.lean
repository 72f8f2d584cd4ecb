import ConsoleLisp.Source.Token

/-!
# The scan, one lexeme after another

Every lexeme but the last takes at least one unit, so the fuel of the scan never runs out and
`Cursor.lexemes`, the lexemes from a cursor on, obeys an equation without fuel.

Results:
* **`lexeme_spec`**: a lexeme that is not the end leaves less text, and an atom is whole.
* **`lexemes_eq`**: the lexemes from a cursor on are the next one and those behind it.
* `atom_of_mem_lexemes`: an atom is not empty and contains no delimiter.
* `lexeme_atom`, `lexeme_string`: an atom in front of a delimiter and a closed string literal are
  found again as they were written.
-/

namespace ConsoleLisp

/-! ## Places -/

theorem Location.after_append (place : Location) (s t : Text) :
    place.after (s ++ t) = (place.after s).after t :=
  List.foldl_append

theorem Location.offset_advance (place : Location) (u : CodeUnit) :
    (place.advance u).offset = place.offset + 1 := by
  unfold advance
  split <;> rfl

theorem Location.offset_after (place : Location) (t : Text) :
    (place.after t).offset = place.offset + t.length := by
  induction t generalizing place with
  | nil => rfl
  | cons u t ih =>
    show ((place.advance u).after t).offset = _
    rw [ih, offset_advance, List.length_cons]
    omega

/-! ## Trivia -/

/-- Trivia ends at the end of the text or at a unit that starts a token. -/
theorem skipTrivia_spec (inComment : Bool) (t : Text) (place : Location) :
    (skipTrivia inComment t place).rest.length ≤ t.length ∧
      ∀ u rest, (skipTrivia inComment t place).rest = u :: rest →
        isSpace u = false ∧ u ≠ unit ';' := by
  induction t generalizing inComment place with
  | nil => exact ⟨Nat.le_refl _, fun u rest h => by cases h⟩
  | cons v t ih =>
    unfold skipTrivia
    split
    · exact ⟨Nat.le_succ_of_le (ih ..).1, (ih ..).2⟩
    · split
      · exact ⟨Nat.le_succ_of_le (ih ..).1, (ih ..).2⟩
      · split
        · exact ⟨Nat.le_succ_of_le (ih ..).1, (ih ..).2⟩
        · refine ⟨Nat.le_refl _, fun u rest h => ?_⟩
          cases h
          exact ⟨by simpa using ‹¬isSpace v = true›, ‹_›⟩

theorem skipTrivia_space {u : CodeUnit} (h : isSpace u = true) (rest : Text) (place : Location) :
    skipTrivia false (u :: rest) place = skipTrivia false rest (place.advance u) := by
  rw [skipTrivia, if_neg Bool.false_ne_true, if_pos h]

theorem skipTrivia_token {u : CodeUnit} (hs : isSpace u = false) (hc : u ≠ unit ';') (rest : Text)
    (place : Location) : skipTrivia false (u :: rest) place = ⟨u :: rest, place⟩ := by
  rw [skipTrivia, if_neg Bool.false_ne_true, if_neg (by simp [hs]), if_neg hc]

/-! ## Progress -/

theorem stringBody_length (opened : Location) (t : Text) (place : Location) :
    (stringBody opened t place).2.rest.length ≤ t.length := by
  fun_induction stringBody opened t place with
  | case1 => exact Nat.le_refl _
  | case2 => exact Nat.le_succ _
  | case3 => exact Nat.zero_le _
  | case4 => exact Nat.le_add_right _ 2
  | case5 _ _ _ _ _ _ _ _ _ heq ih =>
    rw [heq] at ih
    exact Nat.le_trans ih (Nat.le_add_right _ 2)
  | case6 _ _ _ _ _ _ _ heq ih =>
    rw [heq] at ih
    exact Nat.le_succ_of_le ih

/-- A unit that stands for itself in no other way starts an atom. -/
theorem isDelimiter_eq_false {u : CodeUnit} (hs : isSpace u = false) (hc : u ≠ unit ';')
    (ho : u ≠ unit '(') (hx : u ≠ unit ')') (hq : u ≠ unit '\x27') (hd : u ≠ unit '"') :
    isDelimiter u = false := by
  simp only [isDelimiter, hs, beq_false_of_ne ho, beq_false_of_ne hx, beq_false_of_ne hq,
    beq_false_of_ne hd, beq_false_of_ne hc, Bool.or_self]

/-- What every lexeme does: it ends the text, or takes some of it; an atom has units, none of them
a delimiter. -/
theorem lexeme_spec (c : Cursor) :
    (c.lexeme.isEnd = false → c.lexeme.next.rest.length < c.rest.length) ∧
      ∀ token, c.lexeme.token = .ok token → token.kind = .atom →
        token.value ≠ [] ∧ ∀ u ∈ token.value, isDelimiter u = false := by
  obtain ⟨hlength, hstart⟩ := skipTrivia_spec false c.rest c.place
  unfold Cursor.lexeme
  generalize skipTrivia false c.rest c.place = here at hlength hstart
  obtain ⟨_ | ⟨u, rest⟩, start⟩ := here
  · refine ⟨fun h => Bool.noConfusion h, fun token h hk => ?_⟩
    cases h
    cases hk
  obtain ⟨hs, hc⟩ := hstart u rest rfl
  have hless : rest.length < c.rest.length := hlength
  dsimp only
  split
  · refine ⟨fun _ => hless, fun token h hk => ?_⟩
    cases h
    cases hk
  split
  · refine ⟨fun _ => hless, fun token h hk => ?_⟩
    cases h
    cases hk
  split
  · refine ⟨fun _ => hless, fun token h hk => ?_⟩
    cases h
    cases hk
  split
  · refine ⟨fun _ => Nat.lt_of_le_of_lt (stringBody_length start rest _) hless,
      fun token h hk => ?_⟩
    cases hbody : (stringBody start rest (start.advance u)).1 with
    | error error =>
      rw [hbody] at h
      cases h
    | ok value =>
      rw [hbody] at h
      cases h
      cases hk
  · have hu := isDelimiter_eq_false hs hc ‹_› ‹_› ‹_› ‹_›
    have hdrop : (rest.dropWhile (!isDelimiter ·)).length ≤ rest.length :=
      (List.dropWhile_sublist _).length_le
    refine ⟨fun _ => ?_, fun token h _ => ?_⟩
    · rw [Cursor.skipWhile, List.dropWhile_cons_of_pos (by simp [hu])]
      exact Nat.lt_of_le_of_lt hdrop hless
    · cases h
      refine ⟨?_, fun v hv => by simpa using List.all_eq_true.mp List.all_takeWhile v hv⟩
      rw [List.takeWhile_cons_of_pos (by simp [hu])]
      exact List.cons_ne_nil _ _

/-! ## All lexemes -/

/-- The lexemes from a cursor on. -/
def Cursor.lexemes (c : Cursor) : List Lexeme := scanFrom (c.rest.length + 1) c

theorem scan_eq_lexemes (t : Text) : scan t = (Cursor.ofText t).lexemes := rfl

/-- More fuel than text scans to the end. -/
theorem scanFrom_eq_lexemes {fuel : Nat} {c : Cursor} (h : c.rest.length < fuel) :
    scanFrom fuel c = c.lexemes := by
  unfold Cursor.lexemes
  generalize hn : c.rest.length = n at h ⊢
  induction n using Nat.strongRecOn generalizing fuel c with
  | ind n ih =>
    obtain ⟨fuel, rfl⟩ := Nat.exists_eq_succ_of_ne_zero (Nat.ne_zero_of_lt h)
    rw [scanFrom, scanFrom]
    cases hend : c.lexeme.isEnd with
    | true => rfl
    | false =>
      have hless : c.lexeme.next.rest.length < n := hn ▸ (lexeme_spec c).1 hend
      rw [ih _ hless rfl (Nat.lt_of_lt_of_le hless (Nat.le_of_lt_succ h)), ih _ hless rfl hless]

/-- **The lexemes from a cursor on are the next one and those behind it.** -/
theorem lexemes_eq (c : Cursor) :
    c.lexemes = if c.lexeme.isEnd then [c.lexeme] else c.lexeme :: c.lexeme.next.lexemes := by
  rw [Cursor.lexemes, scanFrom]
  cases hend : c.lexeme.isEnd with
  | true => rfl
  | false =>
    rw [scanFrom_eq_lexemes ((lexeme_spec c).1 hend)]

/-- An atom of a text is not empty and contains no delimiter. -/
theorem atom_of_mem_lexemes {c : Cursor} {lexeme : Lexeme} (h : lexeme ∈ c.lexemes) {token : Token}
    (ht : lexeme.token = .ok token) (hk : token.kind = .atom) :
    token.value ≠ [] ∧ ∀ u ∈ token.value, isDelimiter u = false := by
  generalize hn : c.rest.length = n
  induction n using Nat.strongRecOn generalizing c with
  | ind n ih =>
    have hspec := lexeme_spec c
    rw [lexemes_eq] at h
    cases hend : c.lexeme.isEnd with
    | true =>
      rw [hend, if_pos rfl, List.mem_singleton] at h
      exact hspec.2 token (h ▸ ht) hk
    | false =>
      rw [hend, if_neg Bool.false_ne_true] at h
      rcases List.mem_cons.mp h with rfl | h
      · exact hspec.2 token ht hk
      · exact ih _ (hn ▸ hspec.1 hend) h rfl

/-! ## Lexemes of written tokens -/

theorem lexeme_space {u : CodeUnit} (h : isSpace u = true) (rest : Text) (place : Location) :
    Cursor.lexeme ⟨u :: rest, place⟩ = Cursor.lexeme ⟨rest, place.advance u⟩ := by
  unfold Cursor.lexeme
  rw [skipTrivia_space h]

theorem lexeme_open (rest : Text) (place : Location) :
    Cursor.lexeme ⟨unit '(' :: rest, place⟩ =
      ⟨.ok ⟨.openList, [unit '('], place, place.advance (unit '(')⟩,
        ⟨rest, place.advance (unit '(')⟩⟩ := by
  unfold Cursor.lexeme
  rw [skipTrivia_token (by decide) (by decide)]
  rfl

theorem lexeme_close (rest : Text) (place : Location) :
    Cursor.lexeme ⟨unit ')' :: rest, place⟩ =
      ⟨.ok ⟨.closeList, [unit ')'], place, place.advance (unit ')')⟩,
        ⟨rest, place.advance (unit ')')⟩⟩ := by
  unfold Cursor.lexeme
  rw [skipTrivia_token (by decide) (by decide)]
  rfl

/-- A string literal whose body can be read. -/
theorem lexeme_string {value body : Text} {place : Location} {next : Cursor}
    (h : stringBody place body (place.advance (unit '"')) = (.ok value, next)) :
    Cursor.lexeme ⟨unit '"' :: body, place⟩ =
      ⟨.ok ⟨.string, value, place, next.place⟩, next⟩ := by
  unfold Cursor.lexeme
  rw [skipTrivia_token (by decide) (by decide)]
  show (⟨(stringBody place body (place.advance (unit '"'))).1.map _, _⟩ : Lexeme) = _
  rw [h]
  rfl

/-- Nothing, or a delimiter, follows. -/
def Text.IsBounded : Text → Prop
  | [] => True
  | u :: _ => isDelimiter u = true

theorem Text.isBounded_nil : Text.IsBounded [] := trivial

theorem takeWhile_atom {name rest : Text} (hname : ∀ u ∈ name, isDelimiter u = false)
    (hrest : Text.IsBounded rest) :
    (name ++ rest).takeWhile (!isDelimiter ·) = name ∧
      (name ++ rest).dropWhile (!isDelimiter ·) = rest := by
  have hall : ∀ u ∈ name, (!isDelimiter u) = true := fun u hu => by rw [hname u hu]; rfl
  rw [List.takeWhile_append_of_pos hall, List.dropWhile_append_of_pos hall]
  cases rest with
  | nil => exact ⟨List.append_nil _, rfl⟩
  | cons v rest =>
    have hv : ¬ (!isDelimiter v) = true := by simpa [Text.IsBounded] using hrest
    rw [List.takeWhile_cons_of_neg (p := (!isDelimiter ·)) hv,
      List.dropWhile_cons_of_neg (p := (!isDelimiter ·)) hv]
    exact ⟨List.append_nil _, rfl⟩

/-- An atom is found again in front of a delimiter or of the end of the text. -/
theorem lexeme_atom {name rest : Text} (hne : name ≠ [])
    (hname : ∀ u ∈ name, isDelimiter u = false) (hrest : Text.IsBounded rest) (place : Location) :
    Cursor.lexeme ⟨name ++ rest, place⟩ =
      ⟨.ok ⟨.atom, name, place, place.after name⟩, ⟨rest, place.after name⟩⟩ := by
  obtain ⟨htake, hdrop⟩ := takeWhile_atom hname hrest
  obtain ⟨u, name, rfl⟩ := List.exists_cons_of_ne_nil hne
  have hu := hname u List.mem_cons_self
  simp only [isDelimiter, Bool.or_eq_false_iff, beq_eq_false_iff_ne, ne_eq] at hu
  obtain ⟨⟨⟨⟨⟨hs, ho⟩, hx⟩, hq⟩, hd⟩, hc⟩ := hu
  unfold Cursor.lexeme
  rw [List.cons_append] at htake hdrop ⊢
  rw [skipTrivia_token hs hc]
  simp only [ho, hx, hq, hd, if_false, Cursor.skipWhile, htake, hdrop]

end ConsoleLisp
