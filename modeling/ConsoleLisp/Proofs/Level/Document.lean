import ConsoleLisp.Level.Document
import ConsoleLisp.Proofs.Document.Judgement
import Mathlib.Data.List.Forall2
import Mathlib.Data.List.Induction
import Mathlib.Data.List.Nodup

/-!
# Level documents are judged exactly

`Level.Describes` says which documents describe a level and `Level.Objects` what is wrong with any
other one; neither looks at how a document is gone through. For an entry the two are
`Rect.Describes` and `Rect.Objects`, in which each complaint presupposes that the earlier ones do not
apply.

Results:
* `Rect.judges`: one entry.
* `Level.areRects_or_refuses`: a list of entries describes rectangles, or one entry is the first that
  is refused.
* **`Level.judged_exactly`**: the level that a document describes, or the first thing wrong with it.
-/

namespace ConsoleLisp

/-- The value is this finite number. -/
def Value.IsFinite (value : Value) (n : Number) : Prop :=
  value = .number n ∧ Number.isFinite n = true

namespace Rect

variable {entries : Keyed Value} {key : Text} {default n : Number} {rect : Rect} {id : Text}
  {problem : RectProblem} {value : Value}

/-! ## The parts of an entry -/

/-- All keys of the entry are keys of a rectangle. -/
def HasKnownKeys (entries : Keyed Value) : Prop := ∀ entry ∈ entries, entry.1 ∈ keys

/-- The entry has this id, a text that is not empty. -/
def HasId (entries : Keyed Value) (id : Text) : Prop :=
  entries.get? (text "id") = some (.text id) ∧ id ≠ []

/-- The entry has a finite number under the key, or nothing. -/
def HasNumber (entries : Keyed Value) (key : Text) : Prop :=
  ∀ value, entries.get? key = some value → ∃ n, value.IsFinite n

theorem numberUnder_of_says (h : entries.Says key Value.IsFinite default n) :
    numberUnder key default entries = .ok n := by
  unfold numberUnder
  rcases h with ⟨hnone, rfl⟩ | ⟨value, hsome, rfl, hfinite⟩
  · rw [hnone]
  · rw [hsome]
    exact if_pos hfinite

theorem says_of_hasNumber (h : HasNumber entries key) (default : Number) :
    ∃ n, entries.Says key Value.IsFinite default n := by
  cases hget : entries.get? key with
  | none => exact ⟨default, .inl ⟨hget, rfl⟩⟩
  | some value =>
    obtain ⟨n, hn⟩ := h value hget
    exact ⟨n, .inr ⟨value, hget, hn⟩⟩

theorem numberUnder_of_hasNumber (h : HasNumber entries key) (default : Number) :
    ∃ n, numberUnder key default entries = .ok n :=
  (says_of_hasNumber h default).imp fun _ => numberUnder_of_says

theorem numberUnder_of_not_hasNumber (h : ¬ HasNumber entries key) (default : Number) :
    numberUnder key default entries = .error (.notNumber key) := by
  unfold numberUnder
  cases hget : entries.get? key with
  | none => exact absurd (fun value hvalue => nomatch hget.symm.trans hvalue) h
  | some value =>
    have hvalue : ¬ ∃ n, value.IsFinite n := fun hn =>
      h fun other hother => Option.some.inj (hget.symm.trans hother) ▸ hn
    cases value with
    | number n => exact if_neg fun hfinite => hvalue ⟨n, rfl, hfinite⟩
    | null | boolean | text | list | mapping => rfl

theorem idOf_eq_ok_iff : idOf entries = .ok id ↔ HasId entries id := by
  unfold idOf HasId
  cases entries.get? (text "id") with
  | none => simp
  | some value =>
    cases value with
    | text other =>
      by_cases hother : other = []
      · simp +contextual [hother, eq_comm]
      · simp only [hother, if_false, Except.ok.injEq, Option.some.injEq, Value.text.injEq]
        exact ⟨fun h => ⟨h, h ▸ hother⟩, And.left⟩
    | null | boolean | number | list | mapping => simp

theorem idOf_eq_error (h : ∀ id, ¬ HasId entries id) : idOf entries = .error .noId := by
  cases hid : idOf entries with
  | ok id => exact absurd (idOf_eq_ok_iff.mp hid) (h id)
  | error problem =>
    unfold idOf at hid
    split at hid
    · split at hid <;> cases hid
      rfl
    · cases hid
      rfl

/-! ## Entries -/

/-- The keys of the numbers of an entry, in the order in which they are judged. -/
def numberKeys : List Text := [text "x", text "y", text "w", text "h"]

/-- What a list of entries says of a rectangle: its id, and its place and size where they are
given. -/
structure DescribedBy (entries : Keyed Value) (rect : Rect) : Prop where
  keys : HasKnownKeys entries
  id : HasId entries rect.id
  x : entries.Says (text "x") Value.IsFinite 0 rect.position.x
  y : entries.Says (text "y") Value.IsFinite 0 rect.position.y
  width : entries.Says (text "w") Value.IsFinite 1 rect.size.x
  height : entries.Says (text "h") Value.IsFinite 1 rect.size.y
  force : rect.force = .zero

/-- The value describes the rectangle. -/
def Describes (value : Value) (rect : Rect) : Prop :=
  ∃ entries, value = .mapping entries ∧ DescribedBy entries rect

/-- What is wrong with an entry. The keys are judged in their order, then the id, then the numbers
in theirs. -/
inductive Objects : Value → RectProblem → Prop
  | notMapping {value : Value} : (∀ entries, value ≠ .mapping entries) → Objects value .notMapping
  | unknownKey {before after : Keyed Value} {key : Text} {value : Value} : HasKnownKeys before →
      key ∉ keys → Objects (.mapping (before ++ (key, value) :: after)) (.unknownKey key)
  | noId {entries : Keyed Value} : HasKnownKeys entries → (∀ id, ¬ HasId entries id) →
      Objects (.mapping entries) .noId
  | notNumber {entries : Keyed Value} {id key : Text} {before after : List Text} :
      HasKnownKeys entries → HasId entries id → numberKeys = before ++ key :: after →
      (∀ other ∈ before, HasNumber entries other) → ¬ HasNumber entries key →
      Objects (.mapping entries) (.notNumber key)

theorem find?_unknown_eq_none_iff :
    (entries.find? fun entry => !keys.contains entry.1) = none ↔ HasKnownKeys entries := by
  simp [HasKnownKeys]

theorem ofValue_mapping (entries : Keyed Value) :
    ofValue (.mapping entries) =
      match entries.find? fun entry => !keys.contains entry.1 with
      | some (key, _) => .error (.unknownKey key)
      | none => do
        let id ← idOf entries
        let x ← numberUnder (text "x") 0 entries
        let y ← numberUnder (text "y") 0 entries
        let w ← numberUnder (text "w") 1 entries
        let h ← numberUnder (text "h") 1 entries
        return .atRest id (some ⟨x, y⟩) (some ⟨w, h⟩) :=
  rfl

/-- An entry with known keys and an id is judged by its numbers. -/
theorem ofValue_of_hasId (hkeys : HasKnownKeys entries) (hid : HasId entries id) :
    ofValue (.mapping entries) = (do
      let x ← numberUnder (text "x") 0 entries
      let y ← numberUnder (text "y") 0 entries
      let w ← numberUnder (text "w") 1 entries
      let h ← numberUnder (text "h") 1 entries
      return .atRest id (some ⟨x, y⟩) (some ⟨w, h⟩)) := by
  rw [ofValue_mapping, find?_unknown_eq_none_iff.mpr hkeys, idOf_eq_ok_iff.mpr hid]
  rfl

theorem ofValue_of_describes (h : Describes value rect) : ofValue value = .ok rect := by
  obtain ⟨entries, rfl, h⟩ := h
  rw [ofValue_of_hasId h.keys h.id, numberUnder_of_says h.x, numberUnder_of_says h.y,
    numberUnder_of_says h.width, numberUnder_of_says h.height]
  obtain ⟨id, position, size, force⟩ := rect
  obtain rfl : force = .zero := h.force
  rfl

theorem ofValue_of_objects (h : Objects value problem) : ofValue value = .error problem := by
  cases h with
  | notMapping hnot =>
    cases value with
    | mapping entries => exact absurd rfl (hnot entries)
    | null | boolean | number | text | list => rfl
  | unknownKey hbefore hkey =>
    rw [ofValue_mapping, List.find?_append, find?_unknown_eq_none_iff.mpr hbefore, Option.none_or,
      List.find?_cons_of_pos (by simpa using hkey)]
  | noId hkeys hid =>
    rw [ofValue_mapping, find?_unknown_eq_none_iff.mpr hkeys, idOf_eq_error hid]
    rfl
  | @notNumber entries id key before after hkeys hid hsplit hbefore hkey =>
    rw [ofValue_of_hasId hkeys hid]
    have hrefused := numberUnder_of_not_hasNumber hkey
    -- the numbers before the one that is refused are there, whichever it is
    match before, hsplit with
    | [], hsplit =>
      obtain ⟨rfl, -⟩ := List.cons.inj hsplit
      rw [hrefused]
      rfl
    | [_], rfl =>
      obtain ⟨x, hx⟩ := numberUnder_of_hasNumber (hbefore (text "x") (by simp)) 0
      rw [hx, hrefused]
      rfl
    | [_, _], rfl =>
      obtain ⟨x, hx⟩ := numberUnder_of_hasNumber (hbefore (text "x") (by simp)) 0
      obtain ⟨y, hy⟩ := numberUnder_of_hasNumber (hbefore (text "y") (by simp)) 0
      rw [hx, hy, hrefused]
      rfl
    | [_, _, _], rfl =>
      obtain ⟨x, hx⟩ := numberUnder_of_hasNumber (hbefore (text "x") (by simp)) 0
      obtain ⟨y, hy⟩ := numberUnder_of_hasNumber (hbefore (text "y") (by simp)) 0
      obtain ⟨w, hw⟩ := numberUnder_of_hasNumber (hbefore (text "w") (by simp)) 1
      rw [hx, hy, hw, hrefused]
      rfl
    | _ :: _ :: _ :: _ :: _, hsplit => simp [numberKeys] at hsplit

/-- An entry describes a rectangle, or something is wrong with it. -/
theorem describes_or_objects (value : Value) :
    (∃ rect, Describes value rect) ∨ ∃ problem, Objects value problem := by
  cases value with
  | null | boolean | number | text | list => exact .inr ⟨_, .notMapping nofun⟩
  | mapping entries =>
    rcases forall_or_first_not (·.1 ∈ keys) entries with
      hkeys | ⟨before, ⟨key, value⟩, after, rfl, hbefore, hkey⟩
    · by_cases hid : ∃ id, HasId entries id
      · obtain ⟨id, hid⟩ := hid
        rcases forall_or_first_not (HasNumber entries) numberKeys with
          hnumbers | ⟨before, key, after, hsplit, hbefore, hkey⟩
        · obtain ⟨x, hx⟩ := says_of_hasNumber (hnumbers (text "x") (by simp [numberKeys])) 0
          obtain ⟨y, hy⟩ := says_of_hasNumber (hnumbers (text "y") (by simp [numberKeys])) 0
          obtain ⟨w, hw⟩ := says_of_hasNumber (hnumbers (text "w") (by simp [numberKeys])) 1
          obtain ⟨h, hh⟩ := says_of_hasNumber (hnumbers (text "h") (by simp [numberKeys])) 1
          exact .inl ⟨.atRest id (some ⟨x, y⟩) (some ⟨w, h⟩), entries, rfl,
            ⟨hkeys, hid, hx, hy, hw, hh, rfl⟩⟩
        · exact .inr ⟨_, .notNumber hkeys hid hsplit hbefore hkey⟩
      · exact .inr ⟨_, .noId hkeys (not_exists.mp hid)⟩
    · exact .inr ⟨_, .unknownKey hbefore hkey⟩

/-- **Entries are judged exactly.** -/
theorem judges : Judges ofValue Describes Objects :=
  .of_cases ofValue_of_describes ofValue_of_objects describes_or_objects

end Rect

namespace Level

variable {level : Level} {rect : Rect} {rects : List Rect} {items : List Value} {index : Nat}
  {value : Value} {reason : LevelError}

/-! ## Ids -/

theorem isSome_rect?_iff {id : Text} :
    (level.rect? id).isSome = true ↔ id ∈ level.rects.map Rect.id := by
  simp [rect?, List.find?_isSome]

/-- A rectangle is found by its id when no other one has it. -/
theorem rect?_of_mem (h : (level.rects.map Rect.id).Nodup) (hmem : rect ∈ level.rects) :
    level.rect? rect.id = some rect := by
  cases hfind : level.rect? rect.id with
  | none =>
    have hsome := isSome_rect?_iff.mpr (List.mem_map_of_mem (f := Rect.id) hmem)
    rw [hfind] at hsome
    cases hsome
  | some other =>
    have hid : other.id = rect.id := by simpa using List.find?_some hfind
    rw [List.inj_on_of_nodup_map h (List.mem_of_find?_eq_some hfind) hmem hid]

theorem add_of_notMem (h : rect.id ∉ level.rects.map Rect.id) :
    level.add rect = .ok ⟨level.rects ++ [rect]⟩ :=
  if_neg (mt isSome_rect?_iff.mp h)

theorem add_of_mem (h : rect.id ∈ level.rects.map Rect.id) :
    level.add rect = .error (.duplicateRect rect.id) :=
  if_pos (isSome_rect?_iff.mpr h)

/-! ## Lists of entries -/

/-- The items describe these rectangles, one each and in their order, and no two have the same
id. -/
structure AreRects (items : List Value) (rects : List Rect) : Prop where
  each : List.Forall₂ Rect.Describes items rects
  distinct : (rects.map Rect.id).Nodup

theorem addEntries_of_describes (index : Nat) (level : Level)
    (heach : List.Forall₂ Rect.Describes items rects)
    (hdistinct : ((level.rects ++ rects).map Rect.id).Nodup) (rest : List Value) :
    addEntries index level (items ++ rest) =
      addEntries (index + items.length) ⟨level.rects ++ rects⟩ rest := by
  induction heach generalizing index level with
  | nil => rw [List.append_nil]; rfl
  | @cons item rect items rects hitem _ ih =>
    have hnew : rect.id ∉ level.rects.map Rect.id := by
      rw [List.map_append, List.map_cons] at hdistinct
      exact fun hmem => List.disjoint_of_nodup_append hdistinct hmem List.mem_cons_self
    rw [List.append_cons] at hdistinct ⊢
    rw [List.cons_append, addEntries, Rect.ofValue_of_describes hitem]
    simp only [add_of_notMem hnew]
    rw [ih _ _ hdistinct, List.length_cons, Nat.add_right_comm, Nat.add_assoc]

theorem AreRects.addEntries_append (h : AreRects items rects) (rest : List Value) :
    addEntries 0 empty (items ++ rest) = addEntries items.length ⟨rects⟩ rest := by
  simpa [empty] using addEntries_of_describes 0 empty h.each h.distinct rest

theorem AreRects.addEntries (h : AreRects items rects) :
    addEntries 0 empty items = .ok ⟨rects⟩ :=
  List.append_nil items ▸ h.addEntries_append []

/-- What is wrong with an entry behind others, whose rectangles these are and whose number the
index is. -/
inductive Refuses (rects : List Rect) (index : Nat) (entry : Value) : LevelError → Prop
  | rect {problem : RectProblem} : Rect.Objects entry problem →
      Refuses rects index entry (.rect index problem)
  | duplicateId {rect : Rect} : Rect.Describes entry rect → rect.id ∈ rects.map Rect.id →
      Refuses rects index entry (.duplicateId rect.id)

theorem Refuses.addEntries {entry : Value} (h : Refuses rects index entry reason)
    (rest : List Value) : addEntries index ⟨rects⟩ (entry :: rest) = .error reason := by
  cases h with
  | rect hproblem => rw [Level.addEntries, Rect.ofValue_of_objects hproblem]
  | duplicateId hrect hmem =>
    rw [Level.addEntries, Rect.ofValue_of_describes hrect]
    simp only [@add_of_mem ⟨rects⟩ _ hmem]

/-- All entries are rectangles with ids of their own, or one is the first that is refused. -/
theorem areRects_or_refuses (items : List Value) :
    (∃ rects, AreRects items rects) ∨ ∃ before entry after rects reason,
      items = before ++ entry :: after ∧ AreRects before rects ∧
        Refuses rects before.length entry reason := by
  -- the last entry is looked at when all before it are rectangles
  induction items using List.reverseRecOn with
  | nil => exact .inl ⟨[], .nil, .nil⟩
  | append_singleton items last ih =>
    rcases ih with ⟨rects, hrects⟩ | ⟨before, entry, after, rects, reason, rfl, hrects, hrefuses⟩
    · rcases Rect.describes_or_objects last with ⟨rect, hrect⟩ | ⟨problem, hproblem⟩
      · by_cases hmem : rect.id ∈ rects.map Rect.id
        · exact .inr ⟨items, last, [], rects, _, rfl, hrects, .duplicateId hrect hmem⟩
        · refine .inl ⟨rects ++ [rect], List.rel_append hrects.each (.cons hrect .nil), ?_⟩
          rw [List.map_append]
          exact hrects.distinct.append (List.nodup_singleton _) (by simpa using hmem)
      · exact .inr ⟨items, last, [], rects, _, rfl, hrects, .rect hproblem⟩
    · exact .inr ⟨before, entry, after ++ [last], rects, reason, by simp, hrects, hrefuses⟩

/-! ## Documents -/

/-- The document describes the level: it is nothing at all, or a mapping whose list of entries, if
it has one, describes the rectangles of the level. -/
inductive Describes : Value → Level → Prop
  | nothing : Describes .null empty
  | noRects {entries : Keyed Value} : entries.get? (text "rects") = none →
      Describes (.mapping entries) empty
  | nullRects {entries : Keyed Value} : entries.get? (text "rects") = some .null →
      Describes (.mapping entries) empty
  | rects {entries : Keyed Value} {items : List Value} {rects : List Rect} :
      entries.get? (text "rects") = some (.list items) → AreRects items rects →
      Describes (.mapping entries) ⟨rects⟩

/-- What is wrong with a document: of its entries, the first one that is refused. -/
inductive Objects : Value → LevelError → Prop
  | notMapping {value : Value} : value ≠ .null → (∀ entries, value ≠ .mapping entries) →
      Objects value .notMapping
  | rectsNotList {entries : Keyed Value} {value : Value} :
      entries.get? (text "rects") = some value → value ≠ .null → (∀ items, value ≠ .list items) →
      Objects (.mapping entries) .rectsNotList
  | entry {entries : Keyed Value} {before after : List Value} {entry : Value} {rects : List Rect}
      {reason : LevelError} :
      entries.get? (text "rects") = some (.list (before ++ entry :: after)) →
      AreRects before rects → Refuses rects before.length entry reason →
      Objects (.mapping entries) reason

theorem ofValue_of_describes (h : Describes value level) : ofValue value = .ok level := by
  cases h with
  | nothing => rfl
  | noRects hget => rw [ofValue, hget]
  | nullRects hget => rw [ofValue, hget]
  | rects hget hrects =>
    rw [ofValue, hget]
    exact hrects.addEntries

theorem ofValue_of_objects (h : Objects value reason) : ofValue value = .error reason := by
  cases h with
  | notMapping hnull hnot =>
    cases value with
    | null => exact absurd rfl hnull
    | mapping entries => exact absurd rfl (hnot entries)
    | boolean | number | text | list => rfl
  | @rectsNotList entries value hget hnull hnot =>
    rw [ofValue, hget]
    cases value with
    | null => exact absurd rfl hnull
    | list items => exact absurd rfl (hnot items)
    | boolean | number | text | mapping => rfl
  | entry hget hrects hrefuses =>
    rw [ofValue, hget]
    exact (hrects.addEntries_append _).trans (hrefuses.addEntries _)

theorem describes_or_objects (value : Value) :
    (∃ level, Describes value level) ∨ ∃ reason, Objects value reason := by
  cases value with
  | null => exact .inl ⟨_, .nothing⟩
  | boolean | number | text | list => exact .inr ⟨_, .notMapping nofun nofun⟩
  | mapping entries =>
    cases hget : Keyed.get? (text "rects") entries with
    | none => exact .inl ⟨_, .noRects hget⟩
    | some value =>
      cases value with
      | null => exact .inl ⟨_, .nullRects hget⟩
      | boolean | number | text | mapping => exact .inr ⟨_, .rectsNotList hget nofun nofun⟩
      | list items =>
        rcases areRects_or_refuses items with
          ⟨rects, hrects⟩ | ⟨before, entry, after, rects, reason, rfl, hrects, hrefuses⟩
        · exact .inl ⟨_, .rects hget hrects⟩
        · exact .inr ⟨_, .entry hget hrects hrefuses⟩

theorem judges : Judges ofValue Describes Objects :=
  .of_cases ofValue_of_describes ofValue_of_objects describes_or_objects

theorem Describes.distinct (h : Describes value level) : (level.rects.map Rect.id).Nodup := by
  cases h with
  | nothing | noRects | nullRects => exact .nil
  | rects _ hrects => exact hrects.distinct

/-- What is wrong with a document makes it invalid; it is no failure to read a file. -/
theorem Objects.code (h : Objects value reason) : reason.code = .configurationInvalid := by
  cases h with
  | notMapping | rectsNotList => rfl
  | entry _ _ hrefuses => cases hrefuses <;> rfl

/-! ## The judgement -/

/-- **Level documents are judged exactly.** A document gives a level when it describes it, and then
each rectangle is found by its id; it is refused as invalid when something is wrong with it, for the
first thing that is. -/
theorem judged_exactly (value : Value) :
    (∀ level, ofValue value = .ok level ↔ Describes value level) ∧
    (∀ reason, ofValue value = .error reason ↔ Objects value reason) ∧
    (∀ level, ofValue value = .ok level → ∀ rect ∈ level.rects,
      level.rect? rect.id = some rect) ∧
    (∀ reason path, ofValue value = .error reason →
      (ConfigurationError.level reason path).code = .configurationInvalid) ∧
    ∀ t, Value.ofYaml t = .ok value → ofText t = ofValue value := by
  refine ⟨fun _ => judges.ok_iff, fun _ => judges.error_iff, fun level h rect hmem => ?_,
    fun reason path h => (judges.error_iff.mp h).code, fun t h => ?_⟩
  · exact rect?_of_mem (judges.ok_iff.mp h).distinct hmem
  · rw [ofText, h]

end Level

end ConsoleLisp
