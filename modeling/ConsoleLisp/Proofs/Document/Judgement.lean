import ConsoleLisp.KeyOrder

/-!
# Judging documents

A reader of documents gives what a document describes, or says what is wrong with it. `Judges` says
that it does so exactly, against two relations that do not look at how it reads.

Results:
* `Judges.of_cases`: a reader that is right about what is described and about what is wrong judges
  exactly when every document is one or the other.
* `forall_or_first_not`: the place of a list where a reader stops.
* `Keyed.get?_cons`: the first entry of a mapping.
-/

namespace ConsoleLisp

variable {α β ε : Type}

/-- The reader gives what a document describes, and what is wrong with any other one. -/
structure Judges (read : α → Except ε β) (Describes : α → β → Prop) (Objects : α → ε → Prop) :
    Prop where
  ok_iff : ∀ {a : α} {b : β}, read a = .ok b ↔ Describes a b
  error_iff : ∀ {a : α} {error : ε}, read a = .error error ↔ Objects a error

theorem Judges.of_cases {read : α → Except ε β} {Describes : α → β → Prop} {Objects : α → ε → Prop}
    (hok : ∀ {a b}, Describes a b → read a = .ok b)
    (herror : ∀ {a error}, Objects a error → read a = .error error)
    (hcases : ∀ a, (∃ b, Describes a b) ∨ ∃ error, Objects a error) :
    Judges read Describes Objects where
  ok_iff := by
    intro a b
    refine ⟨fun h => ?_, hok⟩
    rcases hcases a with ⟨other, hother⟩ | ⟨error, hobjects⟩
    · cases h.symm.trans (hok hother)
      exact hother
    · cases h.symm.trans (herror hobjects)
  error_iff := by
    intro a error
    refine ⟨fun h => ?_, herror⟩
    rcases hcases a with ⟨b, hb⟩ | ⟨other, hother⟩
    · cases h.symm.trans (hok hb)
    · cases h.symm.trans (herror hother)
      exact hother

/-- All elements of a list pass, or one of them is the first that does not. -/
theorem forall_or_first_not (passes : α → Prop) (l : List α) :
    (∀ a ∈ l, passes a) ∨ ∃ before a after,
      l = before ++ a :: after ∧ (∀ b ∈ before, passes b) ∧ ¬ passes a := by
  induction l with
  | nil => exact .inl nofun
  | cons a rest ih =>
    by_cases ha : passes a
    · rcases ih with hall | ⟨before, b, after, rfl, hbefore, hb⟩
      · exact .inl (List.forall_mem_cons.mpr ⟨ha, hall⟩)
      · exact .inr ⟨a :: before, b, after, rfl, List.forall_mem_cons.mpr ⟨ha, hbefore⟩, hb⟩
    · exact .inr ⟨[], a, rest, rfl, nofun, ha⟩

namespace Keyed

/-- The value under the key reads as this, or there is none and this is the default. -/
def Says (entries : Keyed α) (key : Text) (reads : α → β → Prop) (default b : β) : Prop :=
  (entries.get? key = none ∧ b = default) ∨ ∃ value, entries.get? key = some value ∧ reads value b

theorem get?_cons (key other : Text) (a : α) (entries : Keyed α) :
    get? key ((other, a) :: entries) = if other = key then some a else get? key entries := by
  by_cases h : other = key
  · rw [if_pos h, get?, List.find?_cons_of_pos (by simpa using h)]
    rfl
  · rw [if_neg h, get?, List.find?_cons_of_neg (by simpa using h), get?]

end Keyed

end ConsoleLisp
