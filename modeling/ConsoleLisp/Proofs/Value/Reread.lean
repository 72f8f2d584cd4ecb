import ConsoleLisp.Proofs.Number.Numeral
import ConsoleLisp.Proofs.Source.Written
import ConsoleLisp.Proofs.Value.Load

/-!
# Trees read back from their text

The text of a tree is scanned and derived again. What it is read back as, `Tree.reread`, differs
from the tree where the text does: a list below the print depth is the symbol of its marker, an
infinite number the symbol of its text, and a zero has no sign.

Results:
* **`lexes_render`**: the text of a tree is scanned as tokens that derive what it is read back as.
* **`render_reread`**: what a text is read back as has the same text.
* `reread_eq`: a tree within the print depth, with numbers that keep their text, is read back.
* `cells_reread_le`: what is read back takes no more cells than the tree.
-/

namespace ConsoleLisp

/-- The text is read as one symbol. -/
def IsName (name : Text) : Prop :=
  name ≠ [] ∧ (∀ u ∈ name, isDelimiter u = false) ∧ isNumberLiteral name = false

theorem isName_cycleMarker : IsName cycleMarker :=
  ⟨List.cons_ne_nil _ _, Number.not_delimiter_of_all rfl, by decide +kernel⟩

namespace Tree

variable {β : Type}

/-- The tails end in nil. -/
def IsList : Tree β → Prop
  | nil => True
  | pair _ tail => tail.IsList
  | _ => False

/-- All pairs are pairs of proper lists, all symbols have names that are read as symbols, all
numbers are as `p` says, and there are no natives. -/
def Readable (p : Number → Prop) : Tree β → Prop
  | nil => True
  | number value => p value
  | symbol name => IsName name
  | string _ => True
  | native _ => False
  | pair head tail => head.Readable p ∧ tail.Readable p ∧ tail.IsList

/-- What the text of a tree that is no pair is read back as. -/
def rereadAtom : Tree β → Tree β
  | number value =>
    if Number.isFinite value then number (Number.unsignedZero value)
    else symbol (Number.toText value)
  | pair .. => symbol cycleMarker
  | t => t

mutual

/-- What the text of a tree, with lists nested to the given depth, is read back as. -/
def reread : Tree β → Nat → Tree β
  | pair head tail, depth + 1 => pair (head.reread depth) (tail.rereadTail depth)
  | t, _ => t.rereadAtom

/-- What the text between the first item of a list and its end is read back as. -/
def rereadTail : Tree β → Nat → Tree β
  | pair head tail, depth => pair (head.reread depth) (tail.rereadTail depth)
  | t, _ => t

end

/-! ## The text of what is read back -/

theorem render_rereadAtom (value : Number) (depth : Nat) :
    ((number value : Tree β).rereadAtom).render depth = Number.toText value := by
  rw [rereadAtom]
  split
  · exact Number.toText_unsignedZero ‹_›
  · rfl

mutual

/-- **What a text is read back as has the same text.** -/
theorem render_reread : (t : Tree β) → (depth : Nat) →
    (t.reread depth).render depth = t.render depth
  | pair _ _, 0 => rfl
  | pair head tail, depth + 1 => by
    rw [reread, render, render, render_reread head depth, renderTail_rereadTail tail depth]
  | number value, depth => render_rereadAtom value depth
  | nil, _ => rfl
  | symbol _, _ => rfl
  | string _, _ => rfl
  | native _, _ => rfl

theorem renderTail_rereadTail : (t : Tree β) → (depth : Nat) →
    (t.rereadTail depth).renderTail depth = t.renderTail depth
  | pair head tail, depth => by
    rw [rereadTail, renderTail, renderTail, render_reread head depth,
      renderTail_rereadTail tail depth]
  | nil, _ => rfl
  | number _, _ => rfl
  | symbol _, _ => rfl
  | string _, _ => rfl
  | native _, _ => rfl

end

/-- A finite number other than negative zero: its text stands for it alone. -/
def IsPlain (n : Number) : Prop :=
  Number.isFinite n = true ∧ (Number.scaled n = 0 → Number.isNegative n = false)

theorem unsignedZero_of_isPlain {n : Number} (h : IsPlain n) : Number.unsignedZero n = n := by
  rw [Number.unsignedZero]
  split
  · have hzero := Number.ofMagnitude_magnitude n
    rwa [h.2 ‹_›, Number.scaled_eq_zero_iff.mp ‹_›] at hzero
  · rfl

mutual

/-- **A tree within the print depth is read back as it is.** -/
theorem reread_eq : (t : Tree β) → t.Readable IsPlain → ∀ {depth : Nat}, t.nesting ≤ depth →
    t.reread depth = t
  | pair head tail, h, depth, hdepth => by
    rw [nesting] at hdepth
    obtain ⟨depth, rfl⟩ := Nat.exists_eq_add_of_le' (show 1 ≤ depth by omega)
    rw [reread, reread_eq head h.1 (by omega), rereadTail_eq tail h.2.1 (by omega)]
  | number value, h, depth, _ => by
    show (number value : Tree β).rereadAtom = _
    rw [rereadAtom, if_pos h.1, unsignedZero_of_isPlain h]
  | nil, _, _, _ => rfl
  | symbol _, _, _, _ => rfl
  | string _, _, _, _ => rfl
  | native _, _, _, _ => rfl

theorem rereadTail_eq : (t : Tree β) → t.Readable IsPlain → ∀ {depth : Nat},
    t.nesting ≤ depth + 1 → t.rereadTail depth = t
  | pair head tail, h, depth, hdepth => by
    rw [nesting] at hdepth
    rw [rereadTail, reread_eq head h.1 (by omega), rereadTail_eq tail h.2.1 (by omega)]
  | nil, _, _, _ => rfl
  | number _, _, _, _ => rfl
  | symbol _, _, _, _ => rfl
  | string _, _, _, _ => rfl
  | native _, _, _, _ => rfl

end

/-! ## Cells -/

mutual

/-- **What is read back takes no more cells than the tree.** -/
theorem cells_reread_le : (t : Tree β) → (depth : Nat) → (t.reread depth).cells ≤ t.cells
  | pair _ _, 0 => Nat.succ_le_of_lt (Nat.zero_lt_succ _)
  | pair head tail, depth + 1 =>
    Nat.succ_le_succ (Nat.add_le_add (cells_reread_le head depth) (cells_rereadTail_le tail depth))
  | number value, _ => by
    show ((number value : Tree β).rereadAtom).cells ≤ 1
    rw [rereadAtom]
    split <;> exact Nat.le_refl 1
  | nil, _ => Nat.le_refl 0
  | symbol _, _ => Nat.le_refl 1
  | string _, _ => Nat.le_refl 1
  | native _, _ => Nat.le_refl 1

theorem cells_rereadTail_le : (t : Tree β) → (depth : Nat) → (t.rereadTail depth).cells ≤ t.cells
  | pair head tail, depth =>
    Nat.succ_le_succ (Nat.add_le_add (cells_reread_le head depth) (cells_rereadTail_le tail depth))
  | nil, _ => Nat.le_refl 0
  | number _, _ => Nat.le_refl 1
  | symbol _, _ => Nat.le_refl 1
  | string _, _ => Nat.le_refl 1
  | native _, _ => Nat.le_refl 1

end

/-! ## Scanning the text -/

/-- The text between the first item of a list and its end starts with white space. -/
theorem isBounded_renderTail {t : Tree β} (h : t.IsList) (depth : Nat) {rest : Text}
    (hrest : Text.IsBounded rest) : Text.IsBounded (t.renderTail depth ++ rest) := by
  cases t with
  | nil => exact hrest
  | pair head tail => exact (by decide : isDelimiter (unit ' ') = true)
  | number | symbol | string | native => exact h.elim

theorem isBounded_close (rest : Text) : Text.IsBounded ([unit ')'] ++ rest) :=
  (by decide : isDelimiter (unit ')') = true)

/-- An atom is scanned as one token, which ends where the atom does. -/
theorem lexes_name {name rest : Text} (hne : name ≠ [])
    (hname : ∀ u ∈ name, isDelimiter u = false) (hrest : Text.IsBounded rest) (place : Location)
    {room : Nat} {t : Tree β} (ht : (Datum.ofAtom name).toTree = t) :
    ∃ tokens, Lexes name rest tokens place ∧ Derives room tokens t ∧
      ∀ before, lastEndOf before tokens = (place.after name).offset := by
  subst ht
  exact ⟨_, lexes_atom hne hname hrest place, .atom rfl, fun _ => rfl⟩

theorem ofAtom_of_isName {name : Text} (h : IsName name) :
    (Datum.ofAtom name).toTree = (symbol name : Tree β) := by
  rw [Datum.ofAtom_of_not_literal h.2.2]
  rfl

/-- The text of a number is read as the number, or as a symbol if it is not finite. -/
theorem ofAtom_toText (value : Number) :
    (Datum.ofAtom (Number.toText value)).toTree = (number value : Tree β).rereadAtom := by
  rw [rereadAtom]
  split
  · obtain ⟨l, hparse, hvalue⟩ := Number.parse?_toText ‹_›
    rw [Datum.ofAtom, hparse, ← hvalue]
    rfl
  · exact ofAtom_of_isName ⟨(Number.toText_atom value).1, (Number.toText_atom value).2,
      Number.isNumberLiteral_toText_of_not_finite (Bool.eq_false_iff.mpr ‹_›)⟩

mutual

/-- **The text of a tree is scanned as tokens that derive what it is read back as.** -/
theorem lexes_render {p : Number → Prop} : (t : Tree β) → t.Readable p → (depth : Nat) →
    {rest : Text} → Text.IsBounded rest → (place : Location) →
    ∃ tokens, Lexes (t.render depth) rest tokens place ∧
      Derives (depth + 1) tokens (t.reread depth) ∧
      ∀ before, lastEndOf before tokens = (place.after (t.render depth)).offset
  | pair _ _, _, 0, _, hrest, place =>
    lexes_name isName_cycleMarker.1 isName_cycleMarker.2.1 hrest place
      (ofAtom_of_isName isName_cycleMarker)
  | pair head tail, h, depth + 1, rest, hrest, place => by
    have hclose := lexes_close rest
      (((place.after [unit '(']).after (head.render depth)).after (tail.renderTail depth))
    obtain ⟨more, items, htail, hitems, hlist⟩ := lexes_renderTail tail h.2.1 h.2.2 depth
      (isBounded_close rest) ((place.after [unit '(']).after (head.render depth))
    -- white space or the closing bracket follows the head, so an atom in it ends there
    obtain ⟨first, hhead, hd, -⟩ := lexes_render head h.1 depth
      (isBounded_renderTail h.2.2 depth (isBounded_close rest)) (place.after [unit '('])
    rw [← List.append_assoc] at hhead
    have hall := (lexes_open _ place).append (hhead.append (htail.append hclose))
    refine ⟨_, hall, ?_, fun before => ?_⟩
    · rw [reread, hlist, ← List.append_assoc first]
      exact .list rfl rfl (.cons hd hitems)
    · rw [lastEndOf_append, lastEndOf_append, lastEndOf_append]
      show _ = (place.after ([unit '('] ++ (head.render depth ++ _))).offset
      rw [Location.after_append, Location.after_append, Location.after_append]
      rfl
  | number value, _, _, _, hrest, place =>
    lexes_name (Number.toText_atom value).1 (Number.toText_atom value).2 hrest place
      (ofAtom_toText value)
  | nil, _, depth, rest, _, place =>
    have hderives : ∀ opening closing : Token, opening.kind = .openList →
        closing.kind = .closeList → Derives (depth + 1) (opening :: ([] ++ [closing])) nil :=
      fun _ _ ho hc => .list ho hc .nil
    ⟨_, (lexes_open _ place).append (lexes_close rest _), hderives _ _ rfl rfl, fun _ => rfl⟩
  | symbol _, h, _, _, hrest, place => lexes_name h.1 h.2.1 hrest place (ofAtom_of_isName h)
  | string value, _, _, rest, _, place =>
    ⟨_, lexes_quoteString value rest place, .string rfl, fun _ => rfl⟩
  | native _, h, _, _, _, _ => h.elim

theorem lexes_renderTail {p : Number → Prop} : (t : Tree β) → t.Readable p → t.IsList →
    (depth : Nat) → {rest : Text} → Text.IsBounded rest → (place : Location) →
    ∃ tokens items, Lexes (t.renderTail depth) rest tokens place ∧
      DeriveAll (depth + 1) tokens items ∧ t.rereadTail depth = ofList items
  | nil, _, _, _, rest, _, place => ⟨[], [], .nil rest place, .nil, rfl⟩
  | pair head tail, h, hlist, depth, rest, hrest, place => by
    obtain ⟨first, hfirst, hd, -⟩ := lexes_render head h.1 depth
      (isBounded_renderTail (t := tail) hlist depth hrest) (place.after [unit ' '])
    obtain ⟨more, items, hmore, hitems, htail⟩ := lexes_renderTail tail h.2.1 hlist depth hrest
      ((place.after [unit ' ']).after (head.render depth))
    refine ⟨first ++ more, _, ?_, .cons hd hitems, by rw [rereadTail, htail]; rfl⟩
    have hall := (lexes_space (by decide : isSpace (unit ' ') = true) _ place).append
      (hfirst.append hmore)
    exact hall
  | number _, _, hlist, _, _, _, _ => hlist.elim
  | symbol _, _, hlist, _, _, _, _ => hlist.elim
  | string _, _, hlist, _, _, _, _ => hlist.elim
  | native _, _, hlist, _, _, _, _ => hlist.elim

end

end Tree

end ConsoleLisp
