import ConsoleLisp.Proofs.Value.Denotation

/-!
# The printer and the rendering of a tree

A writer that may still write takes pieces one after another as it takes their concatenation, so
what is printed for a value is one text, `Tree.render`, written at once. The path of the printer
holds slots of larger trees only (`Above`), so on a value that denotes a tree it never stops at a
pair.

Results:
* `Writer.emit_append`: writing is an action of texts.
* **`write_spec`**: the printer writes the rendering of the tree.
* `format_spec`, `display_spec`: the printed texts of a value are those of its tree.
-/

namespace ConsoleLisp

namespace Writer

/-- A limit that is no count below zero. -/
def IsRegular (w : Writer) : Prop := ∀ units, w.room ≠ .belowZero units

theorem emit_of_isCut {w : Writer} (h : w.isCut = true) (piece : Text) : w.emit piece = w := by
  rw [emit, if_pos h]

theorem IsRegular.emit {w : Writer} (h : w.IsRegular) (piece : Text) :
    (w.emit piece).IsRegular := by
  unfold Writer.emit
  split
  · exact h
  · split
    · exact h
    · split <;> exact fun _ => by simp
    · exact absurd ‹_› (h _)
    · exact absurd ‹_› (h _)

theorem emit_nil {w : Writer} (h : w.IsRegular) : w.emit [] = w := by
  obtain ⟨written, room, isCut⟩ := w
  cases isCut with
  | true => rfl
  | false =>
    cases room with
    | unlimited => rfl
    | atMost units => simp [emit]
    | belowZero units => exact absurd rfl (h units)

/-- **Writing two pieces is writing their concatenation.** -/
theorem emit_append {w : Writer} (h : w.IsRegular) (a b : Text) :
    (w.emit a).emit b = w.emit (a ++ b) := by
  obtain ⟨written, room, isCut⟩ := w
  cases isCut with
  | true => rfl
  | false =>
    cases room with
    | unlimited => simp [emit, List.reverseAux_eq]
    | atMost units =>
      by_cases ha : a.length ≤ units
      · by_cases hb : b.length ≤ units - a.length
        · have hab : a.length + b.length ≤ units := by omega
          have hsub : units - a.length - b.length = units - (a.length + b.length) := by omega
          simp [emit, List.reverseAux_eq, ha, hb, hab, hsub]
        · have hab : ¬ a.length + b.length ≤ units := by omega
          simp [emit, List.reverseAux_eq, ha, hb, hab, List.take_append, List.take_of_length_le ha]
      · have hab : ¬ a.length + b.length ≤ units := by omega
        have hle : units - a.length = 0 := by omega
        simp [emit, ha, hab, List.take_append, hle]
    | belowZero units => exact absurd rfl (h units)

/-- A writer without a limit takes all of a text. -/
theorem toText_emit_unlimited (t : Text) : ((empty .unlimited).emit t).toText = t := by
  simp [empty, emit, toText, List.reverseAux_eq]

/-- What a writer with a count as its limit makes of one text. -/
theorem toText_emit_atMost (limit : Nat) (t : Text) :
    ((empty (.atMost limit)).emit t).toText = Text.cutAt limit t := by
  unfold emit Text.cutAt
  split
  · contradiction
  · by_cases h : t.length ≤ limit
    · simp [empty, toText, h, List.reverseAux_eq]
    · simp [empty, toText, h, List.reverseAux_eq]

end Writer

variable {κ β : Type} {embed : β → κ} {look : Handle → Option (Cell κ)} {heap : Heap κ}

/-- The slots of a path hold larger trees. -/
def Above (embed : β → κ) (look : Handle → Option (Cell κ)) (path : List Nat) (t : Tree β) : Prop :=
  ∀ i ∈ path, ∃ f u, f.index = i ∧ Denotes embed look f u ∧ t.size < u.size

namespace Above

theorem nil (t : Tree β) : Above embed look [] t := fun _ hi => absurd hi List.not_mem_nil

theorem mono {path : List Nat} {t u : Tree β} (h : Above embed look path t)
    (hle : u.size ≤ t.size) : Above embed look path u := by
  intro i hi
  obtain ⟨f, v, hf, hv, hlt⟩ := h i hi
  exact ⟨f, v, hf, hv, by omega⟩

theorem cons {path : List Nat} {e : Handle} {t u : Tree β} (h : Above embed look path t)
    (he : Denotes embed look e t) (hlt : u.size < t.size) :
    Above embed look (e.index :: path) u := by
  rintro i (_ | ⟨_, hi⟩)
  · exact ⟨e, t, rfl, he, hlt⟩
  · exact h.mono (Nat.le_of_lt hlt) i hi

/-- A handle is not on a path above its own tree. -/
theorem not_contains (hl : ∀ e c, look e = some c → heap.cell? e = some c) {path : List Nat}
    {e : Handle} {t : Tree β} (h : Above embed look path t) (he : Denotes embed look e t) :
    path.contains e.index = false := by
  rw [← Bool.not_eq_true, List.contains_iff_mem]
  intro hmem
  obtain ⟨f, u, hf, hu, hlt⟩ := h _ hmem
  obtain ⟨c, hc⟩ := he.exists_look
  obtain ⟨d, hd⟩ := hu.exists_look
  have hfe := Heap.eq_of_index_eq (hl f d hd) (hl e c hc) hf
  have := (hfe ▸ hu).size_eq he
  omega

end Above

namespace Tree

theorem atomPiece_eq {t : Tree β} {c : Cell κ} (h : t.atom? embed = some c) :
    c.atomPiece = t.atomText := by
  cases t <;> cases h <;> rfl

theorem render_of_atom? {t : Tree β} {c : Cell κ} (h : t.atom? embed = some c) (depth : Nat) :
    t.render depth = t.atomText := by
  cases t <;> first | rfl | cases h

end Tree

namespace Heap

/-- The printer, below some depth, writes renderings. -/
def Renders (embed : β → κ) (look : Handle → Option (Cell κ)) (heap : Heap κ) (depth : Nat) :
    Prop :=
  ∀ {e : Handle} {t : Tree β}, Denotes embed look e t →
    ∀ {path : List Nat} {w : Writer}, Above embed look path t → w.IsRegular →
      heap.write depth path e w = .ok (w.emit (t.render depth))

/-- The items of a list behind the first, and what ends it. -/
theorem writeItems_tail (hl : ∀ e c, look e = some c → heap.cell? e = some c) {depth : Nat}
    (hwrite : Renders embed look heap depth) {e : Handle} {t : Tree β}
    (h : Denotes embed look e t) {fuel : Nat} (hfuel : t.spine < fuel) {path : List Nat}
    (hpath : Above embed look path t) {w : Writer} (hw : w.IsRegular) :
    heap.writeItems (heap.write depth) fuel path false e w = .ok (w.emit (t.renderTail depth)) := by
  induction h generalizing fuel path w with
  | @atom e t c hc ha =>
    obtain ⟨fuel, rfl⟩ := Nat.exists_eq_add_of_lt hfuel
    by_cases hcut : w.isCut = true
    · rw [writeItems, if_pos hcut, w.emit_of_isCut hcut]
    have hin := Denotes.inspect_eq hl hc
    rw [writeItems, if_neg hcut, hin]
    have hatom := hwrite (.atom hc ha) hpath (hw.emit (text " . "))
    rw [Tree.render_of_atom? ha, Writer.emit_append hw] at hatom
    cases t with
    | nil =>
      cases ha
      rw [Tree.renderTail, Writer.emit_nil hw]
    | number | symbol | string | native =>
      cases ha
      exact hatom
    | pair => cases ha
  | @pair e head tail s t hc hh ht _ iht =>
    obtain ⟨fuel, rfl⟩ := Nat.exists_eq_add_of_lt hfuel
    by_cases hcut : w.isCut = true
    · rw [writeItems, if_pos hcut, w.emit_of_isCut hcut]
    have he : Denotes embed look e (.pair s t) := .pair hc hh ht
    have hin := Denotes.inspect_eq hl hc
    have hhead : heap.write depth (e.index :: path) head (w.emit [unit ' ']) =
        .ok ((w.emit [unit ' ']).emit (s.render depth)) :=
      hwrite hh (hpath.cons he (by rw [Tree.size]; omega)) (hw.emit _)
    have htail : heap.writeItems (heap.write depth) (t.spine + 1 + fuel) (e.index :: path) false
        tail ((w.emit [unit ' ']).emit (s.render depth)) = _ :=
      iht (by omega) (hpath.cons he (by rw [Tree.size]; omega)) ((hw.emit _).emit _)
    rw [Tree.spine, writeItems, if_neg hcut, hin]
    simp only [hpath.not_contains hl he, Bool.false_eq_true, if_false, hhead, htail]
    rw [Writer.emit_append hw, Writer.emit_append hw, Tree.renderTail]
    simp

/-- All items of a list. -/
theorem writeItems_list (hl : ∀ e c, look e = some c → heap.cell? e = some c) {depth : Nat}
    (hwrite : Renders embed look heap depth) {e head tail : Handle} {s t : Tree β}
    (hc : look e = some (.pair head tail)) (hh : Denotes embed look head s)
    (ht : Denotes embed look tail t) {path : List Nat} (hpath : Above embed look path (s.pair t))
    {w : Writer} (hw : w.IsRegular) :
    heap.writeItems (heap.write depth) (heap.slots.size + 1) path true e w =
      .ok (w.emit (s.render depth ++ t.renderTail depth)) := by
  have he : Denotes embed look e (.pair s t) := .pair hc hh ht
  have hin := Denotes.inspect_eq hl hc
  by_cases hcut : w.isCut = true
  · rw [writeItems, if_pos hcut, w.emit_of_isCut hcut]
  have hhead : heap.write depth (e.index :: path) head w = .ok (w.emit (s.render depth)) :=
    hwrite hh (hpath.cons he (by rw [Tree.size]; omega)) hw
  have htail : heap.writeItems (heap.write depth) heap.slots.size (e.index :: path) false tail
      (w.emit (s.render depth)) = .ok ((w.emit (s.render depth)).emit (t.renderTail depth)) :=
    writeItems_tail hl hwrite ht (ht.spine_lt hl) (hpath.cons he (by rw [Tree.size]; omega))
      (hw.emit _)
  rw [writeItems, if_neg hcut, hin]
  simp only [hpath.not_contains hl he, Bool.false_eq_true, if_false, if_true, hhead, htail]
  rw [Writer.emit_append hw]

theorem write_atom (hl : ∀ e c, look e = some c → heap.cell? e = some c) {e : Handle}
    {t : Tree β} {c : Cell κ} (hc : look e = some c) (ha : t.atom? embed = some c) (depth : Nat)
    (path : List Nat) (w : Writer) :
    heap.write depth path e w = .ok (w.emit (t.render depth)) := by
  by_cases hcut : w.isCut = true
  · cases depth <;> rw [write, if_pos hcut, w.emit_of_isCut hcut]
  have hin := Denotes.inspect_eq hl hc
  rw [Tree.render_of_atom? ha, ← Tree.atomPiece_eq ha]
  cases c with
  | pair => exact absurd ha Tree.atom?_ne_pair
  | nil | number | symbol | string | native =>
    cases depth <;> rw [write, if_neg hcut, hin]

/-- **The printer writes the rendering of the tree**, whatever was written before. By induction on
the depth; the items of a list are written one level below it. -/
theorem write_spec (hl : ∀ e c, look e = some c → heap.cell? e = some c) (depth : Nat) :
    Renders embed look heap depth := by
  induction depth with
  | zero =>
    intro e t h path w hpath hw
    cases h with
    | atom hc ha => exact write_atom hl hc ha 0 path w
    | pair hc hh ht =>
      by_cases hcut : w.isCut = true
      · rw [write, if_pos hcut, w.emit_of_isCut hcut]
      rw [write, if_neg hcut, Denotes.inspect_eq hl hc]
      simp only [hpath.not_contains hl (.pair hc hh ht), Bool.false_eq_true, if_false]
      rfl
  | succ depth ih =>
    intro e t h path w hpath hw
    cases h with
    | atom hc ha => exact write_atom hl hc ha (depth + 1) path w
    | pair hc hh ht =>
      by_cases hcut : w.isCut = true
      · rw [write, if_pos hcut, w.emit_of_isCut hcut]
      have hitems := writeItems_list hl ih hc hh ht hpath (hw.emit [unit '('])
      rw [write, if_neg hcut, Denotes.inspect_eq hl hc]
      simp only [hpath.not_contains hl (.pair hc hh ht), Bool.false_eq_true, if_false, hitems]
      rw [Writer.emit_append (hw.emit _), Writer.emit_append hw, Tree.render]
      simp

/-- **The printed text of a value is that of its tree.** -/
theorem format_spec (hl : ∀ e c, look e = some c → heap.cell? e = some c) {e : Handle}
    {t : Tree β} (h : Denotes embed look e t) : heap.format e = .ok t.format := by
  have hregular : (Writer.empty (.atMost maxPrintLength)).IsRegular := fun units hne => by cases hne
  rw [format, formatWithin, write_spec hl maxPrintDepth h (.nil t) hregular]
  show Except.ok _ = _
  rw [Writer.toText_emit_atMost]
  rfl

end Heap

end ConsoleLisp
