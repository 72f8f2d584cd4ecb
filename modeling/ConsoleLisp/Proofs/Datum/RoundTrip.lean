import ConsoleLisp.Proofs.Datum.Reading
import ConsoleLisp.Proofs.Value.Print
import ConsoleLisp.Proofs.Value.Reread

/-!
# Printing and reading

The printed text of a value is read back, and what is read back has the same printed text.

Results:
* `read_of_lexes`: a text whose tokens derive a value and end with it.
* `read_render`: the text of a tree is read as `Tree.reread` says, as a whole.
* `Derives.readable`: what scanned tokens derive can be read again from its text.
* **`print_then_read`**: a value whose text stands for it alone is read back.
* **`printed_text_is_normal`**: the printed text of a value that was read is a normal form.
-/

namespace ConsoleLisp

/-! ## Printed texts are read -/

/-- Only a text that was not cut is within the limit. -/
theorem Text.length_cutAt_le_iff {limit : Nat} {t : Text} :
    (Text.cutAt limit t).length ≤ limit ↔ t.length ≤ limit := by
  unfold Text.cutAt
  split
  · exact Iff.rfl
  · have hmarker : truncationMarker.length = 4 := rfl
    rw [List.length_append, List.length_take, hmarker]
    omega

theorem Text.cutAt_eq_self {limit : Nat} {t : Text} (h : (Text.cutAt limit t).length ≤ limit) :
    Text.cutAt limit t = t :=
  if_pos (Text.length_cutAt_le_iff.mp h)

namespace Heap

variable {κ : Type} {heap heap' : Heap κ} {e : Handle} {t : Tree Empty} {p : Number → Prop}

/-- A text is read as a whole when the tokens it scans into derive a value and it ends with them. -/
theorem read_of_lexes {text : Text} {tokens : List Token} (hlexes : Lexes text [] tokens .start)
    (hderives : Derives maxReadDepth tokens t)
    (hend : ∀ before, lastEndOf before tokens = (Location.start.after text).offset)
    (w : heap.WellFormed) (hroom : heap.Room t.cells) :
    ∃ e' heap', read text heap = (.ok (.ok (e', text.length)), heap') ∧
      Denotes Empty.elim heap'.cell? e' t := by
  obtain ⟨e', heap', hread, he⟩ := read_of_derives w (beginsWith_of_lexes hlexes) hderives hroom
  rw [hend, Location.offset_start_after] at hread
  exact ⟨e', heap', hread, he⟩

/-- **The text of a tree is read as a whole**, in any heap with room for what it is read as. -/
theorem read_render (ht : t.Readable p) (w : heap.WellFormed)
    (hroom : heap.Room (t.reread maxPrintDepth).cells) :
    ∃ e' heap', read (t.render maxPrintDepth) heap =
        (.ok (.ok (e', (t.render maxPrintDepth).length)), heap') ∧
      Denotes Empty.elim heap'.cell? e' (t.reread maxPrintDepth) := by
  obtain ⟨tokens, hlexes, hderives, hend⟩ := Tree.lexes_render t ht maxPrintDepth
    Text.isBounded_nil .start
  exact read_of_lexes hlexes (hderives.mono (by decide)) hend w hroom

end Heap

/-! ## What was read can be printed -/

/-- A token as the scan makes it: an atom has units, none of them a delimiter. -/
def IsScanned (token : Token) : Prop :=
  token.kind = .atom → token.value ≠ [] ∧ ∀ u ∈ token.value, isDelimiter u = false

theorem isScanned_of_beginsWith {source : Text} {tokens : List Token}
    (h : BeginsWith source tokens) : ∀ token ∈ tokens, IsScanned token := by
  intro token htoken hkind
  obtain ⟨lexeme, hlexeme, heq⟩ := List.mem_map.mp (h.subset (List.mem_map_of_mem htoken))
  exact atom_of_mem_lexemes hlexeme heq hkind

theorem Tree.isList_ofList {β : Type} (items : List (Tree β)) : (Tree.ofList items).IsList := by
  induction items with
  | nil => exact trivial
  | cons t items ih => exact ih

theorem Tree.readable_ofList {β : Type} {p : Number → Prop} {items : List (Tree β)}
    (h : ∀ t ∈ items, t.Readable p) : (Tree.ofList items).Readable p := by
  induction items with
  | nil => exact trivial
  | cons t items ih =>
    exact ⟨h t List.mem_cons_self, ih fun u hu => h u (List.mem_cons_of_mem t hu),
      Tree.isList_ofList items⟩

theorem isName_quote : IsName (text "quote") :=
  ⟨List.cons_ne_nil _ _, Number.not_delimiter_of_all rfl, by decide +kernel⟩

mutual

/-- **What scanned tokens derive can be read again from its text.** -/
theorem Derives.readable {β : Type} {room : Nat} {tokens : List Token} {t : Tree β} :
    Derives room tokens t → (∀ token ∈ tokens, IsScanned token) → t.Readable fun _ => True
  | .string _, _ => trivial
  | .number _ _, _ => trivial
  | .symbol hk hnot, h =>
    have hscanned := h _ List.mem_cons_self hk
    ⟨hscanned.1, hscanned.2, hnot⟩
  | .quotation _ hd, h =>
    have hquoted := hd.readable fun token ht => h token (List.mem_cons_of_mem _ ht)
    ⟨isName_quote, ⟨hquoted, trivial, trivial⟩, trivial⟩
  | .list _ _ hitems, h =>
    Tree.readable_ofList (hitems.readable fun token ht =>
      h token (List.mem_cons_of_mem _ (List.mem_append_left _ ht)))

theorem DeriveAll.readable {β : Type} {room : Nat} {tokens : List Token} {items : List (Tree β)} :
    DeriveAll room tokens items → (∀ token ∈ tokens, IsScanned token) →
    ∀ t ∈ items, t.Readable fun _ => True
  | .nil, _ => fun _ ht => absurd ht List.not_mem_nil
  | .cons hd hrest, h =>
    List.forall_mem_cons.mpr ⟨hd.readable fun token ht => h token (List.mem_append_left _ ht),
      hrest.readable fun token ht => h token (List.mem_append_right _ ht)⟩

end

namespace Heap

variable {κ : Type} {heap heap' : Heap κ} {e : Handle}

/-! ## Values and their texts -/

/-- **A value whose text stands for it alone is read back.** The value is a tree of proper lists
that are nested to the print depth at most, of finite numbers other than negative zero, of strings
and of symbols that are read as symbols; parts of it may be shared. A text that was cut is longer
than the limit. -/
theorem print_then_read {t : Tree Empty} (h : Denotes Empty.elim heap.cell? e t)
    (ht : t.Readable Tree.IsPlain) (hnesting : t.nesting ≤ maxPrintDepth) :
    ∃ printed, heap.format e = .ok printed ∧ (printed.length ≤ maxPrintLength →
      ∀ other : Heap κ, other.WellFormed → other.Room t.cells →
        ∃ e' other', read printed other = (.ok (.ok (e', printed.length)), other') ∧
          Denotes Empty.elim other'.cell? e' t) := by
  refine ⟨t.format, format_spec (fun _ _ hc => hc) h, fun hlength other w hroom => ?_⟩
  have hsame := t.reread_eq ht hnesting
  have hread := read_render ht w (by rwa [hsame])
  rw [hsame] at hread
  rwa [Tree.format, Text.cutAt_eq_self hlength]

/-- A list whose first item is also its tail, read back in a new heap. -/
theorem print_then_read_shared : ∃ (heap other other' : Heap Unit) (e e' shared : Handle),
    heap.cell? e = some (.pair shared shared) ∧
      heap.format e = .ok (text "((\"a\\\"\") \"a\\\"\")") ∧
      create 2 Number.infinity = .ok other ∧
      read (text "((\"a\\\"\") \"a\\\"\")") other = (.ok (.ok (e', 15)), other') ∧
      Denotes Empty.elim other'.cell? e' (.pair (.ofList [.string (text "a\"")])
        (.ofList [.string (text "a\"")])) := by
  let heap : Heap Unit := ⟨1, Number.infinity, #[⟨0, some .nil, some ⟨1, 0, 0⟩⟩,
    ⟨0, some (.string (text "a\"")), some ⟨1, 1, 0⟩⟩,
    ⟨0, some (.pair ⟨1, 1, 0⟩ ⟨1, 0, 0⟩), some ⟨1, 2, 0⟩⟩,
    ⟨0, some (.pair ⟨1, 2, 0⟩ ⟨1, 2, 0⟩), some ⟨1, 3, 0⟩⟩], [], 4, false⟩
  have hshared : Denotes Empty.elim heap.cell? ⟨1, 2, 0⟩ (.ofList [.string (text "a\"")]) :=
    have hpair : heap.cell? ⟨1, 2, 0⟩ = some (.pair ⟨1, 1, 0⟩ ⟨1, 0, 0⟩) := by decide +kernel
    have hstring : heap.cell? ⟨1, 1, 0⟩ = some (.string (text "a\"")) := by decide +kernel
    have hnil : heap.cell? ⟨1, 0, 0⟩ = some .nil := by decide +kernel
    .pair hpair (.atom hstring rfl) (.atom hnil rfl)
  have hlist : heap.cell? ⟨1, 3, 0⟩ = some (.pair ⟨1, 2, 0⟩ ⟨1, 2, 0⟩) := by decide +kernel
  have hformat : heap.format ⟨1, 3, 0⟩ = .ok (text "((\"a\\\"\") \"a\\\"\")") := by
    decide +kernel
  obtain ⟨printed, hprinted, hread⟩ := print_then_read (.pair hlist hshared hshared)
    ⟨⟨trivial, trivial, trivial⟩, ⟨trivial, trivial, trivial⟩, trivial⟩ (by decide)
  cases hformat.symm.trans hprinted
  have hcreate := @create_unbounded Unit 2
  obtain ⟨e', other', hrun, he'⟩ := hread (by decide +kernel) _ (create_wellFormed hcreate)
    (room_of_infinity rfl _)
  exact ⟨heap, _, other', ⟨1, 3, 0⟩, e', ⟨1, 2, 0⟩, hlist, hformat, hcreate, hrun, he'⟩

/-- **The printed text of a value that was read is a normal form**: it is read, as a whole, as a
value with the same printed text, and this takes no more cells than the first read has taken. The
text may elide lists, and numbers may have become symbols. A text that was cut is longer than the
limit. -/
theorem printed_text_is_normal (w : heap.WellFormed) {source : Text} {stop : Nat}
    (h : read source heap = (.ok (.ok (e, stop)), heap')) :
    ∃ printed cells, heap'.format e = .ok printed ∧ heap.live + cells ≤ heap'.live ∧
      (printed.length ≤ maxPrintLength → ∀ other : Heap κ, other.WellFormed → other.Room cells →
        ∃ e' other', read printed other = (.ok (.ok (e', printed.length)), other') ∧
          other'.format e' = .ok printed) := by
  obtain ⟨tokens, t, -, hbegins, hderives, -, he, hlive⟩ := derives_of_read w h
  have ht := hderives.readable (isScanned_of_beginsWith hbegins)
  have hcells := t.cells_reread_le maxPrintDepth
  refine ⟨t.format, (t.reread maxPrintDepth).cells, format_spec (fun _ _ hc => hc) he, by omega,
    fun hlength other w' hroom => ?_⟩
  rw [Tree.format, Text.cutAt_eq_self hlength]
  obtain ⟨e', other', hread, he'⟩ := read_render ht w' hroom
  refine ⟨e', other', hread, ?_⟩
  rw [format_spec (fun _ _ hc => hc) he', Tree.format, Tree.render_reread]
  exact congrArg Except.ok (Text.cutAt_eq_self hlength)

/-- The printed text of a list with an infinite number and negative zero. -/
theorem printed_text_is_normal_infinity :
    ∃ (heap heap' other : Heap Unit) (e e' : Handle), create 1 Number.infinity = .ok heap ∧
      read (text "(1e999 -0 '.) ; numbers") heap = (.ok (.ok (e, 13)), heap') ∧
      heap'.format e = .ok (text "(Infinity 0 (quote .))") ∧
      read (text "(Infinity 0 (quote .))") heap = (.ok (.ok (e', 22)), other) ∧
      other.format e' = .ok (text "(Infinity 0 (quote .))") := by
  let heap : Heap Unit :=
    ⟨1, Number.infinity, #[⟨0, some .nil, some ⟨1, 0, 0⟩⟩], [], 1, false⟩
  have hcreate : create 1 Number.infinity = .ok heap := create_unbounded 1
  have hresult : (read (text "(1e999 -0 '.) ; numbers") heap).1 =
      .ok (.ok (⟨1, 9, 0⟩, 13)) := by decide +kernel
  have hformat : (read (text "(1e999 -0 '.) ; numbers") heap).2.format ⟨1, 9, 0⟩ =
      .ok (text "(Infinity 0 (quote .))") := by decide +kernel
  cases hrun : read (text "(1e999 -0 '.) ; numbers") heap with
  | mk result heap' =>
    rw [hrun] at hresult hformat
    subst hresult
    have hw := create_wellFormed hcreate
    obtain ⟨printed, cells, hprinted, -, hread⟩ := printed_text_is_normal hw hrun
    cases hformat.symm.trans hprinted
    obtain ⟨e', other, hrun', hformat'⟩ :=
      hread (by decide +kernel) heap hw (room_of_infinity rfl _)
    exact ⟨heap, heap', other, ⟨1, 9, 0⟩, e', hcreate, hrun, hformat, hrun', hformat'⟩

end Heap

end ConsoleLisp
