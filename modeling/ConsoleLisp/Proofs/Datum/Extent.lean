import ConsoleLisp.Proofs.Datum.Reading

/-!
# What a read depends on

A read depends on the expression that it takes and on nothing behind it, but that an atom at its end
has to end there. A list or a string literal, on the other hand, needs all of its text.

Results:
* `readDatum_of_agrees`: a text that begins with the units of a datum reads as that datum.
* `Derives.closes`: what starts with a parenthesis or a string ends with one.
* `Completes.cells_le`, `cells_le_of_cut`: what is complete inside an expression, or inside a part
  of its text, takes no more cells than the expression.
* **`read_is_local`**: a read depends on the expression that it takes only, and fails on what is
  short of it.
-/

namespace ConsoleLisp

open Reader

/-! ## Behind the expression -/

/-- **A text that begins with the units of a datum reads as that datum**, if an atom at the end of
them ends there. -/
theorem readDatum_of_agrees {source other : Text} {tokens : List Token} {c : Cursor} {d : Datum}
    (hscan : (Cursor.ofText source).Scans tokens c) (hcompletes : Completes 0 [] tokens d)
    (hagree : other.take c.place.offset = source.take c.place.offset)
    (hends : ∀ last ∈ tokens.getLast?, last.kind = .atom →
      Text.IsBounded (other.drop c.place.offset)) :
    readDatum other = .ok (d, c.place.offset) := by
  obtain ⟨hsource, hle⟩ := hscan.splits
  obtain ⟨tokens', halike, hscan'⟩ := hscan.transfer hsource _ hends .start
  rw [← hagree, List.take_append_drop] at hscan'
  refine readDatum_eq_ok_iff.mpr ⟨_, ⟨tokens', hscan', hcompletes.alike halike .nil⟩, ?_⟩
  rw [hagree, Location.offset_start_after, List.length_take, Nat.min_eq_left hle]

/-! ## Short of the expression -/

/-- **What starts with a parenthesis or a string ends with one**, never with an atom. -/
theorem Derives.closes {β : Type} {room : Nat} {tokens : List Token} {t : Tree β} {first : Token}
    (h : Derives room (first :: tokens) t)
    (hopens : first.kind = .openList ∨ first.kind = .string) :
    ∀ last ∈ (first :: tokens).getLast?, last.kind = .closeList ∨ last.kind = .string := by
  intro last hlast
  generalize htokens : first :: tokens = all at h hlast
  cases h with
  | string hk =>
    obtain rfl := Option.some.inj hlast
    exact .inr hk
  | list _ hk =>
    rw [← List.cons_append, List.getLast?_concat] at hlast
    obtain rfl := Option.some.inj hlast
    exact .inl hk
  | number hk | symbol hk | quotation hk =>
    cases htokens
    rw [hk] at hopens
    simp at hopens

/-! ## The cells of what is complete -/

/-- The cells of a datum, or of what is complete in open frames. -/
def cellsIn : Datum ⊕ List Frame → Nat
  | .inl d => (d.toTree : Tree Empty).cells
  | .inr frames => Heap.cellsOf (completed frames)

theorem cellsOf_cons (d : Datum) (data : List Datum) :
    Heap.cellsOf (d :: data) = (d.toTree : Tree Empty).cells + Heap.cellsOf data := rfl

theorem cellsOf_append (data more : List Datum) :
    Heap.cellsOf (data ++ more) = Heap.cellsOf data + Heap.cellsOf more := by
  induction data with
  | nil => simp [Heap.cellsOf, Tree.cellsAll]
  | cons d data ih => rw [List.cons_append, cellsOf_cons, cellsOf_cons, ih, Nat.add_assoc]

theorem cellsOf_le_ofList (items : List Datum) :
    Heap.cellsOf items ≤ ((Datum.ofList items).toTree : Tree Empty).cells := by
  induction items with
  | nil => exact Nat.le_refl _
  | cons d items ih =>
    have hcells : ((Datum.ofList (d :: items)).toTree : Tree Empty).cells =
        (d.toTree : Tree Empty).cells + ((Datum.ofList items).toTree : Tree Empty).cells + 1 := rfl
    rw [hcells, cellsOf_cons]
    omega

theorem cells_quoted (d : Datum) : ((Datum.quoted d).toTree : Tree Empty).cells =
    (d.toTree : Tree Empty).cells + 3 := by
  simp only [Datum.toTree, Tree.ofList, List.foldr_cons, List.foldr_nil, Tree.cells]
  omega

theorem cells_ofAtom (value : Text) : ((Datum.ofAtom value).toTree : Tree Empty).cells = 1 := by
  unfold Datum.ofAtom
  cases Literal.parse? value <;> rfl

theorem completed_cons_list (opened : Location) (items : List Datum) (outer : List Frame) :
    completed (.list opened items :: outer) = completed outer ++ items.reverse := by
  simp [completed]

theorem completed_cons_quotation (outer : List Frame) :
    completed (.quotation :: outer) = completed outer := by
  simp [completed]

/-- A datum put into the open frames adds its cells and those of the quotations it completes. -/
theorem cellsIn_plug (d : Datum) (frames : List Frame) :
    cellsIn (plug d frames) = Heap.cellsOf (completed frames) + (d.toTree : Tree Empty).cells +
      3 * (frames.takeWhile (· = .quotation)).length := by
  induction frames generalizing d with
  | nil => simp [plug, cellsIn, completed, Heap.cellsOf, Tree.cellsAll]
  | cons frame outer ih =>
    cases frame with
    | quotation =>
      rw [plug, ih, cells_quoted, completed_cons_quotation, List.takeWhile_cons_of_pos (by simp),
        List.length_cons]
      omega
    | list opened items =>
      rw [plug, cellsIn, completed_cons_list, completed_cons_list, List.reverse_cons,
        ← List.append_assoc, cellsOf_append, List.takeWhile_cons_of_neg (by simp)]
      simp [Heap.cellsOf, Tree.cellsAll]

namespace Reader

variable {base : Nat} {frames frames' : List Frame} {token : Token} {tokens tokens' : List Token}
  {d : Datum} {result : Datum ⊕ List Frame}

theorem absorb_atom (hk : token.kind = .atom) :
    absorb base token frames = some (plug (.ofAtom token.value) frames) :=
  absorb_eq_some_iff.mpr (.atom hk)

/-- A token loses nothing of what is complete. -/
theorem cellsOf_le_of_absorb (h : absorb base token frames = some result) :
    Heap.cellsOf (completed frames) ≤ cellsIn result := by
  cases absorb_eq_some_iff.mp h with
  | openList => simp [cellsIn, completed_cons_list]
  | quote => simp [cellsIn, completed_cons_quotation]
  | string | atom =>
    rw [cellsIn_plug]
    omega
  | @closeList opened items outer =>
    have hitems := cellsOf_le_ofList items.reverse
    rw [cellsIn_plug, completed_cons_list, cellsOf_append]
    omega

/-- **What is complete inside an expression takes no more cells than the expression.** -/
theorem Completes.cells_le (h : Completes base frames tokens d) :
    Heap.cellsOf (completed frames) ≤ (d.toTree : Tree Empty).cells := by
  induction h with
  | last habsorb => exact cellsOf_le_of_absorb habsorb
  | cons habsorb _ ih => exact Nat.le_trans (cellsOf_le_of_absorb habsorb) ih

/-- Nor does what is complete behind its first token. -/
theorem Completes.cellsIn_le (h : Completes base frames (token :: tokens) d)
    (habsorb : absorb base token frames = some result) :
    cellsIn result ≤ (d.toTree : Tree Empty).cells := by
  cases h with
  | last hlast =>
    cases hlast.symm.trans habsorb
    exact Nat.le_refl _
  | cons hfirst hrest =>
    cases hfirst.symm.trans habsorb
    exact hrest.cells_le

/-- **What is complete in a part of the text of an expression** takes no more cells than the
expression: the last token of the part may be an atom that is cut, and no other token differs. -/
theorem cells_le_of_cut {c c' c'' : Cursor} {more : Text} (hcut : c.Scans tokens' c'')
    (hadvances : Advances base frames tokens' frames')
    (hscan : Cursor.Scans ⟨c.rest ++ more, c.place⟩ tokens c')
    (hcompletes : Completes base frames tokens d) :
    Heap.cellsOf (completed frames') ≤ (d.toTree : Tree Empty).cells := by
  induction hadvances generalizing c tokens with
  | nil => exact hcompletes.cells_le
  | @cons frames frames₁ frames₂ token tokens' habsorb hadvances ih =>
    cases hcut with
    | cons htoken hkind hcut =>
    rcases lexeme_append htoken hkind more with hsame | ⟨hatom, hnil, token', htoken', hatom'⟩
    · cases hscan with
      | nil => exact absurd rfl hcompletes.ne_nil
      | cons ht _ hscan =>
        rw [hsame] at ht hscan
        cases ht
        cases hcompletes with
        | last habsorb' => cases habsorb.symm.trans habsorb'
        | cons habsorb' hcompletes =>
          cases habsorb.symm.trans habsorb'
          exact ih hcut hscan hcompletes
    · -- behind a cut atom there is no token in the part
      obtain ⟨units, hunits, -, hempty, -⟩ := hcut.cuts
      rw [hnil] at hunits
      obtain rfl := hempty (List.append_eq_nil_iff.mp hunits.symm).1
      cases hadvances
      have hcells : Heap.cellsOf (completed frames₁) =
          cellsIn (plug (.ofAtom token'.value) frames) := by
        have hplug := Option.some.inj ((absorb_atom hatom).symm.trans habsorb)
        rw [cellsIn_plug, cells_ofAtom, ← cells_ofAtom token.value, ← cellsIn_plug, hplug, cellsIn]
      rw [hcells]
      cases hscan with
      | nil => exact absurd rfl hcompletes.ne_nil
      | cons ht _ _ =>
        cases htoken'.symm.trans ht
        exact hcompletes.cellsIn_le (absorb_atom hatom')

end Reader

namespace Heap

variable {κ : Type} {heap heap' : Heap κ} {source : Text} {e : Handle} {stop : Nat}

/-- A part of the text of an expression that starts with a parenthesis or a string is no datum, and
what is complete in it takes no more cells than the expression. -/
theorem readDatum_take {tokens : List Token} {c : Cursor} {d : Datum} {first : Token} {n : Nat}
    (hscan : (Cursor.ofText source).Scans (first :: tokens) c)
    (hcompletes : Completes 0 [] (first :: tokens) d)
    (hopens : first.kind = .openList ∨ first.kind = .string) (hn : n < c.place.offset) :
    ∃ failure, readDatum (source.take n) = .error failure ∧
      cellsOf failure.completed ≤ (d.toTree : Tree Empty).cells := by
  have hread : readDatum source = .ok (d, c.place.offset) :=
    readDatum_eq_ok_iff.mpr ⟨c, ⟨_, hscan, hcompletes⟩, rfl⟩
  have hsource : Cursor.ofText source =
      ⟨(Cursor.ofText (source.take n)).rest ++ source.drop n, .start⟩ := by
    simp [Cursor.ofText]
  rw [hsource] at hscan
  cases hpart : readDatum (source.take n) with
  | error failure =>
    obtain ⟨tokens', frames, c', hcut, hadvances, -, hcompleted⟩ :=
      readDatum_eq_error_iff.mp hpart
    refine ⟨failure, rfl, ?_⟩
    rw [hcompleted]
    exact cells_le_of_cut hcut hadvances hscan hcompletes
  | ok result =>
    obtain ⟨d', stop'⟩ := result
    obtain ⟨c', ⟨tokens', hcut, hcompletes'⟩, rfl⟩ := readDatum_eq_ok_iff.mp hpart
    have hle : c'.place.offset ≤ n := Nat.le_trans hcut.splits.2 (List.length_take_le n source)
    -- the part starts as the whole does, so a parenthesis or a string ends its datum
    have hcloses : ∀ last ∈ tokens'.getLast?, last.kind = .closeList ∨ last.kind = .string := by
      cases tokens' with
      | nil => exact absurd rfl hcompletes'.ne_nil
      | cons first' tokens' =>
        have hderives : Derives _ (first' :: tokens') (d'.toTree : Tree Empty) :=
          hcompletes'.derives .nil
        rw [hcut.kind_eq hscan] at hopens
        exact hderives.closes hopens
    have hagain : readDatum source = .ok (d', c'.place.offset) := by
      refine readDatum_of_agrees hcut hcompletes' ?_ fun last hlast hatom => ?_
      · rw [List.take_take, Nat.min_eq_left hle]
      · rcases hcloses last hlast with hk | hk <;> cases hk.symm.trans hatom
    have hoffset : c.place.offset = c'.place.offset :=
      (Prod.mk.inj (Except.ok.inj (hread.symm.trans hagain))).2
    omega

/-- **A read depends on the expression that it takes and on nothing behind it.** A text with the
same units up to the end of the expression is read alike, in handles, offset and heap, if the last
token of the expression is a closing parenthesis or a string, or if an atom there ends: with the
text or in front of a delimiter. An expression that is written as a list or as a string literal
needs all of its text: what is short of it is refused with an error, in every heap with room for the
expression, and read in none. -/
theorem read_is_local (w : heap.WellFormed)
    (h : read source heap = (.ok (.ok (e, stop)), heap')) :
    ∃ tokens t, BeginsWith source tokens ∧ tokens.getLast?.map (·.stop.offset) = some stop ∧
      Derives maxReadDepth tokens t ∧ Denotes Empty.elim heap'.cell? e t ∧
      (∀ other : Text, other.take stop = source.take stop →
        ((∃ last ∈ tokens.getLast?, last.kind = .closeList ∨ last.kind = .string) ∨
          other.length = stop ∨ ∃ u ∈ other[stop]?, isDelimiter u = true) →
        read other heap = (.ok (.ok (e, stop)), heap')) ∧
      ((∃ first ∈ tokens.head?, first.kind = .openList ∨ first.kind = .string) → ∀ n < stop,
        ∃ error, ∀ other : Heap κ, other.WellFormed → ∃ other',
          read (source.take n) other = (.ok (.error error), other') ∨
          ¬ other.Room t.cells ∧
            read (source.take n) other =
              (.error (.heap (.exhausted other.id other.maxSlots)), other')) := by
  obtain ⟨d, hread, hload⟩ := read_eq_ok_iff.mp h
  obtain ⟨c, ⟨tokens, hscan, hcompletes⟩, rfl⟩ := readDatum_eq_ok_iff.mp hread
  have hderives : Derives (maxReadDepth - 0) ([] ++ tokens) (d.toTree : Tree Empty) :=
    hcompletes.derives .nil
  obtain ⟨-, -, -, e', heq, he⟩ := (read_allocates hread w).of_ok h
  cases heq
  refine ⟨tokens, d.toTree, hscan.beginsWith, ?_, hderives, he, ?_, ?_⟩
  · obtain ⟨-, -, -, -, hlast⟩ := hscan.cuts
    rw [List.getLast?_eq_some_getLast hcompletes.ne_nil] at hlast ⊢
    exact congrArg (fun place => some place.offset) (hlast _ rfl)
  · intro other hagree hends
    refine read_eq_ok_iff.mpr ⟨d, readDatum_of_agrees hscan hcompletes hagree ?_, hload⟩
    intro last hlast hatom
    rcases hends with ⟨last', hlast', hk⟩ | hlength | ⟨u, hu, hdelimiter⟩
    · cases hlast.symm.trans hlast'
      rcases hk with hk | hk <;> cases hk.symm.trans hatom
    · rw [← hlength, List.drop_length]
      trivial
    · obtain ⟨hlt, rfl⟩ := List.getElem?_eq_some_iff.mp hu
      rw [List.drop_eq_getElem_cons hlt]
      exact hdelimiter
  · rintro ⟨first, hfirst, hopens⟩ n hn
    cases tokens with
    | nil => cases hfirst
    | cons first' tokens =>
      cases hfirst
      obtain ⟨failure, hfails, hcells⟩ := readDatum_take hscan hcompletes hopens hn
      refine ⟨failure.error, fun other w' => ?_⟩
      obtain ⟨other', -, -, ⟨result, hrun, -, rfl⟩ | ⟨hrun, hroom⟩⟩ :=
        read_of_readDatum_error hfails w'
      · exact ⟨other', .inl hrun⟩
      · refine ⟨other', .inr ⟨fun h => hroom fun limit hlimit => ?_, hrun⟩⟩
        have := h limit hlimit
        omega

/-- A list with a literal behind it that is not closed, and the parts of that list. -/
theorem read_is_local_list : ∃ (heap heap' : Heap Unit) (e : Handle),
    create 1 Number.infinity = .ok heap ∧
      read (text "(a 'b) c") heap = (.ok (.ok (e, 6)), heap') ∧
      read (text "(a 'b)\"\\z") heap = (.ok (.ok (e, 6)), heap') ∧
      ∀ n < 6, ∃ error other,
        read ((text "(a 'b) c").take n) heap = (.ok (.error error), other) := by
  let heap : Heap Unit :=
    ⟨1, Number.infinity, #[⟨0, some .nil, some ⟨1, 0, 0⟩⟩], [], 1, false⟩
  have hcreate : create 1 Number.infinity = .ok heap := create_unbounded 1
  have hw := create_wellFormed hcreate
  have hresult : (read (text "(a 'b) c") heap).1 = .ok (.ok (⟨1, 7, 0⟩, 6)) := by decide +kernel
  have hhead : ((scan (text "(a 'b) c")).map Lexeme.token).head? =
      some (.ok ⟨.openList, text "(", ⟨1, 1, 0⟩, ⟨1, 2, 1⟩⟩) := by decide +kernel
  cases hrun : read (text "(a 'b) c") heap with
  | mk result heap' =>
    rw [hrun] at hresult
    subst hresult
    obtain ⟨tokens, t, ⟨behind, hbegins⟩, hstop, -, -, hlocal, hparts⟩ := read_is_local hw hrun
    have hother := hlocal (text "(a 'b)\"\\z") (by decide)
      (.inr (.inr ⟨unit '"', by decide, by decide⟩))
    refine ⟨heap, heap', _, hcreate, hrun, hother, fun n hn => ?_⟩
    cases tokens with
    | nil => cases hstop
    | cons first tokens =>
      rw [← hbegins] at hhead
      cases hhead
      obtain ⟨error, hfails⟩ := hparts ⟨_, rfl, .inl rfl⟩ n hn
      obtain ⟨other, hfails | ⟨hroom, -⟩⟩ := hfails heap hw
      · exact ⟨error, other, hfails⟩
      · exact absurd (room_of_infinity rfl _) hroom

end Heap

end ConsoleLisp
