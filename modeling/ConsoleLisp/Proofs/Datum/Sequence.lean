import ConsoleLisp.Proofs.Datum.Reading

/-!
# Reading every datum of a text

A text with many data can be read at once, by one reader that goes on behind each datum, or datum by
datum: read the first one, cut the text off behind it and read again, as long as something other
than trivia is left.

* `Pieces t data rest`: the second way, without a heap.
* `ReadChain t heap exprs rest heap'`: the second way, in one heap; so far `exprs` have been read,
  `rest` is left of the text and the heap is `heap'`.

Results:
* `data_of_gives`, `data_of_not_gives`: what a reader does between two data.
* `data_eq_iff`, `readData_eq_iff`: one reader gives the data of the pieces.
* `readChain_iff`: a chain of reads loads the data of the pieces in order.
* `mapM_load_allocates`: loading data one after another.
* **`readAll_is_repeated_read`**: reading all of a text is reading it datum by datum.
-/

namespace ConsoleLisp

/-! ## One reader and many -/

/-- The data of a text, read one after another: what a read has taken is cut off before the next. -/
inductive Pieces : Text → List Datum → Text → Prop
  | nil (t : Text) : Pieces t [] t
  | cons {t rest : Text} {d : Datum} {stop : Nat} {data : List Datum} : ¬ IsTrivia [] t →
      readDatum t = .ok (d, stop) → Pieces (t.drop stop) data rest → Pieces t (d :: data) rest

namespace Reader

theorem isAtEnd_iff {c : Cursor} {r : Reader} (hlexemes : r.lexemes = c.lexemes) :
    r.isAtEnd = true ↔ IsTrivia [] c.rest := by
  obtain ⟨rest, hcons⟩ := exists_lexemes_eq c
  rw [isAtEnd, hlexemes, hcons]
  exact isEnd_iff c

/-- A stretch of tokens takes as many lexemes. -/
theorem length_lexemes_lt {c c' : Cursor} {d : Datum} (h : c.Gives d c') :
    c'.lexemes.length < c.lexemes.length := by
  obtain ⟨tokens, hscan, hcompletes⟩ := h
  have hlength := congrArg List.length hscan.lexemes_eq
  have hpos := List.length_pos_iff.mpr hcompletes.ne_nil
  simp only [List.length_map, List.length_append] at hlength
  omega

section Steps

variable {fuel : Nat} {c c' : Cursor} {r : Reader} {d : Datum} {data : List Datum}

/-- Short of the end a reader gives the next datum and those behind it. -/
theorem data_of_gives (hlexemes : r.lexemes = c.lexemes) (hdepth : r.depth = 0)
    (hend : ¬ IsTrivia [] c.rest) (h : c.Gives d c') : r.data (fuel + 1) =
      (d :: ((behind 0 c').data fuel).1, ((behind 0 c').data fuel).2) := by
  obtain ⟨tokens, hscan, hcompletes⟩ := h
  have hdatum : r.datum = (.ok d, behind 0 c') := by
    rw [datum, hdepth, hlexemes, resume_of_completes hscan hcompletes]
  rw [Reader.data, if_neg (fun h => hend ((isAtEnd_iff hlexemes).mp h)), hdatum]

/-- A reader that has no next datum short of the end fails. -/
theorem data_of_not_gives (hlexemes : r.lexemes = c.lexemes) (hdepth : r.depth = 0)
    (hend : ¬ IsTrivia [] c.rest) (h : ∀ d c', ¬ c.Gives d c') :
    (r.data (fuel + 1)).2 ≠ none := by
  rw [Reader.data, if_neg (fun h => hend ((isAtEnd_iff hlexemes).mp h)), datum, hdepth, hlexemes]
  cases hrun : resume 0 [] r.lastEnd r.place c.lexemes with
  | mk result r' =>
  cases result with
  | error failure => exact nofun
  | ok d =>
    obtain ⟨tokens, c', hscan, hcompletes, -⟩ := resume_eq_ok_iff.mp hrun
    exact absurd ⟨tokens, hscan, hcompletes⟩ (h d c')

/-- The pieces of a text that is not at its end. -/
theorem pieces_iff_of_gives (hend : ¬ IsTrivia [] c.rest) (h : c.Gives d c') :
    (∃ rest, Pieces c.rest data rest ∧ IsTrivia [] rest) ↔
      ∃ more, data = d :: more ∧ ∃ rest, Pieces c'.rest more rest ∧ IsTrivia [] rest := by
  obtain ⟨stop, hread, hrest⟩ := gives_iff_readDatum.mp ⟨c', h, rfl⟩
  rw [hrest]
  constructor
  · rintro ⟨rest, hpieces, htrivia⟩
    cases hpieces with
    | nil => exact absurd htrivia hend
    | cons _ hread' hpieces =>
      cases hread.symm.trans hread'
      exact ⟨_, rfl, rest, hpieces, htrivia⟩
  · rintro ⟨more, rfl, rest, hpieces, htrivia⟩
    exact ⟨rest, .cons hend hread hpieces, htrivia⟩

/-- **One reader gives the data of the pieces**, with fuel for the lexemes that are left. -/
theorem data_eq_iff (hlexemes : r.lexemes = c.lexemes) (hdepth : r.depth = 0)
    (hfuel : c.lexemes.length ≤ fuel) :
    r.data fuel = (data, none) ↔ ∃ rest, Pieces c.rest data rest ∧ IsTrivia [] rest := by
  induction fuel generalizing c r data with
  | zero =>
    obtain ⟨rest, hcons⟩ := exists_lexemes_eq c
    rw [hcons] at hfuel
    exact absurd hfuel (Nat.not_succ_le_zero _)
  | succ fuel ih =>
  by_cases hend : IsTrivia [] c.rest
  · rw [Reader.data, if_pos ((isAtEnd_iff hlexemes).mpr hend)]
    constructor
    · rintro ⟨⟩
      exact ⟨c.rest, .nil _, hend⟩
    · rintro ⟨rest, hpieces, -⟩
      cases hpieces with
      | nil => rfl
      | cons hnot _ _ => exact absurd hend hnot
  by_cases hgives : ∃ d c', c.Gives d c'
  · obtain ⟨d, c', hgives⟩ := hgives
    have hless := length_lexemes_lt hgives
    have hrest {more : List Datum} : (behind 0 c').data fuel = (more, none) ↔
        ∃ rest, Pieces c'.rest more rest ∧ IsTrivia [] rest := ih rfl rfl (by omega)
    rw [data_of_gives hlexemes hdepth hend hgives, pieces_iff_of_gives hend hgives]
    simp only [← hrest, Prod.ext_iff]
    constructor
    · rintro ⟨rfl, hnone⟩
      exact ⟨_, rfl, rfl, hnone⟩
    · rintro ⟨more, rfl, rfl, hnone⟩
      exact ⟨rfl, hnone⟩
  · have hnot : ∀ d c', ¬ c.Gives d c' := fun d c' h => hgives ⟨d, c', h⟩
    constructor
    · intro h
      exact absurd (congrArg Prod.snd h) (data_of_not_gives hlexemes hdepth hend hnot)
    · rintro ⟨rest, hpieces, htrivia⟩
      cases hpieces with
      | nil => exact absurd htrivia hend
      | cons _ hread _ =>
        obtain ⟨c', h, -⟩ := gives_iff_readDatum.mpr ⟨_, hread, rfl⟩
        exact absurd h (hnot _ c')

end Steps

end Reader

/-- All data of a text are those of its pieces, up to where nothing but trivia is left. -/
theorem readData_eq_iff {t : Text} {data : List Datum} :
    readData t = (data, none) ↔ ∃ rest, Pieces t data rest ∧ IsTrivia [] rest :=
  Reader.data_eq_iff (c := Cursor.ofText t) rfl rfl (Nat.le_refl _)

/-- A datum takes some of its text. -/
theorem length_drop_lt {t : Text} {d : Datum} {stop : Nat} (h : readDatum t = .ok (d, stop)) :
    (t.drop stop).length < t.length := by
  obtain ⟨c, hgives, rfl⟩ := readDatum_eq_ok_iff.mp h
  obtain ⟨units, hne, hunits, hplace⟩ := hgives.cuts
  have hpos := List.length_pos_iff.mpr hne
  have ht : t = units ++ c.rest := hunits
  rw [hplace, Cursor.ofText, Location.offset_start_after, ht, List.drop_left, List.length_append]
  omega

namespace Heap

variable {κ : Type} {heap heap' heap'' : Heap κ} {t rest : Text} {e : Handle} {stop : Nat}
  {exprs : List Handle} {data : List Datum}

/-! ## In a heap -/

theorem readAll_eq_ok_iff : readAll t heap = (.ok (.ok exprs), heap') ↔
    ∃ data, readData t = (data, none) ∧ data.mapM load heap = (.ok exprs, heap') := by
  rw [readAll]
  cases hread : readData t with
  | mk data failure =>
  constructor
  · intro h
    obtain ⟨es, heap₁, hload, h⟩ := Act.exists_of_run_bind h
    cases failure with
    | none =>
      cases h
      exact ⟨data, rfl, hload⟩
    | some failure =>
      obtain ⟨_, _, _, h⟩ := Act.exists_of_run_bind h
      cases h
  · rintro ⟨_, ⟨⟩, hload⟩
    exact Act.run_bind_ok hload

theorem mapM_load_cons_iff {d : Datum} : (d :: data).mapM load heap = (.ok exprs, heap'') ↔
    ∃ e heap' more, load d heap = (.ok e, heap') ∧
      data.mapM load heap' = (.ok more, heap'') ∧ exprs = e :: more := by
  rw [List.mapM_cons]
  constructor
  · intro h
    obtain ⟨e, heap₁, hload, h⟩ := Act.exists_of_run_bind h
    obtain ⟨more, heap₂, hmore, h⟩ := Act.exists_of_run_bind h
    cases h
    exact ⟨e, heap₁, more, hload, hmore, rfl⟩
  · rintro ⟨e, heap₁, more, hload, hmore, rfl⟩
    rw [Act.run_bind_ok hload, Act.run_bind_ok hmore]
    rfl

/-- Reads one after another in one heap, as long as more than trivia is left of the text; each is
given the text without what the one before has taken. -/
inductive ReadChain : Text → Heap κ → List Handle → Text → Heap κ → Prop
  | nil (t : Text) (heap : Heap κ) : ReadChain t heap [] t heap
  | cons {t rest : Text} {heap heap' heap'' : Heap κ} {e : Handle} {stop : Nat}
      {exprs : List Handle} : ¬ IsTrivia [] t → read t heap = (.ok (.ok (e, stop)), heap') →
      ReadChain (t.drop stop) heap' exprs rest heap'' → ReadChain t heap (e :: exprs) rest heap''

/-- **A chain of reads loads the data of the pieces in order.** -/
theorem readChain_iff : ReadChain t heap exprs rest heap' ↔
    ∃ data, Pieces t data rest ∧ data.mapM load heap = (.ok exprs, heap') := by
  constructor
  · intro h
    induction h with
    | nil t heap => exact ⟨[], .nil t, rfl⟩
    | cons hnot hread _ ih =>
      obtain ⟨d, hdatum, hload⟩ := read_eq_ok_iff.mp hread
      obtain ⟨data, hpieces, hmore⟩ := ih
      exact ⟨d :: data, .cons hnot hdatum hpieces,
        mapM_load_cons_iff.mpr ⟨_, _, _, hload, hmore, rfl⟩⟩
  · rintro ⟨data, hpieces, hload⟩
    induction hpieces generalizing heap exprs with
    | nil t =>
      cases hload
      exact .nil t _
    | cons hnot hdatum _ ih =>
      obtain ⟨e, heap₁, more, hfirst, hmore, rfl⟩ := mapM_load_cons_iff.mp hload
      exact .cons hnot (read_eq_ok_iff.mpr ⟨_, hdatum, hfirst⟩) (ih hmore)

/-- A chain up to the end of a text goes through what every other chain has left. -/
theorem ReadChain.continues {all : List Handle} {last : Text}
    (h : ReadChain t heap exprs rest heap')
    (hall : ReadChain t heap all last heap'') (hlast : IsTrivia [] last) :
    ∃ more, ReadChain rest heap' more last heap'' := by
  induction h generalizing all with
  | nil => exact ⟨all, hall⟩
  | cons hnot hread _ ih =>
    cases hall with
    | nil => exact absurd hlast hnot
    | cons _ hread' hall =>
      cases hread.symm.trans hread'
      exact ih hall

/-- Each read of a chain takes some of the text. -/
theorem ReadChain.length_le (h : ReadChain t heap exprs rest heap') :
    exprs.length + rest.length ≤ t.length := by
  induction h with
  | nil => simp
  | cons _ hread _ ih =>
    obtain ⟨d, hdatum, -⟩ := read_eq_ok_iff.mp hread
    have hless := length_drop_lt hdatum
    rw [List.length_cons]
    omega

/-- A chain of which every read succeeds reaches the end of its text. -/
theorem exists_readChain (hreads : ∀ exprs rest heap', ReadChain t heap exprs rest heap' →
      ¬ IsTrivia [] rest → ∃ e stop heap'', read rest heap' = (.ok (.ok (e, stop)), heap'')) :
    ∃ exprs rest heap', ReadChain t heap exprs rest heap' ∧ IsTrivia [] rest := by
  generalize hn : t.length = n
  induction n using Nat.strongRecOn generalizing t heap with
  | ind n ih =>
  by_cases hend : IsTrivia [] t
  · exact ⟨[], t, heap, .nil t heap, hend⟩
  · obtain ⟨e, stop, heap₁, hread⟩ := hreads _ _ _ (.nil t heap) hend
    have hless := (ReadChain.cons hend hread (.nil _ _)).length_le
    rw [List.length_singleton] at hless
    obtain ⟨exprs, rest, heap', hchain, htrivia⟩ := ih _ (by omega)
      (fun exprs rest heap' hchain => hreads (e :: exprs) rest heap' (.cons hend hread hchain)) rfl
    exact ⟨e :: exprs, rest, heap', .cons hend hread hchain, htrivia⟩

/-- **Data are loaded one after another as their trees**, out of new cells and nil. -/
theorem mapM_load_allocates {β : Type} {embed : β → κ} (data : List Datum) (w : heap.WellFormed) :
    Allocates (Tree.cellsAll (data.map (Datum.toTree (β := β)))) (data.mapM load) heap
      fun heap' exprs => DenoteAll embed (heap.fresh heap') exprs (data.map Datum.toTree) := by
  induction data generalizing heap with
  | nil => exact .pure w .nil
  | cons d data ih =>
    rw [List.mapM_cons, List.map_cons, Tree.cellsAll]
    have hload : Allocates (d.toTree : Tree β).cells (load d) heap fun heap₁ e =>
        Denotes embed (heap.fresh heap₁) e d.toTree := load_allocates d w
    refine hload.bind fun e heap₁ w₁ hext he => ?_
    rw [← Nat.add_zero (Tree.cellsAll _)]
    refine (ih w₁).bind fun exprs heap₂ w₂ hext₂ hexprs => .pure w₂ ?_
    exact .cons (fresh_grow he hext₂) (hexprs.imp fun _ _ h => fresh_weaken h hext)

/-- **Reading all of a text is reading it datum by datum.** It succeeds with some expressions and
some heap if and only if the chain of reads that starts with the whole text does, and this is so if
and only if every read of that chain succeeds. A chain has no more reads than its text has units.
What is read has one structure, whichever heap the chain starts in; a heap with room for it is
enough. -/
theorem readAll_is_repeated_read (heap : Heap κ) (w : heap.WellFormed) (source : Text) :
    (∀ exprs heap', readAll source heap = (.ok (.ok exprs), heap') ↔
      ∃ rest, ReadChain source heap exprs rest heap' ∧ IsTrivia [] rest) ∧
    ((∃ exprs heap', readAll source heap = (.ok (.ok exprs), heap')) ↔
      ∀ exprs rest heap', ReadChain source heap exprs rest heap' → ¬ IsTrivia [] rest →
        ∃ e stop heap'', read rest heap' = (.ok (.ok (e, stop)), heap'')) ∧
    (∀ exprs rest heap', ReadChain source heap exprs rest heap' →
      exprs.length + rest.length ≤ source.length) ∧
    ∀ exprs heap', readAll source heap = (.ok (.ok exprs), heap') →
      ∃ trees : List (Tree Empty), DenoteAll Empty.elim heap'.cell? exprs trees ∧
        ∀ other : Heap κ, other.WellFormed →
          (∀ exprs' rest other', ReadChain source other exprs' rest other' → IsTrivia [] rest →
            DenoteAll Empty.elim other'.cell? exprs' trees) ∧
          (other.Room (Tree.cellsAll trees) → ∃ exprs' rest other',
            ReadChain source other exprs' rest other' ∧ IsTrivia [] rest) := by
  have hchain {heap : Heap κ} {exprs : List Handle} {heap' : Heap κ} :
      readAll source heap = (.ok (.ok exprs), heap') ↔
        ∃ rest, ReadChain source heap exprs rest heap' ∧ IsTrivia [] rest := by
    simp only [readAll_eq_ok_iff, readData_eq_iff, readChain_iff]
    constructor
    · rintro ⟨data, ⟨rest, hpieces, htrivia⟩, hload⟩
      exact ⟨rest, ⟨data, hpieces, hload⟩, htrivia⟩
    · rintro ⟨rest, ⟨data, hpieces, hload⟩, htrivia⟩
      exact ⟨data, ⟨rest, hpieces, htrivia⟩, hload⟩
  refine ⟨fun _ _ => hchain, ⟨?_, fun hreads => ?_⟩, fun _ _ _ h => h.length_le, ?_⟩
  · rintro ⟨all, heap'', hall⟩ exprs rest heap' hpart hnot
    obtain ⟨last, hall, hlast⟩ := hchain.mp hall
    obtain ⟨more, hmore⟩ := hpart.continues hall hlast
    cases hmore with
    | nil => exact absurd hlast hnot
    | cons _ hread _ => exact ⟨_, _, _, hread⟩
  · obtain ⟨exprs, rest, heap', h, htrivia⟩ := exists_readChain hreads
    exact ⟨exprs, heap', hchain.mpr ⟨rest, h, htrivia⟩⟩
  · intro exprs heap' hall
    obtain ⟨data, hdata, hload⟩ := readAll_eq_ok_iff.mp hall
    have hdenote {heap heap' : Heap κ} {exprs : List Handle} (w : heap.WellFormed)
        (hload : data.mapM load heap = (.ok exprs, heap')) :
        DenoteAll Empty.elim heap'.cell? exprs (data.map (Datum.toTree (β := Empty))) :=
      ((mapM_load_allocates data w).of_ok hload).2.2.2.imp fun _ _ h => h.mono cell?_of_fresh
    refine ⟨data.map Datum.toTree, hdenote w hload, fun other wother => ⟨?_, fun hroom => ?_⟩⟩
    · intro exprs' rest other' h htrivia
      obtain ⟨data', hdata', hload'⟩ := readAll_eq_ok_iff.mp (hchain.mpr ⟨rest, h, htrivia⟩)
      cases hdata.symm.trans hdata'
      exact hdenote wother hload'
    · have hallocates : Allocates _ (data.mapM load) other fun other' exprs' =>
          DenoteAll Empty.elim (other.fresh other') exprs' (data.map Datum.toTree) :=
        mapM_load_allocates data wother
      obtain ⟨exprs', other', hload', -, -, -⟩ := hallocates.returns hroom
      obtain ⟨rest, h⟩ := hchain.mp (readAll_eq_ok_iff.mpr ⟨data, hdata, hload'⟩)
      exact ⟨exprs', rest, other', h⟩

/-- Three data of a text, the last one on a line of its own. -/
theorem readAll_is_repeated_read_three : ∃ (heap : Heap Unit) (exprs : List Handle)
    (heap' : Heap Unit) (rest : Text), create 1 Number.infinity = .ok heap ∧ exprs.length = 3 ∧
      readAll (text "a'b;c\n(\"d\") ") heap = (.ok (.ok exprs), heap') ∧
      ReadChain (text "a'b;c\n(\"d\") ") heap exprs rest heap' ∧ IsTrivia [] rest := by
  let heap : Heap Unit :=
    ⟨1, Number.infinity, #[⟨0, some .nil, some ⟨1, 0, 0⟩⟩], [], 1, false⟩
  have hcreate : create 1 Number.infinity = .ok heap := create_unbounded 1
  have hresult : (readAll (text "a'b;c\n(\"d\") ") heap).1 =
      .ok (.ok [⟨1, 1, 0⟩, ⟨1, 5, 0⟩, ⟨1, 7, 0⟩]) := by decide +kernel
  cases hrun : readAll (text "a'b;c\n(\"d\") ") heap with
  | mk result heap' =>
    rw [hrun] at hresult
    subst hresult
    obtain ⟨rest, hchain⟩ :=
      ((readAll_is_repeated_read _ (create_wellFormed hcreate) _).1 _ heap').mp hrun
    exact ⟨_, _, heap', rest, hcreate, rfl, hrun, hchain⟩

end Heap

end ConsoleLisp
