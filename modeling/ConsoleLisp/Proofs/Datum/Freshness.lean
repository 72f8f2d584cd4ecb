import ConsoleLisp.Proofs.Datum.Reading
import ConsoleLisp.Proofs.Heap.Growth

/-!
# What a read allocates

A datum is loaded as a tree that shares nothing, neither with the heap nor within itself, except
nil. `Occupies` lists the cells of such a tree as they are written, and `IsFreshTree` says that
these are all the new cells of a heap. A read that fails leaves the cells that were complete by
then, and nobody has a handle to them.

Results:
* **`Occupies.count_references`**: each cell of a tree is a part of its cells as often as it is
  listed, the root once less.
* `Occupies.mem_iff_reach`: the cells of a tree are those reached from it, nil aside.
* **`load_occupies`**: a datum is loaded as a tree that occupies all the new cells.
* `reading_is_fresh`: what a read allocates, whether it succeeds, fails or exhausts the heap.
-/

namespace ConsoleLisp

variable {κ β : Type}

/-- The handles in a cell. -/
def Cell.parts : Cell κ → List Handle
  | .pair head tail => [head, tail]
  | _ => []

namespace Heap

variable {heap heap' : Heap κ} {embed : β → κ} {e : Handle} {t : Tree β} {cells : List Handle}

/-! ## The cells of a tree -/

/-- The cells of a tree in the order in which it is written: one for each pair and each atom but
nil, which is the one nil of the heap. -/
inductive Occupies (embed : β → κ) (heap : Heap κ) : Handle → Tree β → List Handle → Prop
  | nil : heap.cell? heap.nilHandle = some .nil → Occupies embed heap heap.nilHandle .nil []
  | atom {e : Handle} {t : Tree β} {c : Cell κ} : heap.cell? e = some c →
      t.atom? embed = some c → t ≠ .nil → Occupies embed heap e t [e]
  | pair {e head tail : Handle} {s t : Tree β} {cells cells' : List Handle} :
      heap.cell? e = some (.pair head tail) → Occupies embed heap head s cells →
      Occupies embed heap tail t cells' → Occupies embed heap e (.pair s t) (e :: (cells ++ cells'))

/-- The handles in some cells, from all of them together. -/
def references (heap : Heap κ) (cells : List Handle) : List Handle :=
  cells.flatMap fun e => ((heap.cell? e).map Cell.parts).getD []

theorem references_cons {c : Cell κ} (hc : heap.cell? e = some c) (cells : List Handle) :
    heap.references (e :: cells) = c.parts ++ heap.references cells := by
  simp [references, hc]

theorem references_append (cells cells' : List Handle) :
    heap.references (cells ++ cells') = heap.references cells ++ heap.references cells' := by
  simp [references]

/-- A tree that is no pair is a cell without parts. -/
theorem parts_of_atom? {c : Cell κ} (h : t.atom? embed = some c) : c.parts = [] := by
  cases t <;> cases h <;> rfl

namespace Occupies

theorem denotes (h : Occupies embed heap e t cells) : Denotes embed heap.cell? e t := by
  induction h with
  | nil hc => exact .atom hc rfl
  | atom hc ha _ => exact .atom hc ha
  | pair hc _ _ ihs iht => exact .pair hc ihs iht

theorem isLive (h : Occupies embed heap e t cells) : heap.isLive e = true :=
  have ⟨_, hc⟩ := h.denotes.exists_look
  isLive_of_cell? hc

theorem length_eq (h : Occupies embed heap e t cells) : cells.length = t.cells := by
  induction h with
  | nil => rfl
  | @atom _ t _ _ ha hnil =>
    cases t with
    | nil => exact absurd rfl hnil
    | pair => cases ha
    | number | symbol | string | native => rfl
  | pair _ _ _ ihs iht => simp [Tree.cells, ihs, iht]

/-- Cells that are added leave a tree where it is. -/
theorem mono (h : Occupies embed heap e t cells) (hext : Extends heap heap') :
    Occupies embed heap' e t cells := by
  induction h with
  | nil hc =>
    have hnil : heap'.nilHandle = heap.nilHandle := by rw [nilHandle, nilHandle, hext.id_eq]
    rw [← hnil] at hc ⊢
    exact .nil (hext.cell?_mono _ _ hc)
  | atom hc ha hnil => exact .atom (hext.cell?_mono _ _ hc) ha hnil
  | pair hc _ _ ihs iht => exact .pair (hext.cell?_mono _ _ hc) ihs iht

/-- What is listed is no nil. -/
theorem cell?_ne_nil (h : Occupies embed heap e t cells) :
    ∀ f ∈ cells, heap.cell? f ≠ some .nil := by
  induction h with
  | nil => simp
  | @atom e t c hc ha hnil =>
    intro f hf
    rw [List.mem_singleton.mp hf, hc]
    rintro ⟨⟩
    cases t with
    | nil => exact hnil rfl
    | number | symbol | string | native | pair => cases ha
  | pair hc _ _ ihs iht =>
    intro f hf
    simp only [List.mem_cons, List.mem_append] at hf
    rcases hf with rfl | hf | hf
    · simp [hc]
    · exact ihs f hf
    · exact iht f hf

theorem mem_or_eq_nil (h : Occupies embed heap e t cells) : e ∈ cells ∨ e = heap.nilHandle := by
  cases h <;> simp

/-- **Each cell of a tree is a part of its cells as often as it is listed**, the root once less. -/
theorem count_references (h : Occupies embed heap e t cells) {f : Handle}
    (hf : f ≠ heap.nilHandle) :
    (heap.references cells).count f + (if e = f then 1 else 0) = cells.count f := by
  induction h with
  | nil => simp [references, Ne.symm hf]
  | atom hc ha _ =>
    rw [references_cons hc, parts_of_atom? ha]
    simp [references, List.count_singleton]
  | @pair e head tail s t cells cells' hc _ _ ihs iht =>
    rw [references_cons hc, references_append, Cell.parts]
    simp only [List.count_append, List.count_cons, List.count_nil, beq_iff_eq] at ihs iht ⊢
    omega

/-- The parts of a listed pair are listed, or nil. -/
theorem parts_mem (h : Occupies embed heap e t cells) {f part : Handle} {c : Cell κ}
    (hf : f ∈ cells) (hc : heap.cell? f = some c) (hpart : part ∈ c.parts) :
    part ∈ cells ∨ part = heap.nilHandle := by
  refine or_iff_not_imp_right.mpr fun hnil => ?_
  have hreferences : part ∈ heap.references cells :=
    List.mem_flatMap.mpr ⟨f, hf, by simpa [hc] using hpart⟩
  have hcount := h.count_references hnil
  have hpos := List.count_pos_iff.mpr hreferences
  exact List.count_pos_iff.mp (by omega)

theorem reach_of_mem (h : Occupies embed heap e t cells) {f : Handle} (hf : f ∈ cells) :
    Reach heap.cell? [e] f := by
  induction h with
  | nil => cases hf
  | atom => exact .root hf
  | @pair e head tail _ _ _ _ hc _ _ ihs iht =>
    have hroot : Reach heap.cell? [e] e := .root List.mem_cons_self
    simp only [List.mem_cons, List.mem_append] at hf
    rcases hf with rfl | hf | hf
    · exact hroot
    · exact (ihs hf).mono (fun g hg => List.mem_singleton.mp hg ▸ hroot.head hc) fun _ _ _ h => h
    · exact (iht hf).mono (fun g hg => List.mem_singleton.mp hg ▸ hroot.tail hc) fun _ _ _ h => h

/-- **The cells of a tree are those reached from it**, nil aside. -/
theorem mem_iff_reach (h : Occupies embed heap e t cells) (w : heap.WellFormed) (f : Handle) :
    f ∈ cells ↔ Reach heap.cell? [e] f ∧ f ≠ heap.nilHandle := by
  constructor
  · intro hf
    refine ⟨h.reach_of_mem hf, ?_⟩
    rintro rfl
    exact h.cell?_ne_nil _ hf w.cell?_nil
  · rintro ⟨hreach, hne⟩
    have hlisted : f ∈ cells ∨ f = heap.nilHandle := by
      refine hreach.of_closed (fun g hg => List.mem_singleton.mp hg ▸ h.mem_or_eq_nil) ?_
      intro g hg parts hparts
      obtain ⟨c, hc, hpair⟩ := Option.bind_eq_some_iff.mp hparts
      rcases hg with hg | rfl
      · cases c with
        | pair head tail =>
          cases hpair
          exact ⟨h.parts_mem hg hc (by simp [Cell.parts]), h.parts_mem hg hc (by simp [Cell.parts])⟩
        | nil | number | symbol | string | native => cases hpair
      · rw [w.cell?_nil] at hc
        cases hc
        cases hpair
    exact hlisted.resolve_right hne

end Occupies

/-! ## Loading -/

/-- A tree that takes up all the new cells. -/
def LoadedAs (embed : β → κ) (t : Tree β) (heap heap' : Heap κ) (e : Handle) : Prop :=
  ∃ cells, Occupies embed heap' e t cells ∧ GrowsBy cells heap heap'

theorem nil_loads (embed : β → κ) (w : heap.WellFormed) :
    Allocates 0 Heap.nil heap (LoadedAs embed .nil heap) :=
  ⟨heap, w, .refl heap, .inl ⟨heap.nilHandle, nil_spec w, rfl, [], .nil w.cell?_nil, .refl heap⟩⟩

theorem atom_loads (w : heap.WellFormed) {cell : Cell κ} (ha : t.atom? embed = some cell)
    (hnil : t ≠ .nil) : Allocates 1 (allocate cell) heap (LoadedAs embed t heap) := by
  have hp : heap.PartsLive cell := fun head tail h => absurd (h ▸ ha) Tree.atom?_ne_pair
  refine (allocate_growsBy w hp).imp fun e heap' _ hcell => ?_
  exact ⟨[e], .atom hcell.1 ha hnil, hcell.2⟩

theorem list_two (w : heap.WellFormed) (a b : Handle) :
    Heap.list [a, b] heap = (do
      let rest ← pair b heap.nilHandle
      pair a rest : HeapM κ Handle) heap := by
  rw [Heap.list, Act.run_bind_ok (nil_spec w)]
  simp [listOnto]

/-- A quotation takes a symbol and two pairs besides what is quoted. -/
theorem quotation_loads (w : heap.WellFormed) (h : Occupies embed heap e t cells) :
    Allocates 3 (do list [← allocate (.symbol (text "quote")), e]) heap fun heap' f =>
      ∃ word rest, GrowsBy [word, rest, f] heap heap' ∧
        Occupies embed heap' f (.ofList [.symbol (text "quote"), t])
          (f :: word :: rest :: cells) := by
  have hword : Allocates 1 (allocate (.symbol (text "quote"))) heap fun heap' word =>
      heap'.cell? word = some (.symbol (text "quote")) ∧ GrowsBy [word] heap heap' :=
    allocate_growsBy w (partsLive_atom rfl)
  refine hword.bind (m := 2) fun word heap₁ w₁ hext₁ hword => ?_
  have hnil := isLive_of_cell? w₁.cell?_nil
  have hquoted := h.mono hext₁
  unfold Allocates
  rw [list_two w₁]
  refine (pair_growsBy w₁ hquoted.isLive hnil).bind (m := 1) fun rest heap₂ w₂ hext₂ hrest => ?_
  have hlive := hext₂.isLive (isLive_of_cell? hword.1)
  refine (pair_growsBy w₂ hlive (isLive_of_cell? hrest.1)).imp fun f heap₃ hext₃ hpair => ?_
  have hext := hext₂.trans hext₃
  have hsymbol : Occupies embed heap₃ word (.symbol (text "quote")) [word] :=
    .atom (hext.cell?_mono _ _ hword.1) rfl (by simp)
  have hend : Occupies embed heap₃ heap₁.nilHandle .nil [] := (Occupies.nil w₁.cell?_nil).mono hext
  have htail := Occupies.pair (hext₃.cell?_mono _ _ hrest.1) (hquoted.mono hext) hend
  refine ⟨word, rest, (hword.2.trans hrest.2).trans hpair.2, ?_⟩
  simpa [Tree.ofList] using Occupies.pair hpair.1 hsymbol htail

/-- **A written expression is loaded as a tree that takes up all the new cells.** The cells are
taken in the order of loading and listed in that of writing. -/
theorem load_occupies (datum : Datum) (w : heap.WellFormed) :
    Allocates (datum.toTree : Tree β).cells (load datum) heap
      (LoadedAs embed datum.toTree heap) := by
  induction datum generalizing heap with
  | nil => exact nil_loads embed w
  | number | symbol | string => exact atom_loads w rfl (by simp [Datum.toTree])
  | quoted datum ih =>
    have hcells : ((Datum.quoted datum).toTree : Tree β).cells =
        (datum.toTree : Tree β).cells + 3 := by
      simp [Datum.toTree, Tree.ofList, Tree.cells]
      omega
    rw [hcells]
    refine (ih w).bind fun quoted heap₁ w₁ hext₁ hquoted => ?_
    obtain ⟨cells, hoccupies, hgrows⟩ := hquoted
    refine (quotation_loads w₁ hoccupies).imp fun e heap₂ hext₂ hquotation => ?_
    obtain ⟨word, rest, hgrows', hoccupies'⟩ := hquotation
    refine ⟨_, hoccupies', (hgrows.trans hgrows').perm ?_⟩
    rw [List.perm_iff_count]
    intro f
    simp only [List.count_append, List.count_cons, List.count_nil]
    omega
  | cons head tail ihh iht =>
    rw [Datum.toTree, Tree.cells, Nat.add_assoc]
    refine (ihh w).bind fun h heap₁ w₁ hext₁ hh => ?_
    refine (iht w₁).bind fun t heap₂ w₂ hext₂ ht => ?_
    obtain ⟨cells, hoccupies, hgrows⟩ := hh
    obtain ⟨cells', hoccupies', hgrows'⟩ := ht
    have hhead := hoccupies.mono hext₂
    refine (pair_growsBy w₂ hhead.isLive hoccupies'.isLive).imp fun e heap₃ hext₃ hpair => ?_
    refine ⟨e :: (cells ++ cells'), .pair hpair.1 (hhead.mono hext₃) (hoccupies'.mono hext₃), ?_⟩
    exact ((hgrows.trans hgrows').trans hpair.2).perm (List.perm_append_singleton e _)

/-! ## Reading -/

/-- All the new cells are one tree, and none of them is shared. -/
structure IsFreshTree (heap heap' : Heap κ) (e : Handle) (t : Tree Empty)
    (cells : List Handle) : Prop where
  denotes : Denotes Empty.elim heap'.cell? e t
  /-- Each new cell is listed once. -/
  nodup : cells.Nodup
  mem_iff : ∀ f, f ∈ cells ↔ IsNew heap heap' f
  /-- The new cells are those that are reached from the tree, nil aside. -/
  mem_iff_reach : ∀ f, f ∈ cells ↔ Reach heap'.cell? [e] f ∧ f ≠ heap'.nilHandle
  /-- There is one for each pair and each atom but nil. -/
  length_eq : cells.length = t.cells
  /-- Each is a part of one of them, once, and the root of none. -/
  count_references : ∀ f ∈ cells,
    (heap'.references cells).count f = if f = e then 0 else 1

theorem LoadedAs.isFreshTree {t : Tree Empty} (w' : heap'.WellFormed)
    (h : LoadedAs Empty.elim t heap heap' e) : ∃ cells, IsFreshTree heap heap' e t cells := by
  obtain ⟨cells, hoccupies, hgrows⟩ := h
  refine ⟨cells, hoccupies.denotes, hgrows.nodup, hgrows.mem_iff, hoccupies.mem_iff_reach w',
    hoccupies.length_eq, fun f hf => ?_⟩
  have hcount := hoccupies.count_references ((hoccupies.mem_iff_reach w' f).mp hf).2
  rw [List.count_eq_one_of_mem hgrows.nodup hf] at hcount
  by_cases hroot : f = e
  · rw [if_pos hroot.symm] at hcount
    rw [if_pos hroot]
    omega
  · rw [if_neg (Ne.symm hroot)] at hcount
    rw [if_neg hroot]
    omega

/-- **A read allocates a fresh tree and touches nothing else.** Whatever becomes of it, all cells of
before are as they were and do not point to new ones. When it succeeds, the new cells are the datum,
each of them used once. When the text cannot be read, or the heap is full before its end, which is
the only fault there is, a collection from any values of before frees every new cell. -/
theorem reading_is_fresh (heap : Heap κ) (w : heap.WellFormed) (source : Text) :
    ∃ result heap', read source heap = (result, heap') ∧ Untouched heap heap' ∧
      (∀ e stop, result = .ok (.ok (e, stop)) → ∃ d cells, readDatum source = .ok (d, stop) ∧
        IsFreshTree heap heap' e d.toTree cells) ∧
      (∀ error, result = .ok (.error error) → IsGarbage heap heap') ∧
      (∀ fault, result = .error fault → fault = heap.exhaustion ∧ IsGarbage heap heap') := by
  obtain ⟨heap', w', hadds, hrun⟩ := read_adding source w
  have hext := hadds.toExtends
  have hgarbage := hext.isGarbage w w'
  rcases hrun with ⟨result, hrun, -⟩ | hrun
  · refine ⟨_, heap', hrun, hext.untouched w w', fun e stop heq => ?_, fun _ _ => hgarbage, nofun⟩
    cases heq
    obtain ⟨d, hread, hload⟩ := read_eq_ok_iff.mp hrun
    obtain ⟨cells, hfresh⟩ := ((load_occupies d w).of_ok hload).2.2.2.isFreshTree w'
    exact ⟨d, cells, hread, hfresh⟩
  · refine ⟨_, heap', hrun, hext.untouched w w', nofun, nofun, fun fault heq => ?_⟩
    cases heq
    exact ⟨rfl, hgarbage⟩

/-- A quotation within a list that is read, and the same list without its end, in a new heap. -/
theorem reading_is_fresh_quotation : ∃ heap read₁ read₂ : Heap Unit,
    create 1 Number.infinity = .ok heap ∧
      (∃ cells d, read (text "(a 'b)") heap = (.ok (.ok (⟨1, 7, 0⟩, 6)), read₁) ∧
        IsFreshTree heap read₁ ⟨1, 7, 0⟩ (Datum.toTree d) cells) ∧
      (∃ error, read (text "(a 'b") heap = (.ok (.error error), read₂) ∧ IsGarbage heap read₂) := by
  have hcreate := @create_unbounded Unit 1
  have w := create_wellFormed hcreate
  obtain ⟨result, read₁, hrun, -, hread, -⟩ := reading_is_fresh _ w (text "(a 'b)")
  obtain ⟨result', read₂, hrun', -, -, hfailed, -⟩ := reading_is_fresh _ w (text "(a 'b")
  have hresult : result = .ok (.ok (⟨1, 7, 0⟩, 6)) :=
    (congrArg Prod.fst hrun).symm.trans (by decide +kernel)
  have hresult' : ∃ error, result' = .ok (.error error) :=
    ⟨.unclosedList ⟨1, 1, 0⟩ ⟨1, 6, 5⟩, (congrArg Prod.fst hrun').symm.trans (by decide +kernel)⟩
  obtain ⟨error, hresult'⟩ := hresult'
  obtain ⟨d, cells, -, hfresh⟩ := hread _ _ hresult
  exact ⟨_, read₁, read₂, hcreate, ⟨cells, d, hresult ▸ hrun, hfresh⟩,
    error, hresult' ▸ hrun', hfailed error hresult'⟩

end Heap

end ConsoleLisp
