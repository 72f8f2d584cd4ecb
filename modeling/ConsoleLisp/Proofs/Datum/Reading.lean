import ConsoleLisp.Proofs.Datum.Grammar
import ConsoleLisp.Proofs.Value.Load

/-!
# Reading a datum into a heap

`Heap.read` reads the first datum of a text and loads it. What it accepts is the grammar of data,
and what it returns is the tree that the grammar gives, out of new cells.

Results:
* `read_allocates`, `readDatum_of_read`: a read succeeds by a datum and its loading.
* `readDatum_of_read_error`, `read_of_readDatum_error`: a read is refused by the error of the first
  datum, when the heap has room for what was complete by then.
* `derives_of_read`, `read_of_derives`: what is read is derived, and what is derived is read.
* **`read_iff_derives`**: the reader accepts exactly the grammar.
-/

namespace ConsoleLisp

/-- The cells that some trees take. -/
def Tree.cellsAll {β : Type} : List (Tree β) → Nat
  | [] => 0
  | t :: trees => t.cells + cellsAll trees

namespace Heap

variable {κ : Type} {heap heap' : Heap κ} {source : Text} {e : Handle} {stop : Nat} {d : Datum}

/-- What a read has returned is the tree `t`, with the text used up to the offset `stop`. -/
def ReadsAs (t : Tree Empty) (stop : Nat) (heap' : Heap κ)
    (result : Except ReadError (Handle × Nat)) : Prop :=
  ∃ e, result = .ok (e, stop) ∧ Denotes Empty.elim heap'.cell? e t

/-- A datum that can be read is loaded; only a full heap refuses it. -/
theorem read_allocates (h : readDatum source = .ok (d, stop)) (w : heap.WellFormed) :
    Allocates (d.toTree : Tree Empty).cells (read source) heap (ReadsAs d.toTree stop) := by
  rw [read, h, ← Nat.add_zero (Tree.cells _)]
  have hload : Allocates _ (load d) heap fun heap₁ e =>
      Denotes Empty.elim (heap.fresh heap₁) e d.toTree := load_allocates d w
  refine hload.bind fun e heap₁ w₁ _ he => ?_
  exact .pure w₁ ⟨e, rfl, he.mono cell?_of_fresh⟩

/-- What is read successfully is a datum, loaded. -/
theorem readDatum_of_read (h : read source heap = (.ok (.ok (e, stop)), heap')) :
    ∃ d, readDatum source = .ok (d, stop) := by
  rw [read] at h
  cases hread : readDatum source with
  | ok result =>
    rw [hread] at h
    obtain ⟨_, _, _, h⟩ := Act.exists_of_run_bind h
    cases h
    exact ⟨_, rfl⟩
  | error failure =>
    rw [hread] at h
    obtain ⟨_, _, _, h⟩ := Act.exists_of_run_bind h
    cases h

theorem read_eq_ok_iff : read source heap = (.ok (.ok (e, stop)), heap') ↔
    ∃ d, readDatum source = .ok (d, stop) ∧ load d heap = (.ok e, heap') := by
  constructor
  · intro h
    obtain ⟨d, hread⟩ := readDatum_of_read h
    rw [read, hread] at h
    obtain ⟨e', heap₁, hload, h⟩ := Act.exists_of_run_bind h
    cases h
    exact ⟨d, hread, hload⟩
  · rintro ⟨d, hread, hload⟩
    rw [read, hread]
    exact Act.run_bind_ok hload

/-- The cells that some data take. -/
def cellsOf (data : List Datum) : Nat := Tree.cellsAll (data.map (Datum.toTree (β := Empty)))

theorem loadAll_allocates (data : List Datum) (w : heap.WellFormed) :
    Allocates (cellsOf data) (data.forM fun d => discard (load d) : HeapM κ Unit) heap
      fun _ _ => True := by
  induction data generalizing heap with
  | nil => exact .pure w trivial
  | cons d data ih =>
    have hload : Allocates _ (load d) heap fun heap₁ e =>
        Denotes Empty.elim (heap.fresh heap₁) e d.toTree := load_allocates d w
    have hfirst : Allocates ((d.toTree : Tree Empty).cells + 0)
        (discard (load d) : HeapM κ Unit) heap fun _ _ => True :=
      hload.bind fun _ _ w₁ _ _ => .pure w₁ trivial
    exact hfirst.bind fun _ _ w₁ _ _ => ih w₁

/-- What is refused by a read is refused as a datum. -/
theorem readDatum_of_read_error {error : ReadError}
    (h : read source heap = (.ok (.error error), heap')) :
    ∃ failure, readDatum source = .error failure ∧ failure.error = error := by
  rw [read] at h
  cases hread : readDatum source with
  | ok result =>
    rw [hread] at h
    obtain ⟨_, _, _, h⟩ := Act.exists_of_run_bind h
    cases h
  | error failure =>
    rw [hread] at h
    obtain ⟨_, _, _, h⟩ := Act.exists_of_run_bind h
    cases h
    exact ⟨failure, rfl, rfl⟩

/-- What is no datum is refused by a read with the error, after what was complete by then has been
loaded; only a full heap has another error before. -/
theorem read_of_readDatum_error {failure : ReadFailure} (h : readDatum source = .error failure)
    (w : heap.WellFormed) : Allocates (cellsOf failure.completed) (read source) heap
      fun _ result => result = .error failure.error := by
  rw [read, h, ← Nat.add_zero (cellsOf _)]
  exact (loadAll_allocates failure.completed w).bind fun _ _ w₁ _ _ => .pure w₁ rfl

/-- A read that succeeds has used up tokens that derive what it returns. -/
theorem derives_of_read (w : heap.WellFormed)
    (h : read source heap = (.ok (.ok (e, stop)), heap')) :
    ∃ tokens t, tokens ≠ [] ∧ BeginsWith source tokens ∧ Derives maxReadDepth tokens t ∧
      tokens.getLast?.map (·.stop.offset) = some stop ∧ Denotes Empty.elim heap'.cell? e t ∧
      heap'.live = heap.live + t.cells := by
  obtain ⟨d, hread⟩ := readDatum_of_read h
  obtain ⟨tokens, hbegins, hne, hderives, rfl⟩ := derives_of_readDatum (β := Empty) hread
  obtain ⟨-, -, hlive, e', heq, he⟩ := (read_allocates hread w).of_ok h
  cases heq
  exact ⟨tokens, d.toTree, hne, hbegins, hderives, getLast?_lastEndOf 0 hne, he, hlive⟩

/-- A text that begins with tokens that derive a value is read as that value. -/
theorem read_of_derives (w : heap.WellFormed) {tokens : List Token} {t : Tree Empty}
    (hbegins : BeginsWith source tokens) (ht : Derives maxReadDepth tokens t)
    (hroom : heap.Room t.cells) :
    ∃ e heap', read source heap = (.ok (.ok (e, lastEndOf 0 tokens)), heap') ∧
      Denotes Empty.elim heap'.cell? e t := by
  obtain ⟨d, rfl, hread⟩ := readDatum_of_derives hbegins ht
  obtain ⟨result, heap', hrun, -, -, e, rfl, he⟩ := (read_allocates hread w).returns hroom
  exact ⟨e, heap', hrun, he⟩

/-- **The reader accepts exactly the grammar.** A read that succeeds has used up tokens with which
the text begins, they derive the value it returns, and it ends behind the last of them. When the
text begins with tokens that derive a value, the read succeeds with that value, provided the heap
has room for it. -/
theorem read_iff_derives (heap : Heap κ) (w : heap.WellFormed) (source : Text) :
    (∀ e stop heap', read source heap = (.ok (.ok (e, stop)), heap') →
      ∃ tokens t, tokens ≠ [] ∧ BeginsWith source tokens ∧ Derives maxReadDepth tokens t ∧
        tokens.getLast?.map (·.stop.offset) = some stop ∧ Denotes Empty.elim heap'.cell? e t) ∧
    (∀ tokens t, BeginsWith source tokens → Derives maxReadDepth tokens t → heap.Room t.cells →
      ∃ e stop heap', read source heap = (.ok (.ok (e, stop)), heap') ∧
        tokens.getLast?.map (·.stop.offset) = some stop ∧ Denotes Empty.elim heap'.cell? e t) := by
  constructor
  · intro e stop heap' h
    obtain ⟨tokens, t, hne, hbegins, ht, hstop, he, -⟩ := derives_of_read w h
    exact ⟨tokens, t, hne, hbegins, ht, hstop, he⟩
  · intro tokens t hbegins ht hroom
    obtain ⟨e, heap', hrun, he⟩ := read_of_derives w hbegins ht hroom
    exact ⟨e, _, heap', hrun, getLast?_lastEndOf 0 ht.ne_nil, he⟩

/-- The reader on a quoted list with text behind it, in a new heap. -/
theorem read_iff_derives_quoted_list : ∃ (heap : Heap Unit) (e : Handle) (stop : Nat)
    (heap' : Heap Unit), create 1 Number.infinity = .ok heap ∧
      read (text "'(a \"b\") 2") heap = (.ok (.ok (e, stop)), heap') ∧ some 8 = some stop ∧
      Denotes Empty.elim heap'.cell? e (.ofList [.symbol (text "quote"),
        .ofList [.symbol (text "a"), .string (text "b")]]) := by
  have hcreate := @create_unbounded Unit 1
  let mark : Token := ⟨.quote, text "'", ⟨1, 1, 0⟩, ⟨1, 2, 1⟩⟩
  let opening : Token := ⟨.openList, text "(", ⟨1, 2, 1⟩, ⟨1, 3, 2⟩⟩
  let atom : Token := ⟨.atom, text "a", ⟨1, 3, 2⟩, ⟨1, 4, 3⟩⟩
  let string : Token := ⟨.string, text "b", ⟨1, 5, 4⟩, ⟨1, 8, 7⟩⟩
  let closing : Token := ⟨.closeList, text ")", ⟨1, 8, 7⟩, ⟨1, 9, 8⟩⟩
  have hbegins : BeginsWith (text "'(a \"b\") 2")
      (mark :: opening :: (([atom] ++ ([string] ++ [])) ++ [closing])) := by
    unfold BeginsWith
    decide +kernel
  have hitems : DeriveAll 510 ([atom] ++ ([string] ++ []))
      [Tree.symbol atom.value, (Tree.string string.value : Tree Empty)] :=
    .cons (.symbol rfl (by decide +kernel)) (.cons (.string rfl) .nil)
  obtain ⟨e, stop, heap', hread, hstop, he⟩ :=
    (read_iff_derives _ (create_wellFormed hcreate) (text "'(a \"b\") 2")).2 _ _ hbegins
      (.quotation rfl (.list rfl rfl hitems)) (room_of_infinity rfl _)
  exact ⟨_, e, stop, heap', hcreate, hread, hstop, he⟩

end Heap

end ConsoleLisp
