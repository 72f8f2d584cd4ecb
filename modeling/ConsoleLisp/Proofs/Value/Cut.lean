import ConsoleLisp.Proofs.Heap.Run
import ConsoleLisp.Proofs.Heap.Walks
import ConsoleLisp.Proofs.Number.Count
import ConsoleLisp.Proofs.Value.Print

/-!
# Texts that are cut

A value may be cyclic, so what is printed for it need not be the rendering of a tree. All the same
it is one text, whatever the writer has room for: a walk that goes on after the writer is cut writes
nothing more, and one that stops has nothing left to write. A limit cuts that text.

Results:
* **`WellFormed.exists_written`**: the printer writes one text into every writer.
* `PrintLimit.ofNumber_eq`: the limit that a number sets.
* **`format_is_cut`**: printing stops, and a limit cuts the text off exactly.
-/

namespace ConsoleLisp

/-- The limit that a natural number sets. -/
theorem PrintLimit.ofNumber_eq {n : Number} {k : Nat} (h : n.IsCount k) :
    PrintLimit.ofNumber n = .atMost k := by
  have hnan := Number.isNaN_of_isFinite h.finite
  have hsign : (Number.isNegative n && Number.scaled n != 0) = false := by
    cases hnegative : Number.isNegative n with
    | true => rw [h.scaled_eq_zero hnegative]; rfl
    | false => rfl
  rw [ofNumber, hnan, if_neg Bool.false_ne_true, hsign, if_neg Bool.false_ne_true, h.floor?_eq]

namespace Writer

theorem isRegular_unlimited : (empty .unlimited).IsRegular := nofun

theorem isRegular_atMost (limit : Nat) : (empty (.atMost limit)).IsRegular := nofun

/-- What a writer with a count as its limit takes of one text. -/
theorem written_emit_atMost (limit : Nat) (t : Text) :
    ((empty (.atMost limit)).emit t).written.reverse = t.take limit := by
  unfold emit
  split
  · contradiction
  · by_cases h : t.length ≤ limit
    · simp [empty, h, List.reverseAux_eq, List.take_of_length_le h]
    · simp [empty, h, List.reverseAux_eq]

end Writer

namespace Heap

variable {κ : Type} {heap : Heap κ}

/-- The action writes one text into every writer. -/
def WritesText (text : Text) (write : Writer → Except Fault Writer) : Prop :=
  ∀ out : Writer, out.IsRegular → write out = .ok (out.emit text)

/-- An action that a writer without room leaves alone writes one text when it does so into every
writer that has room. -/
theorem WritesText.of_open {text : Text} {write : Writer → Except Fault Writer}
    (hcut : ∀ out : Writer, out.isCut = true → write out = .ok out)
    (hopen : ∀ out : Writer, out.isCut = false → out.IsRegular → write out = .ok (out.emit text)) :
    WritesText text write := by
  intro out hout
  cases h : out.isCut with
  | true => rw [hcut out h, Writer.emit_of_isCut h]
  | false => exact hopen out h hout

/-- The rest of a list, when its items write one text each. By induction on the fuel. -/
theorem WellFormed.exists_itemsWritten (w : heap.WellFormed)
    {writeItem : List Nat → Handle → Writer → Except Fault Writer}
    (hitem : ∀ path e, heap.isLive e = true → ∃ text, WritesText text (writeItem path e))
    (fuel : Nat) (path : List Nat) (isFirst : Bool) {e : Handle} (he : heap.isLive e = true) :
    ∃ text, WritesText text (heap.writeItems writeItem fuel path isFirst e) := by
  induction fuel generalizing path isFirst e with
  | zero => exact ⟨[], fun out hout => by rw [Writer.emit_nil hout]; rfl⟩
  | succ fuel ih =>
    obtain ⟨c, hin, hc⟩ := exists_inspect he
    have hcut : ∀ out : Writer, out.isCut = true →
        heap.writeItems writeItem (fuel + 1) path isFirst e out = .ok out := by
      intro out hout
      rw [writeItems, if_pos hout]
    -- what is written before the rest depends on the cell
    suffices h : ∃ text, ∀ out : Writer, out.isCut = false → out.IsRegular →
        heap.writeItems writeItem (fuel + 1) path isFirst e out = .ok (out.emit text) by
      obtain ⟨text, htext⟩ := h
      exact ⟨text, .of_open hcut htext⟩
    cases c with
    | nil =>
      refine ⟨[], fun out hopen hout => ?_⟩
      rw [writeItems, if_neg (Bool.eq_false_iff.mp hopen), hin, Writer.emit_nil hout]
    | number | symbol | string | native =>
      obtain ⟨t, ht⟩ := hitem path e he
      refine ⟨text " . " ++ t, fun out hopen hout => ?_⟩
      rw [writeItems, if_neg (Bool.eq_false_iff.mp hopen), hin]
      dsimp only
      rw [ht _ (hout.emit _), Writer.emit_append hout]
    | pair head tail =>
      obtain ⟨hhead, htail⟩ := w.parts_isLive hc
      by_cases hmet : path.contains e.index = true
      · refine ⟨text " . " ++ cycleMarker, fun out hopen _ => ?_⟩
        rw [writeItems, if_neg (Bool.eq_false_iff.mp hopen), hin]
        dsimp only
        rw [if_pos hmet]
      · obtain ⟨first, hfirst⟩ := hitem (e.index :: path) head hhead
        obtain ⟨rest, hrest⟩ := ih (e.index :: path) false htail
        refine ⟨(if isFirst then [] else [unit ' ']) ++ first ++ rest, fun out hopen hout => ?_⟩
        have hspace : (if isFirst then out else out.emit [unit ' ']) =
            out.emit (if isFirst then [] else [unit ' ']) := by
          cases isFirst with
          | true => exact (Writer.emit_nil hout).symm
          | false => rfl
        have hseparated := hout.emit (if isFirst then [] else [unit ' '])
        rw [writeItems, if_neg (Bool.eq_false_iff.mp hopen), hin]
        dsimp only
        rw [if_neg hmet, hspace, hfirst _ hseparated]
        dsimp only
        rw [hrest _ (hseparated.emit _), Writer.emit_append (hout.emit _), Writer.emit_append hout,
          List.append_assoc]

theorem write_of_isCut (depth : Nat) (path : List Nat) (e : Handle) {out : Writer}
    (h : out.isCut = true) : heap.write depth path e out = .ok out := by
  cases depth <;> rw [write, if_pos h]

theorem WritesText.of_atom {e : Handle} {c : Cell κ} (hin : heap.inspect e = .ok c)
    (hatom : ∀ head tail, c ≠ .pair head tail) (depth : Nat) (path : List Nat) :
    WritesText c.atomPiece (heap.write depth path e) := by
  refine .of_open (fun _ => write_of_isCut depth path e) fun out hopen _ => ?_
  cases c with
  | pair head tail => exact absurd rfl (hatom head tail)
  | nil | number | symbol | string | native =>
    cases depth <;> rw [write, if_neg (Bool.eq_false_iff.mp hopen), hin]

/-- **The printer writes one text into every writer**, for cyclic values too. By induction on the
lists that it may open. -/
theorem WellFormed.exists_written (w : heap.WellFormed) (depth : Nat) (path : List Nat) {e : Handle}
    (he : heap.isLive e = true) : ∃ text, WritesText text (heap.write depth path e) := by
  obtain ⟨c, hin, -⟩ := exists_inspect he
  induction depth generalizing path e c with
  | zero =>
    cases c with
    | nil | number | symbol | string | native => exact ⟨_, .of_atom hin nofun 0 path⟩
    | pair head tail =>
      refine ⟨cycleMarker, .of_open (fun _ => write_of_isCut 0 path e) fun out hopen _ => ?_⟩
      rw [write, if_neg (Bool.eq_false_iff.mp hopen), hin]
      exact ite_self _
  | succ depth ih =>
    cases c with
    | nil | number | symbol | string | native => exact ⟨_, .of_atom hin nofun (depth + 1) path⟩
    | pair head tail =>
      have hcut : ∀ out : Writer, out.isCut = true →
          heap.write (depth + 1) path e out = .ok out :=
        fun _ => write_of_isCut (depth + 1) path e
      by_cases hmet : path.contains e.index = true
      · refine ⟨cycleMarker, .of_open hcut fun out hopen _ => ?_⟩
        rw [write, if_neg (Bool.eq_false_iff.mp hopen), hin]
        exact if_pos hmet
      · have hitem : ∀ path e, heap.isLive e = true →
            ∃ text, WritesText text (heap.write depth path e) := by
          intro path e he
          obtain ⟨c, hin, -⟩ := exists_inspect he
          exact ih path he c hin
        obtain ⟨items, hitems⟩ := w.exists_itemsWritten hitem (heap.slots.size + 1) path true he
        refine ⟨[unit '('] ++ items ++ [unit ')'], .of_open hcut fun out hopen hout => ?_⟩
        rw [write, if_neg (Bool.eq_false_iff.mp hopen), hin]
        dsimp only
        rw [if_neg hmet, hitems _ (hout.emit _)]
        dsimp only
        rw [Writer.emit_append (hout.emit _), Writer.emit_append hout, List.append_assoc]

/-- A print walk under a limit: it stops, and the writer has been given one text. -/
theorem WellFormed.printWalk_emits (w : heap.WellFormed) {e : Handle} {T : Text}
    (he : heap.isLive e = true) (hT : WritesText T (heap.write maxPrintDepth [] e))
    {limit : PrintLimit} (hlimit : (Writer.empty limit).IsRegular) :
    heap.formatWithin limit e = .ok ((Writer.empty limit).emit T).toText ∧
    (∃ out, PrintWalk heap .value maxPrintDepth [] e (.empty limit) out) ∧
    ∀ out, PrintWalk heap .value maxPrintDepth [] e (.empty limit) out →
      out = (Writer.empty limit).emit T := by
  have hwrite := hT _ hlimit
  refine ⟨?_, w.printWalk maxPrintDepth .nil he _, fun out hout => ?_⟩
  · rw [formatWithin, hwrite]
    rfl
  · have hsame : heap.write maxPrintDepth [] e (.empty limit) = .ok out := hout.writesAt .nil
    exact Except.ok.inj (hsame.symm.trans hwrite)

/-- **Printing stops, and a limit cuts the text off exactly.** There is one text `T` for every live
value, cyclic or not, which is printed when there is no limit. Under a limit of `m` units the print
walk stops as well; what is printed is `T` when it fits, and else the first `m` units of `T` with
the marker behind them. So it is never longer than the limit and the marker, and what is emitted
under a higher limit begins with what is emitted under a lower one. -/
theorem format_is_cut (w : heap.WellFormed) {e : Handle} (he : heap.isLive e = true) :
    ∃ T : Text,
      heap.formatWithin .unlimited e = .ok T ∧
      (∃ out, PrintWalk heap .value maxPrintDepth [] e (.empty .unlimited) out ∧ out.toText = T) ∧
      ∀ (limit : Number) (m : Nat), limit.IsCount m → ∃ out,
        PrintWalk heap .value maxPrintDepth [] e (.empty (.ofNumber limit)) out ∧
        heap.formatWithin (.ofNumber limit) e = .ok out.toText ∧
        out.toText = (if T.length ≤ m then T else T.take m ++ truncationMarker) ∧
        out.toText.length ≤ m + truncationMarker.length ∧
        ∀ (limit' : Number) (m' : Nat), limit'.IsCount m' → m ≤ m' →
          ∀ out', PrintWalk heap .value maxPrintDepth [] e (.empty (.ofNumber limit')) out' →
            out.written.reverse <+: out'.written.reverse := by
  obtain ⟨T, hT⟩ := w.exists_written maxPrintDepth [] he
  obtain ⟨hformat, ⟨out, hwalk⟩, hunique⟩ := w.printWalk_emits he hT Writer.isRegular_unlimited
  have htext := Writer.toText_emit_unlimited T
  refine ⟨T, by rw [hformat, htext], ⟨out, hwalk, by rw [hunique out hwalk, htext]⟩, ?_⟩
  intro limit m hm
  obtain ⟨hformat, ⟨out, hwalk⟩, hunique⟩ := w.printWalk_emits he hT (Writer.isRegular_atMost m)
  obtain rfl := hunique out hwalk
  have hcut : ((Writer.empty (.atMost m)).emit T).toText =
      if T.length ≤ m then T else T.take m ++ truncationMarker := Writer.toText_emit_atMost m T
  rw [PrintLimit.ofNumber_eq hm]
  refine ⟨_, hwalk, hformat, hcut, ?_, fun limit' m' hm' hle out' hwalk' => ?_⟩
  · rw [hcut]
    split
    · omega
    · rw [List.length_append, List.length_take]
      omega
  · rw [PrintLimit.ofNumber_eq hm'] at hwalk'
    obtain ⟨-, -, hunique'⟩ := w.printWalk_emits he hT (Writer.isRegular_atMost m')
    rw [hunique' out' hwalk', Writer.written_emit_atMost, Writer.written_emit_atMost]
    exact List.take_prefix_take_left hle

/-- A heap with the list `(ab . #)` whose tail is the list itself. -/
@[irreducible] def ringed : Heap Unit :=
  (performAll [.symbol (text "ab"), .pair ⟨0, 1, 0⟩ ⟨0, 0, 0⟩, .setPart .tail ⟨0, 2, 0⟩ ⟨0, 2, 0⟩]
    ([], ⟨0, Number.infinity, #[⟨0, some .nil, some ⟨0, 0, 0⟩⟩], [], 1, false⟩)).2

theorem ringed_wellFormed : ringed.WellFormed := by
  unfold ringed
  exact ((Run.created (create_unbounded 0)).performAll _).wellFormed.2 (by decide +kernel)

/-- Two units of a cyclic list, where its text has ten. -/
theorem format_is_cut_ringed :
    ringed.isLive ⟨0, 2, 0⟩ = true ∧ (Number.ofNat 2).IsCount 2 ∧
    ringed.formatWithin .unlimited ⟨0, 2, 0⟩ = .ok (text "(ab . ...)") ∧
    ringed.formatWithin (.ofNumber (Number.ofNat 2)) ⟨0, 2, 0⟩ =
      .ok (text "(a" ++ truncationMarker) := by
  have hlive : ringed.isLive ⟨0, 2, 0⟩ = true := by decide +kernel
  have htwo : (Number.ofNat 2).IsCount 2 :=
    ⟨by decide +kernel, by decide +kernel, by decide +kernel⟩
  obtain ⟨T, hT, -, hcut⟩ := format_is_cut ringed_wellFormed hlive
  have hring : ringed.formatWithin .unlimited ⟨0, 2, 0⟩ = .ok (text "(ab . ...)") := by
    decide +kernel
  obtain rfl : T = text "(ab . ...)" := Except.ok.inj (hT.symm.trans hring)
  obtain ⟨out, -, hout, htext, -⟩ := hcut (Number.ofNat 2) 2 htwo
  refine ⟨hlive, htwo, hring, ?_⟩
  rw [hout, htext]
  rfl

end Heap

end ConsoleLisp
