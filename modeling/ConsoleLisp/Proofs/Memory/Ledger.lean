import ConsoleLisp.Proofs.Evaluation.Additive
import ConsoleLisp.Proofs.Memory.Rooted

/-!
# The ledger of bindings

The journal of an evaluation tells when a `set` has come back. `completions` lists these moments, the
latest in front, with the symbol, the value and the heap as it was then. What is to be shown of such
an entry is that it `Stands` in a later heap: the binding that was made holds the same value, and
everything below that value is as it was.

Results:
* `completions_sets`: the ledger has the bindings of the tally.
* **`Outset.Additive.completion`**: what is known of an entry at the end of an evaluation.
* **`Outset.Additive.stands`**: the entries of an evaluation stand at its end.
* `Stands.later`: an entry stands as long as its value stays as it is.
-/

namespace ConsoleLisp

open Heap

variable {κ : Type}

/-- A `set` that has come back, with the heap at that moment. -/
structure Completion (κ : Type) where
  symbol : Handle
  value : Handle
  heap : Heap κ

/-- The `set`s that have come back by the end of a journal, the latest in front. -/
def completions : List (Moment κ) → List (Completion κ)
  | [] => []
  | .noted (.return name outcome) heap :: past =>
    (completes name (tally past).calls outcome).map (fun made => ⟨made.1, made.2, heap⟩) ++
      completions past
  | _ :: past => completions past

/-- The binding that an entry made. -/
def Completion.made (entry : Completion κ) : Handle × Handle := (entry.symbol, entry.value)

/-- **The ledger has the bindings of the tally**, in their order. -/
theorem completions_sets (journal : List (Moment κ)) :
    (completions journal).map Completion.made = (tally journal).sets := by
  induction journal with
  | nil => rfl
  | cons moment past ih =>
    cases moment with
    | enters | leaves => exact ih
    | noted event heap =>
      cases event with
      | «return» name outcome =>
        rw [completions, tally, List.map_append, List.map_map, ih]
        exact congrArg (· ++ (tally past).sets) (List.map_id _)
      | call | application | failed | collected => exact ih

/-- An entry was made at a moment of the journal. -/
theorem exists_moment {journal : List (Moment κ)} {entry : Completion κ}
    (h : entry ∈ completions journal) : ∃ moment past, moment :: past <:+ journal ∧
      moment.heap? = some entry.heap ∧ entry.made ∈ (tally (moment :: past)).sets := by
  induction journal with
  | nil => cases h
  | cons moment past ih =>
    have hearlier : entry ∈ completions past → ∃ moment' past', moment' :: past' <:+ moment :: past ∧
        moment'.heap? = some entry.heap ∧ entry.made ∈ (tally (moment' :: past')).sets := by
      intro hentry
      obtain ⟨moment', past', hsuffix, hrest⟩ := ih hentry
      exact ⟨moment', past', hsuffix.trans (List.suffix_cons _ _), hrest⟩
    cases moment with
    | enters | leaves => exact hearlier h
    | noted event heap =>
      cases event with
      | «return» name outcome =>
        rcases List.mem_append.mp h with hnow | hentry
        · obtain ⟨made, hmade, rfl⟩ := List.mem_map.mp hnow
          exact ⟨_, past, List.suffix_refl _, rfl, List.mem_append_left _ hmade⟩
        · exact hearlier hentry
      | call | application | failed | collected => exact hearlier h

/-- A binding in front of a frame has a symbol and a live value. -/
theorem Heap.Prepended.exists_name {heap : Heap κ} {root new old : Handle}
    {sets : List (Handle × Handle)} (h : Prepended heap root sets new old) {made : Handle × Handle}
    (hmade : made ∈ sets) : (∃ name, heap.cell? made.1 = some (.symbol name)) ∧
      heap.isLive made.2 = true := by
  induction h with
  | nil => cases hmade
  | cons _ _ hsymbol hvalue _ ih =>
    rcases List.mem_cons.mp hmade with rfl | hmade
    · exact ⟨⟨_, hsymbol⟩, hvalue⟩
    · exact ih hmade

/-- **What is known of an entry at the end**: its symbol and its value were live when it was made,
and cells were only added since. -/
theorem Outset.Additive.completion {o : Outset κ} {owed : List (Handle × Handle)} {heap : Heap κ}
    {journal : List (Moment κ)} (h : o.Additive owed heap journal) {entry : Completion κ}
    (hentry : entry ∈ completions journal) : entry.heap.WellFormed ∧
      (∃ name, entry.heap.cell? entry.symbol = some (.symbol name)) ∧
      entry.heap.isLive entry.value = true ∧ Grows o.scope.chain entry.heap heap := by
  obtain ⟨moment, past, hsuffix, hheap, hmade⟩ := exists_moment hentry
  have hadds := h.moments moment past hsuffix entry.heap hheap
  obtain ⟨_, _, _, -, -, hfront⟩ := hadds.frame
  obtain ⟨hname, hvalue⟩ := hfront.exists_name hmade
  refine ⟨hadds.wellFormed, hname, hvalue, (List.pairwise_cons.mp h.grows).1 _ ?_⟩
  exact List.mem_filterMap.mpr ⟨moment, hsuffix.subset List.mem_cons_self, hheap⟩

/-- The binding is the one that the entry made, and in the heap its value is live and everything
below it as it was when the entry was made. -/
structure Stands (heap : Heap κ) (entry : Completion κ) (binding : Binding) : Prop where
  symbol : entry.heap.cell? entry.symbol = some (.symbol binding.name)
  value_eq : binding.value = entry.value
  isLive : heap.isLive entry.value = true
  same : entry.heap.SameBelow entry.value heap

/-- **The entries of an evaluation stand** at its end. -/
theorem Outset.Additive.stands {o : Outset κ} {heap : Heap κ} {journal : List (Moment κ)}
    (h : o.Additive [] heap journal) {native : Native κ → Prop} {made bound : List Binding}
    (hrooted : heap.Rooted native o.scope (made ++ bound))
    (hnames : List.Forall₂ heap.Names (tally journal).sets made) :
    List.Forall₂ (Stands heap) (completions journal) made := by
  obtain ⟨_, hscope, -⟩ := hrooted.exists_frame
  rw [← completions_sets, List.forall₂_map_left_iff] at hnames
  -- the entries are those of the journal, and the bindings those of the scope
  have hentries := (List.forall₂_and_left _ _).mpr ⟨fun _ hentry => hentry, hnames⟩
  have hbindings := (List.forall₂_and_left _ _).mpr
    ⟨fun _ hb => List.mem_append_left bound hb, hentries.flip⟩
  refine hbindings.flip.imp fun entry binding ⟨hb, hentry, hname⟩ => ?_
  obtain ⟨w, ⟨name, hsymbol⟩, hlive, hg⟩ := h.completion hentry
  have hvalue : binding.value = entry.value := hname.value_eq
  have hnamed : heap.cell? entry.symbol = some (.symbol binding.name) := hname.symbol
  have hne : entry.symbol ≠ o.scope.chain := by
    intro heq
    rw [heq, hscope] at hnamed
    cases hnamed
  have hlater := hrooted.isLive_value hb
  rw [hvalue] at hlater
  refine ⟨?_, hvalue, hlater, ?_⟩
  · cases (hg.cell?_mono _ _ hne hsymbol).symm.trans hnamed
    exact hsymbol
  · refine hg.sameBelow w hlive ?_
    rw [← hvalue]
    exact (hrooted.reach_value hb).2

/-- An entry stands as long as its value stays as it is. -/
theorem Stands.later {heap heap' : Heap κ} {entry : Completion κ} {binding : Binding}
    (h : Stands heap entry binding) (hsame : heap.SameBelow binding.value heap') :
    Stands heap' entry binding := by
  rw [h.value_eq] at hsame
  obtain ⟨c, hc⟩ := isLive_iff.mp h.isLive
  refine ⟨h.symbol, h.value_eq, isLive_of_cell? ((hsame _ (.root List.mem_cons_self)).trans hc),
    h.same.trans hsame⟩

end ConsoleLisp
