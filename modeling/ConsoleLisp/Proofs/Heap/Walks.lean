import ConsoleLisp.Proofs.Heap.Looking
import Mathlib.Logic.Relation

/-!
# Walks along the tails of pairs

Lists and scopes are walked along the tails of their pairs. A list that comes back to one of its
pairs is noticed, while a scope is trusted not to; `TailsEnd heap n e` says that the tails from `e`
on run out after `n` pairs, and `Items heap e items` that they run out at a nil.

Results:
* **`exists_tailsEnd_iff`**: the tails run out when none of them leads back to itself.
* `TailsEnd.lt_size`: the pairs on the way are distinct, so they are fewer than the slots.
* **`listItems_eq_some_iff`**: the list walk gives the items of a proper list.
* **`WellFormed.listWalk`**: the loop that keeps the slots it has met stops with the same answer.
* **`WellFormed.printWalk`**, `PrintWalk.writesAt`: the print loop stops, and writes what `write`
  writes.
-/

namespace ConsoleLisp

namespace Heap

variable {κ : Type} {heap heap' : Heap κ}

/-! ## Tails that run out -/

/-- The tails from a handle on run out after so many pairs. -/
inductive TailsEnd (heap : Heap κ) : Nat → Handle → Prop
  | stop {e : Handle} {c : Cell κ} : heap.cell? e = some c → c.pair? = none → TailsEnd heap 0 e
  | step {n : Nat} {e head tail : Handle} : heap.cell? e = some (.pair head tail) →
      TailsEnd heap n tail → TailsEnd heap (n + 1) e

namespace TailsEnd

variable {n m : Nat} {e : Handle}

/-- There is one number of pairs. -/
theorem unique (h : TailsEnd heap n e) (h' : TailsEnd heap m e) : n = m := by
  induction h generalizing m with
  | stop hc hp =>
    cases h' with
    | stop => rfl
    | step hc' _ =>
      cases hc.symm.trans hc'
      cases hp
  | step hc _ ih =>
    cases h' with
    | stop hc' hp =>
      cases hc.symm.trans hc'
      cases hp
    | step hc' h' =>
      cases hc.symm.trans hc'
      rw [ih h']

theorem exists_cell (h : TailsEnd heap n e) : ∃ c, heap.cell? e = some c := by
  cases h with
  | stop hc => exact ⟨_, hc⟩
  | step hc => exact ⟨_, hc⟩

theorem exists_next (h : TailsEnd heap (n + 1) e) : ∃ f, TailsEnd heap n f := by
  cases h with
  | step _ hrest => exact ⟨_, hrest⟩

/-- There are fewer pairs than slots. -/
theorem lt_size (h : TailsEnd heap n e) : n < heap.slots.size :=
  lt_size_of_descent (P := TailsEnd heap) (fun _ _ _ => unique) (fun _ _ => exists_next)
    (fun _ _ => exists_cell) h

/-- Where the tails are as they were, they run out as they did. -/
theorem mono (h : TailsEnd heap n e)
    (hpair : ∀ f head tail, heap.cell? f = some (.pair head tail) →
      ∃ head', heap'.cell? f = some (.pair head' tail))
    (hatom : ∀ f c, c.pair? = none → heap.cell? f = some c → heap'.cell? f = some c) :
    TailsEnd heap' n e := by
  induction h with
  | stop hc hp => exact .stop (hatom _ _ hp hc) hp
  | step hc _ ih =>
    obtain ⟨_, hc'⟩ := hpair _ _ _ hc
    exact .step hc' ih

end TailsEnd

/-- The second handle is the tail of the first. -/
def TailOf (heap : Heap κ) (e tail : Handle) : Prop :=
  ∃ head, heap.cell? e = some (.pair head tail)

/-- No pair on the way along the tails leads back to itself. -/
def Acyclic (heap : Heap κ) (e : Handle) : Prop :=
  ∀ f, Relation.ReflTransGen heap.TailOf e f → ¬ Relation.TransGen heap.TailOf f f

theorem TailsEnd.acyclic {n : Nat} {e : Handle} (h : TailsEnd heap n e) : heap.Acyclic e := by
  intro f hreach
  -- one step along the tails leaves one pair less to go
  have hstep : ∀ {g g' : Handle} {k : Nat}, heap.TailOf g g' → TailsEnd heap k g →
      ∃ j < k, TailsEnd heap j g' := by
    rintro g g' k ⟨head, hc⟩ hend
    cases hend with
    | stop hc' hp =>
      cases hc.symm.trans hc'
      cases hp
    | step hc' hend =>
      cases hc.symm.trans hc'
      exact ⟨_, Nat.lt_succ_self _, hend⟩
  have hend : ∃ k, TailsEnd heap k f := by
    induction hreach with
    | refl => exact ⟨n, h⟩
    | tail _ hlast ih =>
      obtain ⟨k, hk⟩ := ih
      obtain ⟨j, -, hj⟩ := hstep hlast hk
      exact ⟨j, hj⟩
  obtain ⟨k, hk⟩ := hend
  intro hcycle
  have hless : ∀ {g : Handle}, Relation.TransGen heap.TailOf f g → ∃ j < k, TailsEnd heap j g := by
    intro g hg
    induction hg with
    | single hlast => exact hstep hlast hk
    | tail _ hlast ih =>
      obtain ⟨j, hjk, hj⟩ := ih
      obtain ⟨i, hij, hi⟩ := hstep hlast hj
      exact ⟨i, Nat.lt_trans hij hjk, hi⟩
  obtain ⟨j, hjk, hj⟩ := hless hcycle
  exact Nat.ne_of_lt hjk (hj.unique hk)

/-- **The tails run out when none of them leads back to itself**: a walk that does not end would
meet more distinct handles than there are slots. -/
theorem exists_tailsEnd_iff (w : heap.WellFormed) {e : Handle} (he : heap.isLive e = true) :
    (∃ n, TailsEnd heap n e) ↔ heap.Acyclic e := by
  constructor
  · rintro ⟨n, h⟩
    exact h.acyclic
  · intro hacyclic
    -- `met` are the handles on the way to a handle `f` from which the walk has not ended yet
    have hwalk : ∀ (room : Nat) (met : List Handle) (f : Handle),
        heap.slots.size < met.length + room → met.Nodup →
        (∀ g ∈ met, heap.isLive g = true ∧ Relation.TransGen heap.TailOf g f) →
        Relation.ReflTransGen heap.TailOf e f → heap.isLive f = true → ∃ n, TailsEnd heap n f := by
      intro room
      induction room with
      | zero =>
        intro met f hroom hnodup hmet _ _
        have := length_le_of_nodup hnodup fun g hg => isLive_iff.mp (hmet g hg).1
        omega
      | succ room ih =>
        intro met f hroom hnodup hmet hreach hlive
        obtain ⟨c, hc⟩ := isLive_iff.mp hlive
        cases hp : c.pair? with
        | none => exact ⟨0, .stop hc hp⟩
        | some parts =>
          obtain ⟨head, tail⟩ := parts
          have hpair : c = .pair head tail := by
            cases c <;> cases hp
            rfl
          subst hpair
          have hnew : f ∉ met := fun hf => hacyclic f hreach (hmet f hf).2
          have htail : heap.TailOf f tail := ⟨head, hc⟩
          obtain ⟨n, hn⟩ := ih (f :: met) tail (by rw [List.length_cons]; omega)
            (List.nodup_cons.mpr ⟨hnew, hnodup⟩)
            (fun g hg => by
              rcases List.mem_cons.mp hg with rfl | hg
              · exact ⟨hlive, .single htail⟩
              · exact ⟨(hmet g hg).1, (hmet g hg).2.tail htail⟩)
            (hreach.tail htail) (isLive_iff.mpr (w.parts_of_pair hc).2)
          exact ⟨n + 1, .step hc hn⟩
    exact hwalk (heap.slots.size + 1) [] e (by simp) List.nodup_nil (fun g hg => nomatch hg) .refl he

/-! ## Lists -/

/-- The tails from a handle on run out at a nil, and these are the heads on the way. -/
inductive Items (heap : Heap κ) : Handle → List Handle → Prop
  | nil {e : Handle} : heap.cell? e = some .nil → Items heap e []
  | cons {e head tail : Handle} {rest : List Handle} : heap.cell? e = some (.pair head tail) →
      Items heap tail rest → Items heap e (head :: rest)

theorem Items.tailsEnd {e : Handle} {items : List Handle} (h : Items heap e items) :
    TailsEnd heap items.length e := by
  induction h with
  | nil hc => exact .stop hc rfl
  | cons hc _ ih => exact .step hc ih

/-- A walk gives the items met and those to come, when it has fuel for them. -/
theorem walkList_eq_some_iff {fuel : Nat} {met found : List Handle} {e : Handle} :
    heap.walkList fuel met e = .ok (some found) ↔
      ∃ items, Items heap e items ∧ items.length < fuel ∧ found = met.reverse ++ items := by
  induction fuel generalizing met e with
  | zero =>
    constructor
    · intro h
      cases h
    · rintro ⟨items, -, hless, -⟩
      cases hless
  | succ fuel ih =>
    unfold walkList
    cases hin : heap.inspect e with
    | error fault =>
      constructor
      · intro h
        cases h
      · rintro ⟨items, hitems | ⟨hc, -⟩, -⟩
        · cases hin.symm.trans (inspect_eq_ok_iff.mpr ‹_›)
        · cases hin.symm.trans (inspect_eq_ok_iff.mpr hc)
    | ok c =>
      have hc := inspect_eq_ok_iff.mp hin
      cases c with
      | nil =>
        constructor
        · intro h
          cases h
          exact ⟨[], .nil hc, Nat.succ_pos _, (List.append_nil _).symm⟩
        · rintro ⟨items, hitems | ⟨hc', -⟩, -, rfl⟩
          · rw [List.append_nil]
          · cases hc.symm.trans hc'
      | pair head tail =>
        dsimp only
        rw [ih, List.reverse_cons]
        constructor
        · rintro ⟨items, hitems, hless, rfl⟩
          exact ⟨head :: items, .cons hc hitems, Nat.succ_lt_succ hless, by simp⟩
        · rintro ⟨items, hitems, hless, rfl⟩
          cases hitems with
          | nil hc' => cases hc.symm.trans hc'
          | cons hc' hrest =>
            cases hc.symm.trans hc'
            exact ⟨_, hrest, Nat.lt_of_succ_lt_succ hless, by simp⟩
      | number | symbol | string | native =>
        constructor
        · intro h
          cases h
        · rintro ⟨items, hitems | ⟨hc', -⟩, -⟩
          · cases hc.symm.trans ‹_›
          · cases hc.symm.trans hc'

/-- **The list walk gives the items of a proper list**, whatever its length. -/
theorem listItems_eq_some_iff {e : Handle} {items : List Handle} :
    heap.listItems e = .ok (some items) ↔ Items heap e items := by
  unfold listItems
  rw [walkList_eq_some_iff]
  constructor
  · rintro ⟨items, hitems, -, rfl⟩
    exact hitems
  · intro h
    exact ⟨items, h, Nat.lt_succ_of_lt h.tailsEnd.lt_size, rfl⟩

/-- The list walk as a loop: it keeps the slots of the pairs met and stops with a result where it
meets one of them again. -/
inductive ListWalk (heap : Heap κ) :
    List Nat → List Handle → Handle → Option (List Handle) → Prop
  | nil {seen : List Nat} {items : List Handle} {e : Handle} : heap.inspect e = .ok .nil →
      ListWalk heap seen items e (some items)
  | improper {seen : List Nat} {items : List Handle} {e : Handle} {c : Cell κ} :
      heap.inspect e = .ok c → c ≠ .nil → c.pair? = none → ListWalk heap seen items e none
  | cyclic {seen : List Nat} {items : List Handle} {e head tail : Handle} :
      heap.inspect e = .ok (.pair head tail) → e.index ∈ seen → ListWalk heap seen items e none
  | next {seen : List Nat} {items : List Handle} {e head tail : Handle}
      {result : Option (List Handle)} : heap.inspect e = .ok (.pair head tail) → e.index ∉ seen →
      ListWalk heap (e.index :: seen) (items ++ [head]) tail result →
      ListWalk heap seen items e result

/-- The handles are distinct and live, and the tails from each of them lead to `e`. -/
structure LeadTo (heap : Heap κ) (behind : List Handle) (e : Handle) : Prop where
  nodup : behind.Nodup
  isLive : ∀ f ∈ behind, heap.isLive f = true
  leads : ∀ f ∈ behind, Relation.TransGen heap.TailOf f e

namespace LeadTo

variable {behind : List Handle} {e head tail : Handle}

theorem nil : heap.LeadTo [] e := ⟨List.nodup_nil, by simp, by simp⟩

/-- One step along a tail. -/
theorem next (h : heap.LeadTo behind e) (hc : heap.cell? e = some (.pair head tail))
    (hnew : e.index ∉ behind.map Handle.index) : heap.LeadTo (e :: behind) tail := by
  have htail : heap.TailOf e tail := ⟨head, hc⟩
  refine ⟨List.nodup_cons.mpr ⟨fun hmem => hnew (List.mem_map_of_mem hmem), h.nodup⟩,
    List.forall_mem_cons.mpr ⟨isLive_of_cell? hc, h.isLive⟩, List.forall_mem_cons.mpr ⟨?_, ?_⟩⟩
  · exact .single htail
  · exact fun f hf => (h.leads f hf).tail htail

theorem length_le (h : heap.LeadTo behind e) : behind.length ≤ heap.slots.size :=
  length_le_of_nodup h.nodup fun f hf => isLive_iff.mp (h.isLive f hf)

/-- Where a slot is met again there is no list. -/
theorem not_items (h : heap.LeadTo behind e) (hc : heap.cell? e = some (.pair head tail))
    (hmet : e.index ∈ behind.map Handle.index) (rest : List Handle) : ¬ Items heap e rest := by
  intro hrest
  obtain ⟨f, hf, hindex⟩ := List.mem_map.mp hmet
  obtain ⟨d, hd⟩ := isLive_iff.mp (h.isLive f hf)
  obtain rfl := eq_of_index_eq hd hc hindex
  exact hrest.tailsEnd.acyclic _ .refl (h.leads _ hf)

end LeadTo

/-- The loop stops: `behind` are the pairs met. -/
theorem exists_listWalk (w : heap.WellFormed) (behind : List Handle) {e : Handle}
    (he : heap.isLive e = true) (hbehind : heap.LeadTo behind e) (items : List Handle) :
    ∃ result, ListWalk heap (behind.map Handle.index) items e result ∧
      ∀ found, result = some found ↔ ∃ rest, Items heap e rest ∧ found = items ++ rest := by
  generalize hroom : heap.slots.size - behind.length = room
  induction room using Nat.strongRecOn generalizing behind e items with
  | ind room ih =>
  obtain ⟨c, hin, hc⟩ := exists_inspect he
  cases c with
  | nil =>
    refine ⟨some items, .nil hin, fun found => ?_⟩
    constructor
    · rintro ⟨⟩
      exact ⟨[], .nil hc, (List.append_nil _).symm⟩
    · rintro ⟨rest, hrest | ⟨hc', -⟩, rfl⟩
      · rw [List.append_nil]
      · cases hc.symm.trans hc'
  | number | symbol | string | native =>
    refine ⟨none, .improper hin nofun rfl, fun found => ?_⟩
    constructor
    · rintro ⟨⟩
    · rintro ⟨rest, hrest | ⟨hc', -⟩, -⟩
      · cases hc.symm.trans ‹_›
      · cases hc.symm.trans hc'
  | pair head tail =>
    by_cases hseen : e.index ∈ behind.map Handle.index
    · refine ⟨none, .cyclic hin hseen, fun found => ?_⟩
      constructor
      · rintro ⟨⟩
      · rintro ⟨rest, hrest, -⟩
        exact absurd hrest (hbehind.not_items hc hseen rest)
    · have hnext := hbehind.next hc hseen
      have hless := hnext.length_le
      rw [List.length_cons] at hless
      obtain ⟨result, hwalk, hresult⟩ := ih (heap.slots.size - (e :: behind).length)
        (by rw [List.length_cons]; omega) (e :: behind) (w.parts_isLive hc).2 hnext
        (items ++ [head]) rfl
      refine ⟨result, .next hin hseen hwalk, fun found => ?_⟩
      rw [hresult]
      constructor
      · rintro ⟨rest, hrest, rfl⟩
        exact ⟨head :: rest, .cons hc hrest, by simp⟩
      · rintro ⟨rest, hrest, rfl⟩
        cases hrest with
        | nil hc' => cases hc.symm.trans hc'
        | cons hc' hrest =>
          cases hc.symm.trans hc'
          exact ⟨_, hrest, by simp⟩

/-- **The list walk stops**, cyclic lists included, with the answer of `listItems`. -/
theorem WellFormed.listWalk (w : heap.WellFormed) {e : Handle} (he : heap.isLive e = true) :
    ∃ result, heap.listItems e = .ok result ∧ ListWalk heap [] [] e result := by
  obtain ⟨result, hwalk, hresult⟩ := exists_listWalk w [] he .nil []
  obtain ⟨answer, hanswer, -⟩ := w.listItems_total he
  refine ⟨answer, hanswer, ?_⟩
  have hsame : answer = result := by
    refine Option.ext fun found => ?_
    rw [hresult]
    constructor
    · rintro rfl
      exact ⟨found, listItems_eq_some_iff.mp hanswer, rfl⟩
    · rintro ⟨rest, hrest, rfl⟩
      have hitems := hanswer.symm.trans (listItems_eq_some_iff.mpr hrest)
      exact Except.ok.inj hitems
  exact hsame ▸ hwalk

/-! ## Printing -/

/-- What a print walk is at: a value, or the rest of a list whose first pair it has passed or
not. -/
inductive PrintPlace
  | value
  | items (isFirst : Bool)

/-- The print loop: it keeps the slots of the pairs being printed and how many lists more it may
open. -/
inductive PrintWalk (heap : Heap κ) :
    PrintPlace → Nat → List Nat → Handle → Writer → Writer → Prop
  | cut {place : PrintPlace} {depth : Nat} {path : List Nat} {e : Handle} {out : Writer} :
      out.isCut = true → PrintWalk heap place depth path e out out
  | atom {depth : Nat} {path : List Nat} {e : Handle} {c : Cell κ} {out : Writer} :
      out.isCut = false → heap.inspect e = .ok c → c.pair? = none →
      PrintWalk heap .value depth path e out (out.emit c.atomPiece)
  | again {depth : Nat} {path : List Nat} {e head tail : Handle} {out : Writer} :
      out.isCut = false → heap.inspect e = .ok (.pair head tail) → e.index ∈ path ∨ depth = 0 →
      PrintWalk heap .value depth path e out (out.emit cycleMarker)
  | list {depth : Nat} {path : List Nat} {e head tail : Handle} {out out' : Writer} :
      out.isCut = false → heap.inspect e = .ok (.pair head tail) → e.index ∉ path →
      PrintWalk heap (.items true) depth path e (out.emit [unit '(']) out' →
      PrintWalk heap .value (depth + 1) path e out (out'.emit [unit ')'])
  | done {isFirst : Bool} {depth : Nat} {path : List Nat} {e : Handle} {out : Writer} :
      out.isCut = false → heap.inspect e = .ok .nil →
      PrintWalk heap (.items isFirst) depth path e out out
  | dotted {isFirst : Bool} {depth : Nat} {path : List Nat} {e : Handle} {c : Cell κ}
      {out out' : Writer} : out.isCut = false → heap.inspect e = .ok c → c ≠ .nil → c.pair? = none →
      PrintWalk heap .value depth path e (out.emit (text " . ")) out' →
      PrintWalk heap (.items isFirst) depth path e out out'
  | back {isFirst : Bool} {depth : Nat} {path : List Nat} {e head tail : Handle} {out : Writer} :
      out.isCut = false → heap.inspect e = .ok (.pair head tail) → e.index ∈ path →
      PrintWalk heap (.items isFirst) depth path e out (out.emit (text " . " ++ cycleMarker))
  | item {isFirst : Bool} {depth : Nat} {path : List Nat} {e head tail : Handle}
      {out out' out'' : Writer} : out.isCut = false → heap.inspect e = .ok (.pair head tail) →
      e.index ∉ path → PrintWalk heap .value depth (e.index :: path) head
        (if isFirst then out else out.emit [unit ' ']) out' →
      PrintWalk heap (.items false) depth (e.index :: path) tail out' out'' →
      PrintWalk heap (.items isFirst) depth path e out out''

/-- The slots on a path are those of distinct live handles. -/
def IsPath (heap : Heap κ) (path : List Nat) : Prop :=
  ∃ handles : List Handle, path = handles.map Handle.index ∧ handles.Nodup ∧
    ∀ e ∈ handles, ∃ c, heap.cell? e = some c

theorem IsPath.nil : IsPath heap [] := ⟨[], rfl, List.nodup_nil, nofun⟩

theorem IsPath.cons {path : List Nat} (h : IsPath heap path) {e : Handle} {c : Cell κ}
    (hc : heap.cell? e = some c) (hnew : e.index ∉ path) : IsPath heap (e.index :: path) := by
  obtain ⟨handles, rfl, hnodup, hlive⟩ := h
  refine ⟨e :: handles, rfl, List.nodup_cons.mpr ⟨fun h => hnew (List.mem_map_of_mem h), hnodup⟩, ?_⟩
  exact List.forall_mem_cons.mpr ⟨⟨c, hc⟩, hlive⟩

theorem IsPath.length_le {path : List Nat} (h : IsPath heap path) :
    path.length ≤ heap.slots.size := by
  obtain ⟨handles, rfl, hnodup, hlive⟩ := h
  rw [List.length_map]
  exact length_le_of_nodup hnodup hlive

/-- There is fuel for one pair more. -/
theorem IsPath.exists_fuel {path : List Nat} {fuel : Nat} (h : IsPath heap path)
    (hless : heap.slots.size < fuel + path.length) : ∃ less, fuel = less + 1 := by
  have hlength := h.length_le
  exact ⟨fuel - 1, by omega⟩

/-- What the rest of a list is written as when there is fuel for its pairs. -/
def WritesAt (heap : Heap κ) (depth : Nat) (path : List Nat) (e : Handle) (out out' : Writer) :
    PrintPlace → Prop
  | .value => heap.write depth path e out = .ok out'
  | .items isFirst => ∀ fuel, heap.slots.size < fuel + path.length →
      heap.writeItems (heap.write depth) fuel path isFirst e out = .ok out'

/-- **A print walk that stops writes what `write` writes**: the pairs on a path are fewer than the
fuel. -/
theorem PrintWalk.writesAt {place : PrintPlace} {depth : Nat} {path : List Nat} {e : Handle}
    {out out' : Writer} (h : PrintWalk heap place depth path e out out') (hpath : IsPath heap path) :
    WritesAt heap depth path e out out' place := by
  induction h with
  | @cut place depth path e out hcut =>
    cases place with
    | value =>
      show heap.write depth path e out = _
      rw [write.eq_def]
      exact if_pos hcut
    | items isFirst =>
      intro fuel hless
      obtain ⟨fuel, rfl⟩ := hpath.exists_fuel hless
      rw [writeItems, if_pos hcut]
  | @atom depth path e c out hcut hin hp =>
    show heap.write depth path e out = _
    rw [write.eq_def]
    dsimp only
    rw [if_neg (Bool.eq_false_iff.mp hcut), hin]
    cases c with
    | pair => cases hp
    | nil | number | symbol | string | native => rfl
  | @again depth path e head tail out hcut hin hagain =>
    show heap.write depth path e out = _
    rw [write.eq_def]
    dsimp only
    rw [if_neg (Bool.eq_false_iff.mp hcut), hin]
    by_cases hmem : e.index ∈ path
    · exact if_pos (List.contains_iff_mem.mpr hmem)
    · rw [hagain.resolve_left hmem]
      dsimp only
      rw [if_neg (by simpa using hmem)]
  | @list depth path e head tail out out' hcut hin hnew _ ih =>
    show heap.write (depth + 1) path e out = _
    rw [write.eq_def]
    dsimp only
    rw [if_neg (Bool.eq_false_iff.mp hcut), hin]
    dsimp only
    rw [if_neg (by simpa using hnew), ih hpath (heap.slots.size + 1) (by omega)]
  | @done isFirst depth path e out hcut hin =>
    intro fuel hless
    obtain ⟨fuel, rfl⟩ := hpath.exists_fuel hless
    rw [writeItems, if_neg (Bool.eq_false_iff.mp hcut), hin]
  | @dotted isFirst depth path e c out out' hcut hin hnil hp _ ih =>
    intro fuel hless
    obtain ⟨fuel, rfl⟩ := hpath.exists_fuel hless
    rw [writeItems, if_neg (Bool.eq_false_iff.mp hcut), hin]
    cases c with
    | nil => exact absurd rfl hnil
    | pair => cases hp
    | number | symbol | string | native => exact ih hpath
  | @back isFirst depth path e head tail out hcut hin hmem =>
    intro fuel hless
    obtain ⟨fuel, rfl⟩ := hpath.exists_fuel hless
    rw [writeItems, if_neg (Bool.eq_false_iff.mp hcut), hin]
    exact if_pos (List.contains_iff_mem.mpr hmem)
  | @item isFirst depth path e head tail out out' out'' hcut hin hnew _ _ ihhead ihtail =>
    intro fuel hless
    obtain ⟨fuel, rfl⟩ := hpath.exists_fuel hless
    have hpath' := hpath.cons (inspect_eq_ok_iff.mp hin) hnew
    have hhead : heap.write depth (e.index :: path) head _ = .ok out' := ihhead hpath'
    rw [writeItems, if_neg (Bool.eq_false_iff.mp hcut), hin]
    dsimp only
    rw [if_neg (by simpa using hnew), hhead]
    exact ihtail hpath' fuel (by rw [List.length_cons]; omega)

/-- The rest of a list, when its items are walked as values are. -/
theorem exists_printItems (w : heap.WellFormed) {depth : Nat}
    (hvalue : ∀ {path : List Nat} {e : Handle} (out : Writer), IsPath heap path →
      heap.isLive e = true → ∃ out', PrintWalk heap .value depth path e out out')
    {path : List Nat} (hpath : IsPath heap path) (isFirst : Bool) {e : Handle}
    (he : heap.isLive e = true) (out : Writer) :
    ∃ out', PrintWalk heap (.items isFirst) depth path e out out' := by
  generalize hroom : heap.slots.size - path.length = room
  induction room using Nat.strongRecOn generalizing path isFirst e out with
  | ind room ih =>
  by_cases hcut : out.isCut = true
  · exact ⟨out, .cut hcut⟩
  have hcut : out.isCut = false := by simpa using hcut
  obtain ⟨c, hin, hc⟩ := exists_inspect he
  cases c with
  | nil => exact ⟨out, .done hcut hin⟩
  | number | symbol | string | native =>
    obtain ⟨out', hout'⟩ := hvalue (out.emit (text " . ")) hpath he
    exact ⟨out', .dotted hcut hin nofun rfl hout'⟩
  | pair head tail =>
    obtain ⟨hhead, htail⟩ := w.parts_isLive hc
    by_cases hmem : e.index ∈ path
    · exact ⟨_, .back hcut hin hmem⟩
    · have hpath' := hpath.cons hc hmem
      have hlength := hpath'.length_le
      rw [List.length_cons] at hlength
      obtain ⟨out', hout'⟩ := hvalue (if isFirst then out else out.emit [unit ' ']) hpath' hhead
      obtain ⟨out'', hout''⟩ := ih _ (by rw [List.length_cons]; omega) hpath' false htail out' rfl
      exact ⟨out'', .item hcut hin hmem hout' hout''⟩

/-- **The print walk stops**, for cyclic values too. By induction on the lists that it may open. -/
theorem WellFormed.printWalk (w : heap.WellFormed) (depth : Nat) {path : List Nat}
    (hpath : IsPath heap path) {e : Handle} (he : heap.isLive e = true) (out : Writer) :
    ∃ out', PrintWalk heap .value depth path e out out' := by
  induction depth generalizing path e out with
  | zero =>
    by_cases hcut : out.isCut = true
    · exact ⟨out, .cut hcut⟩
    have hcut : out.isCut = false := by simpa using hcut
    obtain ⟨c, hin, -⟩ := exists_inspect he
    cases c with
    | pair head tail => exact ⟨_, .again hcut hin (.inr rfl)⟩
    | nil | number | symbol | string | native => exact ⟨_, .atom hcut hin rfl⟩
  | succ depth ih =>
    by_cases hcut : out.isCut = true
    · exact ⟨out, .cut hcut⟩
    have hcut : out.isCut = false := by simpa using hcut
    obtain ⟨c, hin, -⟩ := exists_inspect he
    cases c with
    | nil | number | symbol | string | native => exact ⟨_, .atom hcut hin rfl⟩
    | pair head tail =>
      by_cases hmem : e.index ∈ path
      · exact ⟨_, .again hcut hin (.inl hmem)⟩
      · obtain ⟨out', hout'⟩ := exists_printItems w
          (fun out hpath he => ih hpath he out) hpath true he (out.emit [unit '('])
        exact ⟨_, .list hcut hin hmem hout'⟩

end Heap

end ConsoleLisp
