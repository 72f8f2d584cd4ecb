import ConsoleLisp.Proofs.Heap.Growth
import ConsoleLisp.Proofs.Heap.Walks

/-!
# Lists split and built

A list is split along the tails of its pairs, which may end in nil, end in another atom, or never
end. It is built from its last item on, with one new pair for each item.

Results:
* `exists_items_iff`, `proper_improper_or_cyclic`: where the tails lead, in one of three ways.
* `listItems_eq_none_iff`: there are no items when the tails end in another atom or return.
* `listOnto_builds`: new pairs in front of a tail, in the order of the items.
* **`lists_split_and_build`**: the split is exact, and what was built splits into what it was built
  from.
-/

namespace ConsoleLisp

namespace Heap

variable {κ : Type} {heap heap' heap'' : Heap κ} {e : Handle} {items rest : List Handle}

/-! ## Where the tails lead -/

/-- Along the tails there is a nil. -/
def EndsInNil (heap : Heap κ) (e : Handle) : Prop :=
  ∃ f, Relation.ReflTransGen heap.TailOf e f ∧ heap.cell? f = some .nil

/-- Along the tails there is an atom that is no nil. -/
def EndsInAtom (heap : Heap κ) (e : Handle) : Prop :=
  ∃ f c, Relation.ReflTransGen heap.TailOf e f ∧ heap.cell? f = some c ∧ c ≠ .nil ∧
    c.pair? = none

/-- Along the tails there is a pair, the first or a later one, from which they return to it. -/
def Returns (heap : Heap κ) (e : Handle) : Prop :=
  ∃ f, Relation.ReflTransGen heap.TailOf e f ∧ Relation.TransGen heap.TailOf f f

/-- What is behind a proper list along its tails is a proper list. -/
theorem Items.exists_of_reach (h : Items heap e items) {f : Handle}
    (hreach : Relation.ReflTransGen heap.TailOf e f) : ∃ behind, Items heap f behind := by
  induction hreach with
  | refl => exact ⟨items, h⟩
  | tail _ hlast ih =>
    obtain ⟨behind, hbehind⟩ := ih
    obtain ⟨head, hc⟩ := hlast
    cases hbehind with
    | nil hc' => cases hc.symm.trans hc'
    | cons hc' hrest =>
      cases hc.symm.trans hc'
      exact ⟨_, hrest⟩

/-- **The tails lead to a nil exactly from a proper list.** -/
theorem exists_items_iff : (∃ items, Items heap e items) ↔ heap.EndsInNil e := by
  constructor
  · rintro ⟨items, h⟩
    induction h with
    | nil hc => exact ⟨_, .refl, hc⟩
    | cons hc _ ih =>
      obtain ⟨f, hreach, hf⟩ := ih
      exact ⟨f, .head ⟨_, hc⟩ hreach, hf⟩
  · rintro ⟨f, hreach, hf⟩
    induction hreach using Relation.ReflTransGen.head_induction_on with
    | refl => exact ⟨[], .nil hf⟩
    | head hfirst _ ih =>
      obtain ⟨rest, hrest⟩ := ih
      obtain ⟨head, hc⟩ := hfirst
      exact ⟨head :: rest, .cons hc hrest⟩

/-- Tails that run out do so at an atom. -/
theorem TailsEnd.endsInNil_or_endsInAtom {n : Nat} (h : TailsEnd heap n e) :
    heap.EndsInNil e ∨ heap.EndsInAtom e := by
  induction h with
  | @stop e c hc hp =>
    by_cases hnil : c = .nil
    · exact .inl ⟨e, .refl, hnil ▸ hc⟩
    · exact .inr ⟨e, c, .refl, hc, hnil, hp⟩
  | step hc _ ih =>
    rcases ih with ⟨f, hreach, hf⟩ | ⟨f, c, hreach, hf⟩
    · exact .inl ⟨f, .head ⟨_, hc⟩ hreach, hf⟩
    · exact .inr ⟨f, c, .head ⟨_, hc⟩ hreach, hf⟩

/-- A proper list neither ends in another atom nor returns to one of its pairs. -/
theorem Items.not_endsInAtom (h : Items heap e items) : ¬ heap.EndsInAtom e := by
  rintro ⟨f, c, hreach, hc, hnil, hp⟩
  obtain ⟨behind, hbehind⟩ := h.exists_of_reach hreach
  cases hbehind with
  | nil hc' => exact hnil (Option.some.inj (hc.symm.trans hc'))
  | cons hc' =>
    cases hc.symm.trans hc'
    cases hp

theorem Items.not_returns (h : Items heap e items) : ¬ heap.Returns e := by
  rintro ⟨f, hreach, hcycle⟩
  exact h.tailsEnd.acyclic f hreach hcycle

/-- The tails from a live value end in nil, end in another atom, or return. -/
theorem proper_improper_or_cyclic (w : heap.WellFormed) (he : heap.isLive e = true) :
    heap.EndsInNil e ∨ heap.EndsInAtom e ∨ heap.Returns e := by
  by_cases hacyclic : heap.Acyclic e
  · obtain ⟨n, hn⟩ := (exists_tailsEnd_iff w he).mpr hacyclic
    exact hn.endsInNil_or_endsInAtom.imp_right .inl
  · obtain ⟨f, hf⟩ := not_forall.mp hacyclic
    obtain ⟨hreach, hcycle⟩ := Classical.not_imp.mp hf
    exact .inr (.inr ⟨f, hreach, not_not.mp hcycle⟩)

/-- **A live value has no items when its tails end in another atom or return.** -/
theorem listItems_eq_none_iff (w : heap.WellFormed) (he : heap.isLive e = true) :
    heap.listItems e = .ok none ↔ heap.EndsInAtom e ∨ heap.Returns e := by
  constructor
  · intro hnone
    refine (proper_improper_or_cyclic w he).resolve_left fun hnil => ?_
    obtain ⟨items, hitems⟩ := exists_items_iff.mpr hnil
    cases hnone.symm.trans (listItems_eq_some_iff.mpr hitems)
  · intro hends
    obtain ⟨result, hresult, -⟩ := w.listItems_total he
    cases result with
    | none => exact hresult
    | some items =>
      have hitems := listItems_eq_some_iff.mp hresult
      rcases hends with hatom | hreturn
      · exact absurd hatom hitems.not_endsInAtom
      · exact absurd hreturn hitems.not_returns

/-- The split of a list is exact: the loop that keeps the slots it has met stops, the heap stays as
it is, and where the tails lead decides the answer. -/
structure Splits (heap : Heap κ) (e : Handle) : Prop where
  stops : ∃ answer, ListWalk heap [] [] e answer ∧
    view (listItems · e) heap = (.ok answer, heap)
  items_iff : ∀ items, heap.listItems e = .ok (some items) ↔ Items heap e items
  some_iff : (∃ items, heap.listItems e = .ok (some items)) ↔ heap.EndsInNil e
  none_iff : heap.listItems e = .ok none ↔ heap.EndsInAtom e ∨ heap.Returns e

theorem WellFormed.splits (w : heap.WellFormed) (he : heap.isLive e = true) : heap.Splits e where
  stops := by
    obtain ⟨answer, hanswer, hwalk⟩ := w.listWalk he
    exact ⟨answer, hwalk, congrArg (·, heap) hanswer⟩
  items_iff items := listItems_eq_some_iff
  some_iff := by
    rw [← exists_items_iff]
    exact exists_congr fun items => listItems_eq_some_iff
  none_iff := listItems_eq_none_iff w he

/-! ## Lists that are built -/

/-- A proper list stays one when cells are added. -/
theorem Items.grow (h : Items heap e items) (hext : Extends heap heap') : Items heap' e items := by
  induction h with
  | nil hc => exact .nil (hext.cell?_mono _ _ hc)
  | cons hc _ ih => exact .cons (hext.cell?_mono _ _ hc) ih

/-- From `e` on the tails go through these pairs with these heads, and then to `tail`. -/
inductive Chain (heap : Heap κ) (tail : Handle) :
    Handle → List Handle → List Handle → Prop
  | done : Chain heap tail tail [] []
  | pair {e head next : Handle} {pairs items : List Handle} :
      heap.cell? e = some (.pair head next) → Chain heap tail next pairs items →
      Chain heap tail e (e :: pairs) (head :: items)

namespace Chain

variable {tail : Handle} {pairs : List Handle}

theorem length_eq (h : Chain heap tail e pairs items) : pairs.length = items.length := by
  induction h with
  | done => rfl
  | pair _ _ ih => rw [List.length_cons, List.length_cons, ih]

theorem grow (h : Chain heap tail e pairs items) (hext : Extends heap heap') :
    Chain heap' tail e pairs items := by
  induction h with
  | done => exact .done
  | pair hc _ ih => exact .pair (hext.cell?_mono _ _ hc) ih

theorem isLive (h : Chain heap tail e pairs items) (ht : heap.isLive tail = true) :
    heap.isLive e = true := by
  cases h with
  | done => exact ht
  | pair hc => exact isLive_of_cell? hc

/-- The items in front of a proper list, and its own. -/
theorem proper (h : Chain heap tail e pairs items) (ht : Items heap tail rest) :
    Items heap e (items ++ rest) := by
  induction h with
  | done => exact ht
  | pair hc _ ih => exact .cons hc ih

end Chain

/-- The action puts one new pair for each of the items in front of the tail, or is refused by the
full heap; every cell of before stays as it was. -/
def Builds (action : HeapM κ Handle) (heap : Heap κ) (items : List Handle) (tail : Handle) : Prop :=
  ∃ heap', heap'.WellFormed ∧ Extends heap heap' ∧
    ((∃ e pairs, action heap = (.ok e, heap') ∧ GrowsBy pairs heap heap' ∧
        pairs.length = items.length ∧ Chain heap' tail e pairs items ∧
        ∀ rest, heap.listItems tail = .ok (some rest) →
          heap'.listItems e = .ok (some (items ++ rest))) ∨
      action heap = (.error heap.exhaustion, heap') ∧ ¬ heap.Room items.length)

/-- The pairs of a list, the last one first. -/
theorem listOnto_allocates_chain (w : heap.WellFormed) {tail : Handle}
    (ht : heap.isLive tail = true) (hitems : ∀ item ∈ items, heap.isLive item = true) :
    Allocates items.length (listOnto items tail) heap fun heap' e =>
      ∃ pairs, Chain heap' tail e pairs items ∧ GrowsBy pairs heap heap' := by
  induction items with
  | nil => exact .pure w ⟨[], .done, .refl heap⟩
  | cons item items ih =>
    rw [List.forall_mem_cons] at hitems
    rw [listOnto, List.foldrM_cons]
    refine (ih hitems.2).bind fun next heap' w' hext hmade => ?_
    obtain ⟨pairs, hchain, hgrows⟩ := hmade
    have hnext : heap'.isLive next = true := hchain.isLive (hext.isLive ht)
    refine (pair_growsBy w' (hext.isLive hitems.1) hnext).imp fun e heap'' hext' hpair => ?_
    obtain ⟨hc, hnew⟩ := hpair
    exact ⟨e :: pairs, .pair hc (hchain.grow hext'),
      (hgrows.trans hnew).perm (List.perm_append_singleton e pairs)⟩

/-- **New pairs in front of a tail, one for each item.** -/
theorem listOnto_builds (w : heap.WellFormed) {tail : Handle} (ht : heap.isLive tail = true)
    (hitems : ∀ item ∈ items, heap.isLive item = true) :
    Builds (listOnto items tail) heap items tail := by
  obtain ⟨heap', w', hext, ⟨e, hrun, -, pairs, hchain, hgrows⟩ | hrefused⟩ :=
    listOnto_allocates_chain w ht hitems
  · refine ⟨heap', w', hext, .inl ⟨e, pairs, hrun, hgrows, hchain.length_eq, hchain, ?_⟩⟩
    intro rest hrest
    rw [listItems_eq_some_iff] at hrest ⊢
    exact hchain.proper (hrest.grow hext)
  · exact ⟨heap', w', hext, .inr hrefused⟩

/-- Without a tail of its own a list ends in the nil of the heap. -/
theorem list_builds (w : heap.WellFormed) (hitems : ∀ item ∈ items, heap.isLive item = true) :
    Builds (list items) heap items heap.nilHandle := by
  have hnil : heap.isLive heap.nilHandle = true := isLive_of_cell? w.cell?_nil
  have hlist : list items heap = listOnto items heap.nilHandle heap :=
    Act.run_bind_ok (nil_spec w)
  unfold Builds
  rw [hlist]
  exact listOnto_builds w hnil hitems

/-- **Lists are split exactly, and built from new pairs.** From every live value of a well-formed
heap the split of the list stops and leaves the heap as it is; it gives the items in order exactly
when the tails lead to nil, and none exactly when they lead to another atom or return to a pair. Live
items in front of a live tail, or of nil, are built into a list with one new pair for each, whose
tails give the items and then the tail, so that with a proper list as the tail it splits into the
items and those of the tail; or the heap is full, and every cell of before is as it was. -/
theorem lists_split_and_build (w : heap.WellFormed) :
    (∀ e, heap.isLive e = true → heap.Splits e) ∧
    ∀ items, (∀ item ∈ items, heap.isLive item = true) →
      (Builds (list items) heap items heap.nilHandle ∧
        heap.listItems heap.nilHandle = .ok (some [])) ∧
      ∀ tail, heap.isLive tail = true → Builds (listOnto items tail) heap items tail := by
  refine ⟨fun e he => w.splits he, fun items hitems => ⟨⟨list_builds w hitems, ?_⟩, ?_⟩⟩
  · exact listItems_eq_some_iff.mpr (.nil w.cell?_nil)
  · exact fun tail ht => listOnto_builds w ht hitems

/-- A heap with the lists `((a) a)`, whose item is its tail, and `(a . a)`, and with a pair in front
of a ring. -/
@[irreducible] def assorted : Heap Unit :=
  (performAll [.symbol (text "a"), .pair ⟨0, 1, 0⟩ ⟨0, 0, 0⟩, .pair ⟨0, 2, 0⟩ ⟨0, 2, 0⟩,
    .pair ⟨0, 1, 0⟩ ⟨0, 1, 0⟩, .pair ⟨0, 1, 0⟩ ⟨0, 0, 0⟩, .setPart .tail ⟨0, 5, 0⟩ ⟨0, 5, 0⟩,
    .pair ⟨0, 1, 0⟩ ⟨0, 5, 0⟩]
    ([], ⟨0, Number.infinity, #[⟨0, some .nil, some ⟨0, 0, 0⟩⟩], [], 1, false⟩)).2

theorem assorted_wellFormed : assorted.WellFormed := by
  unfold assorted
  exact ((Run.created (create_unbounded 0)).performAll _).wellFormed.2 (by decide +kernel)

/-- A proper list, an improper one, a cycle entered at its second pair, and an item in front. -/
theorem lists_split_and_build_assorted :
    assorted.WellFormed ∧
    assorted.listItems ⟨0, 3, 0⟩ = .ok (some [⟨0, 2, 0⟩, ⟨0, 1, 0⟩]) ∧
    assorted.listItems ⟨0, 4, 0⟩ = .ok none ∧ assorted.listItems ⟨0, 6, 0⟩ = .ok none ∧
    Builds (listOnto [⟨0, 1, 0⟩] ⟨0, 3, 0⟩) assorted [⟨0, 1, 0⟩] ⟨0, 3, 0⟩ := by
  have hlive : ∀ i : Nat, i < 7 → assorted.isLive ⟨0, i, 0⟩ = true := by decide +kernel
  have hsymbol : assorted.cell? ⟨0, 1, 0⟩ = some (.symbol (text "a")) := by decide +kernel
  have hlist : assorted.cell? ⟨0, 2, 0⟩ = some (.pair ⟨0, 1, 0⟩ ⟨0, 0, 0⟩) := by decide +kernel
  have hshared : assorted.cell? ⟨0, 3, 0⟩ = some (.pair ⟨0, 2, 0⟩ ⟨0, 2, 0⟩) := by decide +kernel
  have hdotted : assorted.cell? ⟨0, 4, 0⟩ = some (.pair ⟨0, 1, 0⟩ ⟨0, 1, 0⟩) := by decide +kernel
  have hring : assorted.cell? ⟨0, 5, 0⟩ = some (.pair ⟨0, 1, 0⟩ ⟨0, 5, 0⟩) := by decide +kernel
  have hentry : assorted.cell? ⟨0, 6, 0⟩ = some (.pair ⟨0, 1, 0⟩ ⟨0, 5, 0⟩) := by decide +kernel
  obtain ⟨hsplits, hbuilds⟩ := lists_split_and_build assorted_wellFormed
  refine ⟨assorted_wellFormed, ?_, ?_, ?_, ?_⟩
  · exact ((hsplits _ (hlive 3 (by decide))).items_iff _).mpr
      (.cons hshared (.cons hlist (.nil (by decide +kernel))))
  · exact (hsplits _ (hlive 4 (by decide))).none_iff.mpr
      (.inl ⟨_, _, .single ⟨_, hdotted⟩, hsymbol, nofun, rfl⟩)
  · exact (hsplits _ (hlive 6 (by decide))).none_iff.mpr
      (.inr ⟨_, .single ⟨_, hentry⟩, .single ⟨_, hring⟩⟩)
  · exact (hbuilds [⟨0, 1, 0⟩] (by simpa using hlive 1 (by decide))).2 _ (hlive 3 (by decide))

end Heap

end ConsoleLisp
