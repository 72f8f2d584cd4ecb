import ConsoleLisp.Proofs.Heap.Exactness
import ConsoleLisp.Proofs.Layout.Matching
import Mathlib.Data.Set.Function

/-!
# Isomorphic graphs

`IsIsomorphism f heap root heap' root'` says that `f` renames what is reached from one root to what
is reached from the other, cell by cell. Whatever else the two heaps hold does not matter, nor under
which handles they hold it.

Results:
* `Run.serves`: the heaps that sessions find.
* `IsIsomorphism.of_closed`: a renaming of a set of handles that is closed under parts.
* **`match_of_isomorphism`**, **`Layouts.Match.isomorphism`**: isomorphic graphs match, and what
  matches is isomorphic.
* `Serves.collect`, `IsIsomorphism.collect`: a collection leaves both.
-/

namespace ConsoleLisp

/-- The cell with its parts renamed. -/
def Cell.rename {κ : Type} (f : Handle → Handle) : Cell κ → Cell κ
  | .pair head tail => .pair (f head) (f tail)
  | cell => cell

namespace Heap

variable {κ : Type}

/-- The graphs below two roots are the same up to a renaming of their handles: a bijection that
keeps kinds, the contents of atoms, natives, heads and tails. -/
structure IsIsomorphism (f : Handle → Handle) (heap : Heap κ) (root : Handle) (heap' : Heap κ)
    (root' : Handle) : Prop where
  bijOn : Set.BijOn f {e | Reach heap.cell? [root] e} {e | Reach heap'.cell? [root'] e}
  root_eq : f root = root'
  cell?_eq : ∀ e, Reach heap.cell? [root] e → heap'.cell? (f e) = (heap.cell? e).map (.rename f)

/-- What a heap has to be for sessions in a root scope with natives of some kind. It says nothing of
what the root scope does not reach. -/
structure Serves (heap : Heap κ) (native : Native κ → Prop) (scope : Scope) : Prop where
  wellFormed : heap.WellFormed
  exists_pair : ∃ frame parent, heap.cell? scope.chain = some (.pair frame parent)
  acyclic : heap.AcyclicScope scope.chain
  natives : ∀ e procedure, Reach heap.cell? [scope.chain] e →
    heap.cell? e = some (.native procedure) → native procedure
  /-- There is one nil. -/
  nil_eq : ∀ e, Reach heap.cell? [scope.chain] e → heap.cell? e = some .nil → e = heap.nilHandle

variable {heap heap' : Heap κ} {native : Native κ → Prop} {scope scope' : Scope}
  {f : Handle → Handle} {root root' : Handle}

theorem Serves.isLive (h : heap.Serves native scope) : heap.isLive scope.chain = true := by
  obtain ⟨_, _, hscope⟩ := h.exists_pair
  exact isLive_of_cell? hscope

/-- What the root scope reaches is live. -/
theorem Serves.exists_cell? (h : heap.Serves native scope) {e : Handle}
    (he : Reach heap.cell? [scope.chain] e) : ∃ c, heap.cell? e = some c := by
  exact h.wellFormed.exists_cell?_of_reach (List.forall_mem_singleton.mpr h.isLive) he

/-! ## Heaps in use -/

/-- The only handle of a nil is the first. -/
def HasOneNil (heap : Heap κ) : Prop := ∀ e, heap.cell? e = some .nil → e = heap.nilHandle

/-- No request makes a second nil. -/
theorem Effect.hasOneNil {request : Request κ} {answer : Except Fault Answer}
    (heffect : Effect heap request answer heap') (h : heap.HasOneNil) : heap'.HasOneNil := by
  -- a cell that is put somewhere is no nil
  have hupdates : ∀ {e c}, c ≠ .nil → heap.Updates e c heap' → heap'.HasOneNil := by
    intro e c hne hu f hf
    rw [hu.cell?_eq] at hf
    split at hf
    · cases hf
      exact absurd rfl hne
    · rw [nilHandle, hu.id_eq]
      exact h f hf
  cases heffect with
  | refused => exact h
  | nil => exact h
  | @allocated _ cell _ _ hrequest _ hu =>
    refine hupdates ?_ hu
    rintro rfl
    cases request <;> cases hrequest
  | @replaced part _ _ _ _ _ _ hu =>
    refine hupdates ?_ hu
    cases part <;> simp [replacePart]
  | collected _ hc =>
    intro e he
    rw [nilHandle, hc.id_eq]
    exact h e (hc.cell?_of_some he)
  | destroyed =>
    intro e he
    obtain ⟨hd, -⟩ := cell?_eq_some_iff.mp he
    cases hd

/-- **There is one nil in a heap that has been used through its operations only.** -/
theorem Run.hasOneNil {id : Nat} {maxSlots : Number} {past : List (Exchange κ)}
    (h : Run id maxSlots past heap) : heap.HasOneNil := by
  induction h with
  | created h => exact fun e he => eq_nilHandle_of_create h he
  | @performed _ heap heap' request answer hrun hstep ih =>
    cases hd : heap.destroyed with
    | true =>
      rcases perform_destroyed hd request with ⟨fault, hrefused⟩ | rfl
      · cases hstep.symm.trans hrefused
        exact ih
      · cases hstep
        exact Effect.destroyed.hasOneNil ih
    | false =>
      have heffect := perform_effect (hrun.wellFormed.2 hd) request
      rw [hstep] at heffect
      exact heffect.hasOneNil ih

/-- **A heap in use serves a scope** that is an acyclic chain of acyclic frames, with the natives
that are reached from it. -/
theorem Run.serves {id : Nat} {maxSlots : Number} {past : List (Exchange κ)}
    (h : Run id maxSlots past heap) (hd : heap.destroyed = false)
    (hpair : ∃ frame parent, heap.cell? scope.chain = some (.pair frame parent))
    (hacyclic : heap.AcyclicScope scope.chain)
    (hnatives : ∀ e procedure, Reach heap.cell? [scope.chain] e →
      heap.cell? e = some (.native procedure) → native procedure) : heap.Serves native scope :=
  ⟨h.wellFormed.2 hd, hpair, hacyclic, hnatives, fun e _ hc => h.hasOneNil e hc⟩

/-- What can be checked of a heap in use: the root scope lies in a closed list of handles, none of
which names a native of another kind. -/
theorem Run.serves_of_closed {id : Nat} {maxSlots : Number} {past : List (Exchange κ)}
    (h : Run id maxSlots past heap) (hd : heap.destroyed = false)
    (hpair : ∃ frame parent, heap.cell? scope.chain = some (.pair frame parent))
    (hends : heap.ScopeEnds scope.chain) (handles : List Handle) (hroot : scope.chain ∈ handles)
    (hparts : ∀ e ∈ handles, ∀ p ∈ (heap.cell? e).bind Cell.pair?, p.1 ∈ handles ∧ p.2 ∈ handles)
    (hnatives : ∀ e ∈ handles, ∀ procedure ∈ (heap.cell? e).bind Cell.native?, native procedure) :
    heap.Serves native scope := by
  obtain ⟨frame, parent, hscope⟩ := hpair
  have hacyclic := (scopeEnds_iff (h.wellFormed.2 hd) (isLive_of_cell? hscope)).mp hends
  refine h.serves hd ⟨frame, parent, hscope⟩ hacyclic fun e procedure he hc => ?_
  refine hnatives e (he.of_closed (List.forall_mem_singleton.mpr hroot) hparts) procedure ?_
  rw [hc]
  rfl

/-! ## Renamings -/

section Renaming

variable (hcell : ∀ e, Reach heap.cell? [root] e →
  heap'.cell? (f e) = (heap.cell? e).map (.rename f))
include hcell

/-- What is reached is renamed to what is reached. -/
theorem reach_rename {e : Handle} (he : Reach heap.cell? [root] e) :
    Reach heap'.cell? [f root] (f e) := by
  induction he with
  | root he =>
    rw [List.mem_singleton.mp he]
    exact .root List.mem_cons_self
  | @head e head tail he hc ih =>
    have hpair := hcell e he
    rw [hc] at hpair
    exact ih.head hpair
  | @tail e head tail he hc ih =>
    have hpair := hcell e he
    rw [hc] at hpair
    exact ih.tail hpair

/-- A pair at `f e` has its parts at the names of the parts of `e`. -/
theorem exists_pair_of_rename {e head' tail' : Handle} (he : Reach heap.cell? [root] e)
    (hc' : heap'.cell? (f e) = some (.pair head' tail')) :
    ∃ head tail, heap.cell? e = some (.pair head tail) ∧ f head = head' ∧ f tail = tail' := by
  rw [hcell e he] at hc'
  obtain ⟨c, hc, hrename⟩ := Option.map_eq_some_iff.mp hc'
  cases c with
  | pair head tail =>
    cases hrename
    exact ⟨head, tail, hc, rfl, rfl⟩
  | nil | number | symbol | string | native => cases hrename

/-- Nothing else is reached. -/
theorem exists_of_reach_rename {e' : Handle} (he' : Reach heap'.cell? [f root] e') :
    ∃ e, Reach heap.cell? [root] e ∧ f e = e' := by
  induction he' with
  | root he' => exact ⟨root, .root List.mem_cons_self, (List.mem_singleton.mp he').symm⟩
  | head _ hc' ih =>
    obtain ⟨e, he, rfl⟩ := ih
    obtain ⟨head, tail, hc, hhead, -⟩ := exists_pair_of_rename hcell he hc'
    exact ⟨head, he.head hc, hhead⟩
  | tail _ hc' ih =>
    obtain ⟨e, he, rfl⟩ := ih
    obtain ⟨head, tail, hc, -, htail⟩ := exists_pair_of_rename hcell he hc'
    exact ⟨tail, he.tail hc, htail⟩

end Renaming

/-- **A renaming of a closed set is an isomorphism.** -/
theorem IsIsomorphism.of_closed {S : Handle → Prop} (hroot : S root) (hf : f root = root')
    (hclosed : ∀ e, S e → ∀ p ∈ (heap.cell? e).bind Cell.pair?, S p.1 ∧ S p.2)
    (hcell : ∀ e, S e → heap'.cell? (f e) = (heap.cell? e).map (.rename f))
    (hinj : ∀ e, S e → ∀ e', S e' → f e = f e' → e = e') :
    IsIsomorphism f heap root heap' root' := by
  have hreach : ∀ e, Reach heap.cell? [root] e → S e := fun e he =>
    he.of_closed (List.forall_mem_singleton.mpr hroot) hclosed
  have hcell' : ∀ e, Reach heap.cell? [root] e →
      heap'.cell? (f e) = (heap.cell? e).map (.rename f) := fun e he => hcell e (hreach e he)
  subst hf
  refine ⟨⟨fun e => reach_rename hcell', fun e he e' he' => ?_, fun e' => ?_⟩, rfl, hcell'⟩
  · exact hinj e (hreach e he) e' (hreach e' he')
  · exact exists_of_reach_rename hcell'

/-! ## Isomorphic graphs match -/

/-- The layouts of two root scopes. -/
def layouts (native : Native κ → Prop) (scope scope' : Scope) (heap heap' : Heap κ) : Layouts κ :=
  ⟨native, scope, scope', heap.exhaustion, heap'.exhaustion, False, True⟩

/-- The matching of an isomorphism; nil is matched with nil though it may not be reached. -/
def IsIsomorphism.matching (f : Handle → Handle) (heap : Heap κ) (root : Handle)
    (heap' : Heap κ) : Matching :=
  fun e e' => Reach heap.cell? [root] e ∧ e' = f e ∨ e = heap.nilHandle ∧ e' = heap'.nilHandle

/-- A cell that is reached is renamed. -/
theorem IsIsomorphism.cell?_rename (hf : IsIsomorphism f heap root heap' root') {e : Handle}
    {c : Cell κ} (he : Reach heap.cell? [root] e) (hc : heap.cell? e = some c) :
    heap'.cell? (f e) = some (.rename f c) := by
  rw [hf.cell?_eq e he, hc]
  rfl

/-- Nil is the only handle of nil on both sides. -/
theorem IsIsomorphism.nil_iff (hf : IsIsomorphism f heap scope.chain heap' scope'.chain)
    (h : heap.Serves native scope) (h' : heap'.Serves native scope') {e : Handle}
    (he : Reach heap.cell? [scope.chain] e) : e = heap.nilHandle ↔ f e = heap'.nilHandle := by
  constructor
  · rintro rfl
    exact h'.nil_eq _ (hf.bijOn.mapsTo he) (hf.cell?_rename he h.wellFormed.cell?_nil)
  · intro heq
    obtain ⟨c, hc⟩ := h.exists_cell? he
    have hc' := hf.cell?_rename he hc
    rw [heq, h'.wellFormed.cell?_nil] at hc'
    cases c with
    | nil => exact h.nil_eq e he hc
    | number | symbol | string | pair | native => cases hc'

/-- **Isomorphic graphs match.** -/
theorem match_of_isomorphism (h : heap.Serves native scope) (h' : heap'.Serves native scope')
    (hf : IsIsomorphism f heap scope.chain heap' scope'.chain) :
    (layouts native scope scope' heap heap').Match
      (IsIsomorphism.matching f heap scope.chain heap') heap heap' := by
  have hroot : Reach heap.cell? [scope.chain] scope.chain := .root List.mem_cons_self
  obtain ⟨frame, parent, hscope⟩ := h.exists_pair
  have hscope' := hf.cell?_rename hroot hscope
  rw [hf.root_eq] at hscope'
  refine ⟨h.wellFormed, h'.wellFormed, rfl, rfl, ?_, ?_, .inr ⟨rfl, rfl⟩, ?_,
    (scopeEnds_iff h.wellFormed h.isLive).mpr h.acyclic, False.elim, ?_⟩
  · rintro e e' (⟨he, rfl⟩ | ⟨rfl, rfl⟩)
    · obtain ⟨c, hc⟩ := h.exists_cell? he
      refine ⟨c, _, hc, hf.cell?_rename he hc, ?_⟩
      cases c with
      | nil => exact .nil
      | number value => exact .number value
      | symbol name => exact .symbol name
      | string value => exact .string value
      | native procedure => exact .native (h.natives e procedure he hc)
      | pair head tail => exact .pair (.inl ⟨he.head hc, rfl⟩) (.inl ⟨he.tail hc, rfl⟩)
    · exact ⟨.nil, .nil, h.wellFormed.cell?_nil, h'.wellFormed.cell?_nil, .nil⟩
  · have hjoined : ∀ {e e'}, (layouts native scope scope' heap heap').joined
        (IsIsomorphism.matching f heap scope.chain heap') e e' →
        IsIsomorphism.matching f heap scope.chain heap' e e' := by
      rintro e e' (he | ⟨rfl, rfl⟩)
      · exact he
      · exact .inl ⟨hroot, hf.root_eq.symm⟩
    intro e e' g g' he hg
    replace he := hjoined he
    replace hg := hjoined hg
    rcases he with ⟨he, rfl⟩ | ⟨rfl, rfl⟩ <;> rcases hg with ⟨hg, rfl⟩ | ⟨rfl, rfl⟩
    · exact (hf.bijOn.injOn.eq_iff he hg).symm
    · exact hf.nil_iff h h' he
    · rw [eq_comm, hf.nil_iff h h' hg, eq_comm]
    · simp
  · exact ⟨frame, parent, f frame, f parent, hscope, hscope', .inl ⟨hroot.head hscope, rfl⟩,
      .inl ⟨hroot.tail hscope, rfl⟩⟩
  · rintro - e e' (⟨he, -⟩ | ⟨rfl, -⟩) hc
    · exact h.nil_eq e he hc
    · rfl

end Heap

/-! ## What matches is isomorphic -/

namespace Layouts.Match

open Heap

variable {κ : Type} {l : Layouts κ} {ρ : Matching} {heap heap' : Heap κ} {e e' : Handle}

/-- Joined handles name matching cells. -/
theorem joined_cells (h : l.Match ρ heap heap') (he : l.joined ρ e e') :
    ∃ c c', heap.cell? e = some c ∧ heap'.cell? e' = some c' ∧ c.Matches l.native ρ c' := by
  rcases he with he | ⟨rfl, rfl⟩
  · exact h.cells e e' he
  · obtain ⟨_, _, _, _, hc, hc', hframe, hparent⟩ := h.frames
    exact ⟨_, _, hc, hc', .pair hframe hparent⟩

/-- What the first scope reaches is joined with what the second reaches. -/
theorem exists_joined (h : l.Match ρ heap heap') (he : Reach heap.cell? [l.scope.chain] e) :
    ∃ e', l.joined ρ e e' ∧ Reach heap'.cell? [l.scope'.chain] e' := by
  have hparts : ∀ {e e' head tail : Handle}, l.joined ρ e e' →
      heap.cell? e = some (.pair head tail) → ∃ head' tail',
        heap'.cell? e' = some (.pair head' tail') ∧ ρ head head' ∧ ρ tail tail' := by
    intro e e' head tail hjoined hc
    obtain ⟨c, c', hd, hc', hmatch⟩ := h.joined_cells hjoined
    cases hc.symm.trans hd
    obtain ⟨head', tail', rfl, hhead, htail⟩ := hmatch.exists_pair
    exact ⟨head', tail', hc', hhead, htail⟩
  induction he with
  | root he =>
    rw [List.mem_singleton.mp he]
    exact ⟨l.scope'.chain, .inr ⟨rfl, rfl⟩, .root List.mem_cons_self⟩
  | head _ hc ih =>
    obtain ⟨e', hjoined, he'⟩ := ih
    obtain ⟨head', tail', hc', hhead, -⟩ := hparts hjoined hc
    exact ⟨head', .inl hhead, he'.head hc'⟩
  | tail _ hc ih =>
    obtain ⟨e', hjoined, he'⟩ := ih
    obtain ⟨head', tail', hc', -, htail⟩ := hparts hjoined hc
    exact ⟨tail', .inl htail, he'.tail hc'⟩

/-- **What matches is isomorphic.** -/
theorem isomorphism (h : l.Match ρ heap heap') :
    ∃ f, IsIsomorphism f heap l.scope.chain heap' l.scope'.chain := by
  classical
  let f : Handle → Handle := fun e => if he : ∃ e', l.joined ρ e e' then he.choose else e
  have hjoins : ∀ {e e'}, l.joined ρ e e' → f e = e' := by
    intro e e' hjoined
    have hex : ∃ e', l.joined ρ e e' := ⟨e', hjoined⟩
    have hf : f e = hex.choose := dif_pos hex
    rw [hf]
    exact (h.unique _ _ _ _ hex.choose_spec hjoined).mp rfl
  refine ⟨f, ⟨fun e he => ?_, fun e he g hg hsame => ?_, fun e' he' => ?_⟩,
    hjoins (.inr ⟨rfl, rfl⟩), fun e he => ?_⟩
  · obtain ⟨e', hjoined, he'⟩ := h.exists_joined he
    rwa [Set.mem_ofPred_eq, hjoins hjoined]
  · obtain ⟨e', hjoined, -⟩ := h.exists_joined he
    obtain ⟨g', hjoined', -⟩ := h.exists_joined hg
    rw [hjoins hjoined, hjoins hjoined'] at hsame
    exact (h.unique _ _ _ _ hjoined hjoined').mpr hsame
  · obtain ⟨e, hjoined, he⟩ := h.symm.exists_joined he'
    refine ⟨e, he, hjoins ?_⟩
    rcases hjoined with hjoined | ⟨rfl, rfl⟩
    · exact .inl hjoined
    · exact .inr ⟨rfl, rfl⟩
  · obtain ⟨e', hjoined, -⟩ := h.exists_joined he
    obtain ⟨c, c', hc, hc', hmatch⟩ := h.joined_cells hjoined
    rw [hjoins hjoined, hc, hc']
    cases hmatch with
    | pair hhead htail =>
      show _ = some (Cell.pair (f _) (f _))
      rw [hjoins (.inl hhead), hjoins (.inl htail)]
    | nil | number | symbol | string | native => rfl

/-- A heap that matches another serves the scope. -/
theorem serves (h : l.Match ρ heap heap') (hsingle : l.single) :
    heap.Serves l.native l.scope := by
  obtain ⟨frame, parent, _, _, hscope, -⟩ := h.frames
  have hmatched : ∀ {e : Handle} {c : Cell κ}, c.pair? = none →
      Reach heap.cell? [l.scope.chain] e → heap.cell? e = some c → ∃ e', ρ e e' := by
    intro e c hp he hc
    obtain ⟨e', hjoined | ⟨rfl, -⟩, -⟩ := h.exists_joined he
    · exact ⟨e', hjoined⟩
    · cases hscope.symm.trans hc
      cases hp
  refine ⟨h.wellFormed, ⟨frame, parent, hscope⟩,
    (scopeEnds_iff h.wellFormed h.scope_isLive).mp h.ends, fun e procedure he hc => ?_,
    fun e he hc => ?_⟩
  · obtain ⟨e', hρ⟩ := hmatched rfl he hc
    obtain ⟨c', -, hmatch⟩ := h.cell?_right hρ hc
    cases hmatch
    assumption
  · obtain ⟨e', hρ⟩ := hmatched rfl he hc
    exact h.nil_eq hsingle e e' hρ hc

end Layouts.Match

/-! ## Collections -/

namespace Heap

variable {κ : Type} {heap heap₁ heap' heap₁' : Heap κ} {native : Native κ → Prop} {scope : Scope}
  {root root' : Handle}

theorem Collects.tailOf_le {roots : List Handle} (h : heap.Collects roots heap₁) :
    heap₁.TailOf ≤ heap.TailOf :=
  fun _ _ ⟨head, hc⟩ => ⟨head, h.cell?_of_some hc⟩

/-- Where there are fewer tails there is no new way back. -/
theorem Acyclic.anti {e : Handle} (h : heap.Acyclic e) (hsub : heap₁.TailOf ≤ heap.TailOf) :
    heap₁.Acyclic e :=
  fun f hreach hcycle => h f (Relation.ReflTransGen.mono hsub _ _ hreach)
    (Relation.TransGen.mono hsub _ _ hcycle)

/-- A collection leaves a heap that serves the scope. -/
theorem Serves.collect (h : heap.Serves native scope) (hc : heap.Collects [scope.chain] heap₁)
    (w₁ : heap₁.WellFormed) : heap₁.Serves native scope := by
  have hroot : Reach heap.cell? [scope.chain] scope.chain := .root List.mem_cons_self
  obtain ⟨frame, parent, hscope⟩ := h.exists_pair
  refine ⟨w₁, ⟨frame, parent, (hc.cell?_eq_of_reach hroot).trans hscope⟩,
    ⟨h.acyclic.chain_acyclic.anti hc.tailOf_le, fun e frame parent hreach hd => ?_⟩,
    fun e procedure he hd => h.natives e procedure ((hc.reach_iff e).mp he) (hc.cell?_of_some hd),
    fun e he hd => ?_⟩
  · have hreach' := Relation.ReflTransGen.mono hc.tailOf_le _ _ hreach
    exact (h.acyclic.frame_acyclic e frame parent hreach' (hc.cell?_of_some hd)).anti hc.tailOf_le
  · rw [nilHandle, hc.id_eq]
    exact h.nil_eq e ((hc.reach_iff e).mp he) (hc.cell?_of_some hd)

/-- Collections on both sides leave an isomorphism. -/
theorem IsIsomorphism.collect {f : Handle → Handle} (h : IsIsomorphism f heap root heap' root')
    (hc : heap.Collects [root] heap₁) (hc' : heap'.Collects [root'] heap₁') :
    IsIsomorphism f heap₁ root heap₁' root' := by
  have hset : {e | Reach heap₁.cell? [root] e} = {e | Reach heap.cell? [root] e} :=
    Set.ext hc.reach_iff
  have hset' : {e | Reach heap₁'.cell? [root'] e} = {e | Reach heap'.cell? [root'] e} :=
    Set.ext hc'.reach_iff
  refine ⟨?_, h.root_eq, fun e he => ?_⟩
  · rw [hset, hset']
    exact h.bijOn
  · have he := (hc.reach_iff e).mp he
    rw [hc.cell?_eq_of_reach he, hc'.cell?_eq_of_reach (h.bijOn.mapsTo he)]
    exact h.cell?_eq e he

end Heap

end ConsoleLisp
