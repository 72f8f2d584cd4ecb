import ConsoleLisp.Native.Set
import ConsoleLisp.Proofs.Heap.Additions
import ConsoleLisp.Proofs.Value.Unfolding

/-!
# Requests that build no cycle

A new pair stands above its parts, so allocations alone build no cycle. The one replacement that a
session asks for is that of the frame of its root scope, and no pair has the root scope as a part.
`Sealed` is what such requests keep; slots are used again, so the order in which pairs are made is
not that of their slots, and `Sealed` asks only that taking parts comes to an end.

Results:
* `Updates.founded`: a cell that is part of nothing is written.
* **`Sealed.perform`**: a tame request keeps a heap sealed.
* `Act.Abides.bind`: a sequence abides by what its parts abide by.
* `list_abides`, `read_abides`, `bind_abides`, `collect_abides`: the actions of a session on its
  heap, as sequences of tame requests.
-/

namespace ConsoleLisp

/-! ## Contracts of actions -/

namespace Act

variable {ε σ α β : Type}

/-- Where `I` holds, the action ends in a state that `R` relates, and what it returns is as `P`
says. -/
def Abides (I : σ → Prop) (R : σ → σ → Prop) (x : Act ε σ α) (P : α → Prop) : Prop :=
  ∀ s, I s → R s (x s).2 ∧ ∀ a, (x s).1 = .ok a → P a

/-- Contracts that hold one after another. -/
structure Regime (I : σ → Prop) (R : σ → σ → Prop) : Prop where
  refl (s : σ) : R s s
  trans {s s' s'' : σ} : R s s' → R s' s'' → R s s''
  keep {s s' : σ} : I s → R s s' → I s'

namespace Abides

variable {I : σ → Prop} {R : σ → σ → Prop} {P P' : α → Prop} {Q : β → Prop}

theorem pure (r : Regime I R) {a : α} (h : P a) : Abides I R (pure a : Act ε σ α) P := by
  refine fun s _ => ⟨r.refl s, fun b hb => ?_⟩
  cases hb
  exact h

theorem throw (r : Regime I R) (e : ε) : Abides I R (throw e : Act ε σ α) P :=
  fun s _ => ⟨r.refl s, nofun⟩

theorem imp {x : Act ε σ α} (hx : Abides I R x P) (h : ∀ a, P a → P' a) : Abides I R x P' :=
  fun s hs => ⟨(hx s hs).1, fun a ha => h a ((hx s hs).2 a ha)⟩

/-- **A sequence abides by what its parts abide by.** -/
theorem bind (r : Regime I R) {x : Act ε σ α} {f : α → Act ε σ β} (hx : Abides I R x P)
    (hf : ∀ a, P a → Abides I R (f a) Q) : Abides I R (x >>= f) Q := by
  intro s hs
  obtain ⟨hR, hP⟩ := hx s hs
  rw [run_bind]
  rcases hrun : x s with ⟨e | a, s'⟩ <;> rw [hrun] at hR hP
  · exact ⟨hR, nofun⟩
  · obtain ⟨hR', hQ⟩ := hf a (hP a rfl) s' (r.keep hs hR)
    exact ⟨r.trans hR hR', hQ⟩

end Abides

end Act

namespace Heap

variable {κ α : Type}

/-! ## Sealed heaps -/

/-- The root scope is a pair that is part of no other, taking parts comes to an end everywhere, and
there are no natives but these. -/
structure Sealed (allowed : Native κ → Prop) (root : Handle) (heap : Heap κ) : Prop where
  wellFormed : heap.WellFormed
  natives : ∀ e procedure, heap.cell? e = some (.native procedure) → allowed procedure
  root_pair : ∃ frame parent, heap.cell? root = some (.pair frame parent)
  not_part : ∀ e, ¬ heap.PartOf root e
  founded : WellFounded heap.PartOf

/-- Requests that keep a heap sealed. -/
def Request.IsTame (allowed : Native κ → Prop) (root : Handle) : Request κ → Prop
  | nil | number _ | symbol _ | string _ => True
  | pair head tail => head ≠ root ∧ tail ≠ root
  | native procedure => allowed procedure
  | setPart part e value => part = .head ∧ e = root ∧ value ≠ root
  | collect roots => root ∈ roots
  | destroy => False

section Sealed

variable {allowed : Native κ → Prop} {root : Handle} {heap heap' : Heap κ}

theorem PartOf.isLive (w : heap.WellFormed) {part e : Handle} (h : heap.PartOf part e) :
    heap.isLive part = true := by
  obtain ⟨head, tail, hc, rfl | rfl⟩ := h
  · exact (w.parts_isLive hc).1
  · exact (w.parts_isLive hc).2

/-- Where another cell is written, parts are what they were. -/
theorem Updates.partOf_of_ne {e f part : Handle} {cell : Cell κ} (hu : heap.Updates e cell heap')
    (hf : f ≠ e) (h : heap'.PartOf part f) : heap.PartOf part f := by
  obtain ⟨head, tail, hc, hpart⟩ := h
  rw [hu.cell?_eq, if_neg hf] at hc
  exact ⟨head, tail, hc, hpart⟩

/-- The parts of what is written. -/
theorem Updates.partOf_self {e part : Handle} {cell : Cell κ} (hu : heap.Updates e cell heap')
    (h : heap'.PartOf part e) :
    ∃ head tail, cell = .pair head tail ∧ (part = head ∨ part = tail) := by
  obtain ⟨head, tail, hc, hpart⟩ := h
  rw [hu.cell?_eq, if_pos rfl] at hc
  exact ⟨head, tail, Option.some.inj hc, hpart⟩

/-- **Taking parts still comes to an end** when a cell is written that is part of nothing, itself
included. -/
theorem Updates.founded {e : Handle} {cell : Cell κ} (hu : heap.Updates e cell heap')
    (hfounded : WellFounded heap.PartOf) (hpart : ∀ f, ¬ heap.PartOf e f)
    (hparts : ∀ head tail, cell = .pair head tail → head ≠ e ∧ tail ≠ e) :
    WellFounded heap'.PartOf := by
  -- from any other cell the written one is not reached
  have hold : ∀ f, f ≠ e → Acc heap'.PartOf f := by
    intro f
    induction f using hfounded.induction with
    | _ f ih =>
      intro hf
      refine ⟨_, fun part hp => ?_⟩
      have hp := hu.partOf_of_ne hf hp
      refine ih part hp ?_
      rintro rfl
      exact hpart f hp
  refine ⟨fun f => ?_⟩
  by_cases hf : f = e
  · rw [hf]
    refine ⟨_, fun part hp => hold part ?_⟩
    obtain ⟨head, tail, heq, rfl | rfl⟩ := hu.partOf_self hp
    · exact (hparts _ _ heq).1
    · exact (hparts _ _ heq).2
  · exact hold f hf

namespace Sealed

/-- Nothing contains itself. -/
theorem not_transGen (h : heap.Sealed allowed root) (e : Handle) :
    ¬ Relation.TransGen heap.PartOf e e :=
  h.founded.transGen.irrefl.irrefl e

/-- **The root scope is reached from itself only.** -/
theorem not_reach (h : heap.Sealed allowed root) {e : Handle} (he : e ≠ root) :
    ¬ Reach heap.cell? [e] root := by
  have hnot : ∀ {f : Handle}, Reach heap.cell? [e] f → f ≠ root := by
    intro f hf
    cases hf with
    | root hroot =>
      rw [List.mem_singleton.mp hroot]
      exact he
    | head _ hc =>
      rintro rfl
      exact h.not_part _ ⟨_, _, hc, .inl rfl⟩
    | tail _ hc =>
      rintro rfl
      exact h.not_part _ ⟨_, _, hc, .inr rfl⟩
  exact fun hreach => hnot hreach rfl

/-- The parts of a pair are not the root scope. -/
theorem parts_ne (h : heap.Sealed allowed root) {e head tail : Handle}
    (hc : heap.cell? e = some (.pair head tail)) : head ≠ root ∧ tail ≠ root := by
  constructor
  · rintro rfl
    exact h.not_part e ⟨_, _, hc, .inl rfl⟩
  · rintro rfl
    exact h.not_part e ⟨_, _, hc, .inr rfl⟩

/-- What is no pair, or not there, is not the root scope. -/
theorem ne_root (h : heap.Sealed allowed root) {e : Handle}
    (he : ∀ head tail, heap.cell? e ≠ some (.pair head tail)) : e ≠ root := by
  rintro rfl
  obtain ⟨frame, parent, hc⟩ := h.root_pair
  exact he frame parent hc

/-- One cell is written that is part of nothing. -/
theorem update (h : heap.Sealed allowed root) {e : Handle} {cell : Cell κ}
    (hu : heap.Updates e cell heap') (w' : heap'.WellFormed) (hpart : ∀ f, ¬ heap.PartOf e f)
    (hnative : ∀ procedure, cell = .native procedure → allowed procedure)
    (hroot : e = root → ∃ frame parent, cell = .pair frame parent)
    (hparts : ∀ head tail, cell = .pair head tail →
      (head ≠ e ∧ tail ≠ e) ∧ head ≠ root ∧ tail ≠ root) : heap'.Sealed allowed root := by
  have hfounded : WellFounded heap'.PartOf :=
    hu.founded h.founded hpart fun head tail heq => (hparts head tail heq).1
  refine ⟨w', fun f procedure hc => ?_, ?_, fun f hp => ?_, hfounded⟩
  · rw [hu.cell?_eq] at hc
    split at hc
    · exact hnative procedure (Option.some.inj hc)
    · exact h.natives f procedure hc
  · by_cases heq : e = root
    · obtain ⟨frame, parent, rfl⟩ := hroot heq
      exact ⟨frame, parent, (hu.cell?_eq root).trans (if_pos heq.symm)⟩
    · obtain ⟨frame, parent, hc⟩ := h.root_pair
      exact ⟨frame, parent, (hu.cell?_eq root).trans (if_neg (Ne.symm heq) ▸ hc)⟩
  · by_cases hf : f = e
    · obtain ⟨head, tail, heq, hp⟩ := hu.partOf_self (hf ▸ hp)
      obtain ⟨-, hhead, htail⟩ := hparts head tail heq
      rcases hp with rfl | rfl
      · exact hhead rfl
      · exact htail rfl
    · exact h.not_part f (hu.partOf_of_ne hf hp)

/-- A new cell whose parts were live and not the root scope. -/
theorem allocate (h : heap.Sealed allowed root) {e : Handle} {cell : Cell κ}
    (hnew : heap.cell? e = none) (hu : heap.Updates e cell heap') (w' : heap'.WellFormed)
    (hnative : ∀ procedure, cell = .native procedure → allowed procedure)
    (hparts : ∀ head tail, cell = .pair head tail →
      heap.PartsLive cell ∧ head ≠ root ∧ tail ≠ root) : heap'.Sealed allowed root := by
  have hlive : ∀ {f : Handle}, heap.isLive f = true → f ≠ e := by
    rintro f hf rfl
    obtain ⟨c, hc⟩ := isLive_iff.mp hf
    cases hnew.symm.trans hc
  refine h.update hu w' (fun f hp => hlive (hp.isLive h.wellFormed) rfl) hnative ?_ ?_
  · rintro rfl
    obtain ⟨frame, parent, hc⟩ := h.root_pair
    exact absurd rfl (hlive (isLive_of_cell? hc))
  · intro head tail heq
    obtain ⟨hlives, hne⟩ := hparts head tail heq
    obtain ⟨hhead, htail⟩ := hlives head tail heq
    exact ⟨⟨hlive hhead, hlive htail⟩, hne⟩

/-- The root scope with another frame. -/
theorem replaceFrame (h : heap.Sealed allowed root) {frame parent value : Handle}
    (hc : heap.cell? root = some (.pair frame parent)) (hvalue : value ≠ root)
    (hu : heap.Updates root (.pair value parent) heap') (w' : heap'.WellFormed) :
    heap'.Sealed allowed root := by
  have hparent := (h.parts_ne hc).2
  refine h.update hu w' h.not_part nofun (fun _ => ⟨value, parent, rfl⟩) ?_
  rintro _ _ ⟨⟩
  exact ⟨⟨hvalue, hparent⟩, hvalue, hparent⟩

/-- Cells that are taken away, the root scope not among them. -/
theorem collect (h : heap.Sealed allowed root) {roots : List Handle} (hroot : root ∈ roots)
    (hc : heap.Collects roots heap') (w' : heap'.WellFormed) : heap'.Sealed allowed root := by
  have hcell : ∀ {f : Handle} {c : Cell κ}, heap'.cell? f = some c → heap.cell? f = some c := by
    intro f c hf
    by_cases hreach : heap.Reaches roots f
    · rw [← hc.cell?_eq f hreach, hf]
    · cases (hc.cell?_eq_none f hreach).symm.trans hf
  have hpart : ∀ {part f : Handle}, heap'.PartOf part f → heap.PartOf part f := by
    rintro part f ⟨head, tail, hf, hp⟩
    exact ⟨head, tail, hcell hf, hp⟩
  obtain ⟨frame, parent, hpair⟩ := h.root_pair
  have hkept : heap.Reaches roots root := .root (List.mem_cons_of_mem _ hroot)
  exact ⟨w', fun f procedure hf => h.natives f procedure (hcell hf),
    ⟨frame, parent, (hc.cell?_eq root hkept).trans hpair⟩, fun f hf => h.not_part f (hpart hf),
    Subrelation.wf hpart h.founded⟩

/-- **A tame request keeps a heap sealed.** -/
theorem perform (h : heap.Sealed allowed root) {request : Request κ}
    (ht : request.IsTame allowed root) : (request.perform heap).2.Sealed allowed root := by
  rcases hrun : request.perform heap with ⟨answer, heap'⟩
  have heffect : Effect heap request answer heap' := by
    have heffect := perform_effect h.wellFormed request
    rw [hrun] at heffect
    exact heffect
  show heap'.Sealed allowed root
  cases heffect with
  | refused | nil => exact h
  | destroyed => exact ht.elim
  | collected _ hc w' => exact h.collect ht hc w'
  | replaced hc hu w' =>
    obtain ⟨rfl, rfl, hvalue⟩ := ht
    exact h.replaceFrame hc hvalue hu w'
  | @allocated _ cell e _ hcell hnew hu w' =>
    refine h.allocate hnew hu w' (fun procedure heq => ?_) fun head tail heq => ?_
    · subst heq
      cases request <;> cases hcell
      exact ht
    · subst heq
      cases request <;> cases hcell
      rcases pair_cases heap head tail with ⟨fault, hfault⟩ | ⟨hhead, htail⟩
      · cases hrun.symm.trans (Act.run_map_error hfault)
      · refine ⟨fun head' tail' heq => ?_, ht⟩
        cases heq
        exact ⟨hhead, htail⟩

/-- What a request gives out is not the root scope. -/
theorem answer_ne (h : heap.Sealed allowed root) (request : Request κ) {e : Handle}
    (hrun : (request.perform heap).1 = .ok (.handle e)) : e ≠ root := by
  have heffect := perform_effect h.wellFormed request
  rw [hrun] at heffect
  generalize (request.perform heap).2 = heap' at heffect
  cases heffect with
  | nil =>
    refine h.ne_root fun head tail hc => ?_
    cases h.wellFormed.cell?_nil.symm.trans hc
  | allocated _ hnew =>
    refine h.ne_root fun head tail hc => ?_
    cases hnew.symm.trans hc

end Sealed

/-! ## Sequences of tame requests -/

/-- One request, which leaves the heap sealed. -/
def Requested (allowed : Native κ → Prop) (root : Handle) (heap heap' : Heap κ) : Prop :=
  ∃ request : Request κ, (request.perform heap).2 = heap' ∧ heap'.Sealed allowed root

/-- Requests one after another, each of which leaves the heap sealed. -/
abbrev Leads (allowed : Native κ → Prop) (root : Handle) : Heap κ → Heap κ → Prop :=
  Relation.ReflTransGen (Requested allowed root)

theorem Leads.seal (hl : Leads allowed root heap heap') (h : heap.Sealed allowed root) :
    heap'.Sealed allowed root := by
  cases hl with
  | refl => exact h
  | tail _ hlast =>
    obtain ⟨_, -, h'⟩ := hlast
    exact h'

theorem leads_regime (allowed : Native κ → Prop) (root : Handle) :
    Act.Regime (fun heap : Heap κ => heap.Sealed allowed root) (Leads allowed root) where
  refl _ := .refl
  trans := .trans
  keep h hl := hl.seal h

/-- The action is a sequence of requests that keep heaps sealed. -/
abbrev Abides (allowed : Native κ → Prop) (root : Handle) (x : HeapM κ α) (P : α → Prop) : Prop :=
  Act.Abides (fun heap => heap.Sealed allowed root) (Leads allowed root) x P

theorem Abides.pure {a : α} {P : α → Prop} (h : P a) :
    Abides allowed root (pure a : HeapM κ α) P :=
  Act.Abides.pure (leads_regime allowed root) h

theorem Abides.bind {β : Type} {x : HeapM κ α} {f : α → HeapM κ β} {P : α → Prop} {Q : β → Prop}
    (hx : Abides allowed root x P) (hf : ∀ a, P a → Abides allowed root (f a) Q) :
    Abides allowed root (x >>= f) Q :=
  Act.Abides.bind (leads_regime allowed root) hx hf

/-! ### Single requests -/

/-- An action that is a tame request. -/
theorem abides_of_request (request : Request κ) {x : HeapM κ α} {f : α → Answer}
    (ht : request.IsTame allowed root) (hx : request.perform = f <$> x) :
    Abides allowed root x fun a => ∀ e, f a = .handle e → e ≠ root := by
  intro heap h
  have hrun : request.perform heap = ((x heap).1.map f, (x heap).2) := by
    rw [hx]
    rcases hx : x heap with ⟨_ | a, heap'⟩
    · exact Act.run_map_error hx
    · exact Act.run_map_ok hx
  refine ⟨.single ⟨request, congrArg Prod.snd hrun, ?_⟩, fun a ha e he => ?_⟩
  · have hsealed := h.perform ht
    rw [hrun] at hsealed
    exact hsealed
  · refine h.answer_ne request ?_
    rw [hrun, ha, ← he]
    rfl

/-- A tame request that gives out a handle. -/
theorem handle_abides (request : Request κ) {x : HeapM κ Handle}
    (ht : request.IsTame allowed root) (hx : request.perform = Answer.handle <$> x) :
    Abides allowed root x (· ≠ root) :=
  (abides_of_request request ht hx).imp fun e he => he e rfl

theorem nil_abides : Abides allowed root (nil : HeapM κ Handle) (· ≠ root) :=
  handle_abides .nil trivial rfl

theorem pair_abides {head tail : Handle} (hhead : head ≠ root) (htail : tail ≠ root) :
    Abides allowed root (pair head tail : HeapM κ Handle) (· ≠ root) :=
  handle_abides (.pair head tail) ⟨hhead, htail⟩ rfl

theorem setHead_abides {value : Handle} (hvalue : value ≠ root) :
    Abides allowed root (setHead root value : HeapM κ Unit) fun _ => True :=
  (abides_of_request (.setPart .head root value) ⟨rfl, rfl, hvalue⟩ rfl).imp
    fun _ _ => trivial

theorem collect_abides {roots : List Handle} (hroot : root ∈ roots) :
    Abides allowed root (Heap.collect roots : HeapM κ Collected) fun _ => True :=
  (abides_of_request (.collect roots) hroot rfl).imp fun _ _ => trivial

/-- Looking asks for nothing. -/
theorem view_abides {f : Heap κ → Except Fault α} {P : α → Prop}
    (h : ∀ heap, heap.Sealed allowed root → ∀ a, f heap = .ok a → P a) :
    Abides allowed root (view f) P :=
  fun heap hsealed => ⟨.refl, fun a ha => h heap hsealed a ha⟩

/-! ### Lists, data and bindings -/

theorem listOnto_abides {items : List Handle} (hitems : ∀ e ∈ items, e ≠ root) {tail : Handle}
    (htail : tail ≠ root) :
    Abides allowed root (listOnto items tail : HeapM κ Handle) (· ≠ root) := by
  induction items with
  | nil => exact .pure htail
  | cons e rest ih =>
    obtain ⟨he, hrest⟩ := List.forall_mem_cons.mp hitems
    rw [listOnto, List.foldrM_cons]
    exact (ih hrest).bind fun _ htail => pair_abides he htail

theorem list_abides {items : List Handle} (hitems : ∀ e ∈ items, e ≠ root) :
    Abides allowed root (Heap.list items : HeapM κ Handle) (· ≠ root) :=
  nil_abides.bind fun _ hnil => listOnto_abides hitems hnil

/-- A datum is loaded bottom up. By induction on the datum. -/
theorem load_abides (datum : Datum) :
    Abides allowed root (load datum : HeapM κ Handle) (· ≠ root) := by
  induction datum with
  | nil => exact nil_abides
  | number value => exact handle_abides (.number value) trivial rfl
  | symbol name => exact handle_abides (.symbol name) trivial rfl
  | string value => exact handle_abides (.string value) trivial rfl
  | quoted datum ih =>
    unfold load
    refine ih.bind fun quoted hquoted => ?_
    refine (handle_abides (.symbol (text "quote")) trivial rfl).bind fun word hword => ?_
    exact list_abides (List.forall_mem_cons.mpr ⟨hword, List.forall_mem_singleton.mpr hquoted⟩)
  | cons head tail ihhead ihtail =>
    unfold load
    refine ihhead.bind fun head hhead => ?_
    exact ihtail.bind fun tail htail => pair_abides hhead htail

theorem loadAll_abides (data : List Datum) :
    Abides allowed root (data.forM fun datum => discard (load datum) : HeapM κ Unit)
      fun _ => True := by
  induction data with
  | nil => exact .pure trivial
  | cons datum rest ih =>
    have hfirst : Abides allowed root (discard (load datum) : HeapM κ Unit) fun _ => True :=
      (load_abides datum).bind fun _ _ =>
        .pure trivial
    exact hfirst.bind fun _ _ => ih

/-- What is read is not the root scope. -/
theorem read_abides (source : Text) :
    Abides allowed root (read source : HeapM κ (Except ReadError (Handle × Nat)))
      fun result => ∀ e stop, result = .ok (e, stop) → e ≠ root := by
  unfold read
  cases readDatum source with
  | ok found =>
    refine (load_abides found.1).bind fun e he =>
      .pure ?_
    rintro _ _ ⟨⟩
    exact he
  | error failure =>
    exact (loadAll_abides failure.completed).bind fun _ _ =>
      .pure nofun

/-- **A binding in the root scope**: two pairs, and then the frame of the root scope. -/
theorem bind_abides {symbol value : Handle} (hsymbol : symbol ≠ root) (hvalue : value ≠ root) :
    Abides allowed root (Scope.bind ⟨root⟩ symbol value : HeapM κ Unit) fun _ => True := by
  intro heap h
  rcases bind_cases heap ⟨root⟩ symbol value with ⟨fault, hfault⟩ | ⟨name, frame, parent, hs, hf, -⟩
  · rw [hfault]
    exact ⟨.refl, nofun⟩
  · rw [bind_eq hs hf]
    refine Abides.bind (pair_abides hsymbol hvalue) (fun binding hbinding => ?_) heap h
    exact (pair_abides hbinding (h.parts_ne hf).1).bind fun front hfront => setHead_abides hfront

end Sealed

end Heap

end ConsoleLisp
