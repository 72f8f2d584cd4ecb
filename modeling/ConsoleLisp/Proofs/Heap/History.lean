import ConsoleLisp.Proofs.Heap.Run

/-!
# What a handle means over time

The past of a run decides, without looking at the heap, which handles were issued, what each was
given to hold (`contents`) and which collections reclaimed it (`Reclaimed`). `Ledger` ties this
record to the heap. Its last field is what rules out aliasing: a handle that was issued and is no
longer live has a generation below the present one of its slot, so the slot's next handle is a new
one.

Results:
* **`Run.ledger`**: the record of a run agrees with the heap.
* `Run.unique`: the past decides the heap.
* `no_aliasing`: no place is issued twice, and a handle is accepted, as what it was issued for,
  exactly until it is reclaimed.
-/

namespace ConsoleLisp

namespace Heap

variable {κ : Type}

/-! ## The record of a run -/

/-- The handle that an exchange issued for a new allocation. -/
def issuedBy : Exchange κ → Option Handle
  | (request, .ok (.handle e)) => request.cell?.map fun _ => e
  | _ => none

/-- The handles issued, the latest in front; that of nil comes with the heap. -/
def issued (id : Nat) (past : List (Exchange κ)) : List Handle :=
  past.filterMap issuedBy ++ [⟨id, 0, 0⟩]

/-- A cell with one part replaced, if it is a pair. -/
def withPart (part : PairPart) (value : Handle) : Cell κ → Cell κ
  | .pair head tail => replacePart part value head tail
  | cell => cell

/-- What each handle was given to hold: the cell it was issued for and, for a pair, the parts it was
given since. -/
def contents (id : Nat) : List (Exchange κ) → Handle → Option (Cell κ)
  | [], e => if e = ⟨id, 0, 0⟩ then some .nil else none
  | (request, answer) :: past, e =>
    match request, answer with
    | .setPart part f value, .ok _ =>
      if e = f then (contents id past e).map (withPart part value) else contents id past e
    | request, .ok (.handle f) =>
      if e = f then request.cell? <|> contents id past e else contents id past e
    | _, _ => contents id past e

/-- Some collection reclaimed the handle: it was issued and could not be reached from nil and the
roots over the parts that pairs held then. -/
def Reclaimed (id : Nat) : List (Exchange κ) → Handle → Prop
  | [], _ => False
  | (.collect roots, .ok _) :: past, e =>
    Reclaimed id past e ∨
      e ∈ issued id past ∧ ¬ Reach (contents id past) (⟨id, 0, 0⟩ :: roots) e
  | _ :: past, e => Reclaimed id past e

section Record

variable {id : Nat} {past : List (Exchange κ)} {request : Request κ} {answer : Except Fault Answer}

theorem issued_cons_none (h : issuedBy (request, answer) = none) :
    issued id ((request, answer) :: past) = issued id past := by
  rw [issued, List.filterMap_cons_none h]
  rfl

/-- An allocation that returns issues what it returns. -/
theorem issuedBy_of_cell? {cell : Cell κ} {e : Handle} (h : request.cell? = some cell) :
    issuedBy (request, .ok (.handle e)) = some e := by
  rw [issuedBy, h]
  rfl

theorem issued_cons_of_issuedBy {x : Exchange κ} {e : Handle} (h : issuedBy x = some e) :
    issued id (x :: past) = e :: issued id past := by
  rw [issued, List.filterMap_cons_some h]
  rfl

theorem issued_cons_some {cell : Cell κ} {e : Handle} (h : request.cell? = some cell) :
    issued id ((request, .ok (.handle e)) :: past) = e :: issued id past :=
  issued_cons_of_issuedBy (issuedBy_of_cell? h)

theorem contents_cons_allocated {cell : Cell κ} {e : Handle} (h : request.cell? = some cell)
    (f : Handle) : contents id ((request, .ok (.handle e)) :: past) f =
      if f = e then some cell else contents id past f := by
  cases request <;> cases h <;> rfl

theorem reclaimed_cons_allocated {cell : Cell κ} (h : request.cell? = some cell) (f : Handle) :
    Reclaimed id ((request, answer) :: past) f = Reclaimed id past f := by
  cases request <;> cases h <;> rfl

/-- A refusal leaves no trace in the record. -/
theorem contents_cons_refused (fault : Fault) (f : Handle) :
    contents id ((request, .error fault) :: past) f = contents id past f := by
  cases request <;> rfl

theorem reclaimed_cons_refused (fault : Fault) (f : Handle) :
    Reclaimed id ((request, .error fault) :: past) f = Reclaimed id past f := by
  cases request <;> rfl

/-- What was reclaimed stays reclaimed. -/
theorem Reclaimed.cons {e : Handle} (h : Reclaimed id past e) (x : Exchange κ) :
    Reclaimed id (x :: past) e := by
  obtain ⟨request, answer⟩ := x
  cases request with
  | collect roots =>
    cases answer with
    | error => exact h
    | ok => exact Or.inl h
  | nil | number | symbol | string | pair | native | setPart | destroy => exact h

theorem mem_issued_cons {e : Handle} (h : e ∈ issued id past) (x : Exchange κ) :
    e ∈ issued id (x :: past) := by
  rw [issued, List.filterMap_cons]
  split
  · exact h
  · exact List.mem_cons_of_mem _ h

theorem mem_issued_append {e : Handle} (h : e ∈ issued id past) (later : List (Exchange κ)) :
    e ∈ issued id (later ++ past) := by
  induction later with
  | nil => exact h
  | cons x later ih => exact mem_issued_cons ih x

/-- Only what was issued is reclaimed. -/
theorem Reclaimed.issued {e : Handle} (h : Reclaimed id past e) : e ∈ issued id past := by
  induction past with
  | nil => exact h.elim
  | cons x past ih =>
    obtain ⟨request, answer⟩ := x
    refine mem_issued_cons ?_ _
    cases request with
    | collect roots =>
      cases answer with
      | error => exact ih h
      | ok => exact h.elim ih And.left
    | nil | number | symbol | string | pair | native | setPart | destroy => exact ih h

theorem Reclaimed.append {e : Handle} (h : Reclaimed id past e) (later : List (Exchange κ)) :
    Reclaimed id (later ++ past) e := by
  induction later with
  | nil => exact h
  | cons x later ih => exact ih.cons x

end Record

/-! ## The record and the heap -/

/-- Slot and generation of a handle. -/
def place (e : Handle) : Int × Int := (e.slot, e.generation)

/-- The record of a run agrees with the heap. -/
structure Ledger (id : Nat) (past : List (Exchange κ)) (heap : Heap κ) : Prop where
  id_eq : heap.id = id
  heap_eq : ∀ e ∈ issued id past, e.heap = id
  places_nodup : ((issued id past).map place).Nodup
  /-- The live handles are those issued and not reclaimed. -/
  live_iff : heap.destroyed = false →
    ∀ e, heap.isLive e = true ↔ e ∈ issued id past ∧ ¬ Reclaimed id past e
  contents_eq : ∀ e c, heap.cell? e = some c → contents id past e = some c
  /-- A handle that is not live is older than its slot. -/
  stale_lt : heap.destroyed = false → ∀ e ∈ issued id past, heap.cell? e = none →
    e.generation < heap.generationAt e.index

namespace Ledger

variable {id : Nat} {past : List (Exchange κ)} {heap heap' : Heap κ} {request : Request κ}
  {answer : Except Fault Answer}

/-- An exchange that changes neither the heap nor the record. -/
theorem keep (l : Ledger id past heap) (hissued : issuedBy (request, answer) = none)
    (hcontents : ∀ e, contents id ((request, answer) :: past) e = contents id past e)
    (hreclaimed : ∀ e, Reclaimed id ((request, answer) :: past) e = Reclaimed id past e) :
    Ledger id ((request, answer) :: past) heap := by
  refine ⟨l.id_eq, ?_, ?_, ?_, fun e c hc => ?_, ?_⟩
  · rw [issued_cons_none hissued]
    exact l.heap_eq
  · rw [issued_cons_none hissued]
    exact l.places_nodup
  · intro hd e
    rw [issued_cons_none hissued, hreclaimed]
    exact l.live_iff hd e
  · rw [hcontents]
    exact l.contents_eq e c hc
  · rw [issued_cons_none hissued]
    exact l.stale_lt

theorem generation_eq {e : Handle} {c : Cell κ} (h : heap.cell? e = some c) :
    e.heap = heap.id ∧ e.slot = e.index ∧ e.generation = heap.generationAt e.index := by
  obtain ⟨-, s, hs, -, he⟩ := cell?_eq_some_iff.mp h
  refine ⟨congrArg Handle.heap he, congrArg Handle.slot he, ?_⟩
  rw [generationAt, hs]
  exact congrArg Handle.generation he

/-- **A new handle has a place that was never issued.** A handle issued there before would be
older than the slot. -/
theorem place_fresh (l : Ledger id past heap) (hd : heap.destroyed = false) {cell : Cell κ}
    {e : Handle} (hu : heap.Updates e cell heap') (hnew : heap.cell? e = none) :
    place e ∉ (issued id past).map place := by
  intro hmem
  obtain ⟨f, hf, hplace⟩ := List.mem_map.mp hmem
  have hat : heap'.cell? e = some cell := by rw [hu.cell?_eq, if_pos rfl]
  obtain ⟨hheap, -, hgen⟩ := generation_eq hat
  have hfe : f = e := by
    have h1 : f.slot = e.slot := congrArg Prod.fst hplace
    have h2 : f.generation = e.generation := congrArg Prod.snd hplace
    have h3 : f.heap = e.heap := by rw [l.heap_eq f hf, hheap, hu.id_eq, l.id_eq]
    obtain ⟨_, _, _⟩ := f
    obtain ⟨_, _, _⟩ := e
    exact Handle.mk.injEq .. ▸ ⟨h3, h1, h2⟩
  have hlt := l.stale_lt hd e (hfe ▸ hf) hnew
  rw [hgen, hu.generationAt_eq] at hlt
  exact absurd hlt (Int.lt_irrefl _)

/-- The record after an allocation. -/
theorem allocated (l : Ledger id past heap) (hd : heap.destroyed = false) {cell : Cell κ}
    {e : Handle} (hc : request.cell? = some cell) (hnew : heap.cell? e = none)
    (hu : heap.Updates e cell heap') : Ledger id ((request, .ok (.handle e)) :: past) heap' := by
  have hfresh := l.place_fresh hd hu hnew
  have hat : heap'.cell? e = some cell := by rw [hu.cell?_eq, if_pos rfl]
  have hne : ∀ f ∈ issued id past, f ≠ e := by
    rintro f hf rfl
    exact hfresh (List.mem_map_of_mem hf)
  have hother : ∀ f, f ≠ e → heap'.cell? f = heap.cell? f := fun f hf => by
    rw [hu.cell?_eq, if_neg hf]
  refine ⟨hu.id_eq.trans l.id_eq, ?_, ?_, fun _ f => ?_, fun f c hf => ?_, fun _ f hf hdead => ?_⟩
  · rw [issued_cons_some hc]
    rintro f (_ | ⟨_, hf⟩)
    · rw [(generation_eq hat).1, hu.id_eq, l.id_eq]
    · exact l.heap_eq f hf
  · rw [issued_cons_some hc, List.map_cons]
    exact List.nodup_cons.mpr ⟨hfresh, l.places_nodup⟩
  · rw [issued_cons_some hc, reclaimed_cons_allocated hc, List.mem_cons]
    by_cases hf : f = e
    · have hnot : ¬ Reclaimed id past f := fun h => hne f h.issued hf
      rw [hf] at hnot ⊢
      exact iff_of_true (isLive_of_cell? hat) ⟨Or.inl rfl, hnot⟩
    · rw [isLive_iff, hother f hf, ← isLive_iff, l.live_iff hd]
      simp [hf]
  · rw [contents_cons_allocated hc]
    rw [hu.cell?_eq] at hf
    split at hf
    · rw [if_pos ‹_›]
      exact hf
    · rw [if_neg ‹_›]
      exact l.contents_eq f c hf
  · rw [issued_cons_some hc] at hf
    rw [hu.generationAt_eq]
    rcases List.mem_cons.mp hf with rfl | hf
    · rw [hat] at hdead
      cases hdead
    · rw [hother f (hne f hf)] at hdead
      exact l.stale_lt hd f hf hdead

/-- The record after a part of a pair was replaced. -/
theorem replaced (l : Ledger id past heap) (hd : heap.destroyed = false) {part : PairPart}
    {e value head tail : Handle} (hc : heap.cell? e = some (.pair head tail))
    (hu : heap.Updates e (replacePart part value head tail) heap') :
    Ledger id ((.setPart part e value, .ok .done) :: past) heap' := by
  have hlive : ∀ f, heap'.isLive f = heap.isLive f := by
    intro f
    rw [Bool.eq_iff_iff, isLive_iff, isLive_iff, hu.cell?_eq]
    split
    · exact iff_of_true ⟨_, rfl⟩ ⟨_, ‹f = e› ▸ hc⟩
    · exact Iff.rfl
  refine ⟨hu.id_eq.trans l.id_eq, l.heap_eq, l.places_nodup, fun _ f => ?_, fun f c hf => ?_,
    fun _ f hf hdead => ?_⟩
  · rw [hlive]
    exact l.live_iff hd f
  · show (if f = e then (contents id past f).map (withPart part value) else contents id past f) = _
    rw [hu.cell?_eq] at hf
    split at hf
    · rename_i hfe
      cases hf
      rw [if_pos hfe, hfe, l.contents_eq e _ hc]
      rfl
    · rw [if_neg ‹_›]
      exact l.contents_eq f c hf
  · rw [hu.generationAt_eq]
    rw [hu.cell?_eq] at hdead
    split at hdead
    · cases hdead
    · exact l.stale_lt hd f hf hdead

/-- The record after a collection. What the record says can be reached is what the heap says. -/
theorem collected (l : Ledger id past heap) (w : heap.WellFormed) {roots : List Handle}
    (hr : ∀ e ∈ roots, heap.isLive e = true) {stats : Collected}
    (hc : heap.Collects roots heap') :
    Ledger id ((.collect roots, .ok (.collected stats)) :: past) heap' := by
  have hreach : ∀ e, Reach (contents id past) (⟨id, 0, 0⟩ :: roots) e ↔ heap.Reaches roots e := by
    intro e
    have hnil : (⟨id, 0, 0⟩ : Handle) = heap.nilHandle := by rw [nilHandle, l.id_eq]
    rw [hnil]
    refine Reach.congr (fun f hf => ?_) e
    obtain ⟨c, hcell⟩ := Reaches.exists_cell? w hr hf
    rw [l.contents_eq f c hcell, hcell]
  refine ⟨hc.id_eq.trans l.id_eq, l.heap_eq, l.places_nodup, fun _ e => ?_, fun e c he => ?_,
    fun _ e he hdead => ?_⟩
  · show _ ↔ e ∈ issued id past ∧ ¬ (Reclaimed id past e ∨ _)
    rw [hreach]
    by_cases hre : heap.Reaches roots e
    · rw [isLive_iff, hc.cell?_eq e hre, ← isLive_iff, l.live_iff w.usable]
      simp [hre]
    · rw [isLive_iff, hc.cell?_eq_none e hre]
      simp only [hre, not_false_eq_true, and_true]
      exact iff_of_false (by simp) fun h => h.2 (Or.inr h.1)
  · by_cases hre : heap.Reaches roots e
    · exact l.contents_eq e c ((hc.cell?_eq e hre).symm.trans he)
    · rw [hc.cell?_eq_none e hre] at he
      cases he
  · cases hcell : heap.cell? e with
    | none =>
      have hlt := l.stale_lt w.usable e he hcell
      have hle := hc.generationAt_le e.index
      omega
    | some c =>
      have hre : ¬ heap.Reaches roots e := by
        intro hre
        rw [hc.cell?_eq e hre, hcell] at hdead
        cases hdead
      have hlt := hc.generationAt_lt e c hcell hre
      rw [(generation_eq hcell).2.2]
      exact Int.ofNat_lt.mpr hlt

/-- A destroyed heap has nothing left to agree with. -/
theorem ofDestroyed (l : Ledger id past heap) (hissued : issuedBy (request, answer) = none)
    (hid : heap'.id = heap.id) (hd : heap'.destroyed = true) :
    Ledger id ((request, answer) :: past) heap' := by
  refine ⟨hid.trans l.id_eq, ?_, ?_, fun hf => absurd (hd.symm.trans hf) (by simp),
    fun e c hc => ?_, fun hf => absurd (hd.symm.trans hf) (by simp)⟩
  · rw [issued_cons_none hissued]
    exact l.heap_eq
  · rw [issued_cons_none hissued]
    exact l.places_nodup
  · have := (cell?_eq_some_iff.mp hc).1
    rw [hd] at this
    cases this

/-- An exchange with a heap in use keeps the record in agreement. -/
theorem effect (l : Ledger id past heap) (w : heap.WellFormed)
    (h : Effect heap request answer heap') : Ledger id ((request, answer) :: past) heap' := by
  cases h with
  | refused fault =>
    exact l.keep rfl (contents_cons_refused fault) (reclaimed_cons_refused fault)
  | nil =>
    refine l.keep rfl (fun e => ?_) fun _ => rfl
    show (if e = heap.nilHandle then none <|> contents id past e else contents id past e) = _
    split <;> rfl
  | allocated hc hnew hu => exact l.allocated w.usable hc hnew hu
  | replaced hc hu => exact l.replaced w.usable hc hu
  | collected hr hc => exact l.collected w hr hc
  | destroyed => exact l.ofDestroyed rfl rfl rfl

/-- The record of a new heap, where only nil is live. -/
theorem created {maxSlots : Number} (h : create id maxSlots = .ok heap) :
    Ledger id ([] : List (Exchange κ)) heap := by
  have w := create_wellFormed h
  have hid : heap.id = id := by
    cases create_eq_ok h
    rfl
  have honly : ∀ e c, heap.cell? e = some c → e = ⟨id, 0, 0⟩ := by
    intro e c hc
    have hlt := index_lt hc
    have hsize : heap.slots.size = 1 := by
      cases create_eq_ok h
      rfl
    have hnil := w.cell?_nil
    rw [nilHandle, hid] at hnil
    exact eq_of_index_eq hc hnil (by show e.index = 0; omega)
  have hnil : heap.cell? ⟨id, 0, 0⟩ = some .nil := hid ▸ w.cell?_nil
  refine ⟨hid, ?_, by simp [issued], fun _ e => ?_, fun e c hc => ?_, fun _ e he hdead => ?_⟩
  · rintro e he
    rw [List.mem_singleton.mp he]
  · show _ ↔ e ∈ [_] ∧ ¬ False
    rw [isLive_iff, List.mem_singleton]
    constructor
    · rintro ⟨c, hc⟩
      exact ⟨honly e c hc, not_false⟩
    · rintro ⟨rfl, -⟩
      exact ⟨_, hnil⟩
  · have he := honly e c hc
    rw [he, hnil] at hc
    rw [← hc, he]
    exact if_pos rfl
  · rw [List.mem_singleton.mp he, hnil] at hdead
    cases hdead

end Ledger

namespace Run

variable {id : Nat} {maxSlots : Number} {past : List (Exchange κ)} {heap heap' : Heap κ}

/-- **The record of a run agrees with the heap.** -/
theorem ledger (h : Run id maxSlots past heap) : Ledger id past heap := by
  induction h with
  | created h => exact .created h
  | @performed _ heap heap' request answer hrun hstep ih =>
    cases hd : heap.destroyed with
    | true =>
      rcases perform_destroyed hd request with ⟨fault, hfault⟩ | rfl
      · cases hstep.symm.trans hfault
        exact ih.keep rfl (contents_cons_refused fault) (reclaimed_cons_refused fault)
      · cases hstep
        exact ih.ofDestroyed rfl rfl rfl
    | false =>
      have w := hrun.wellFormed.2 hd
      have heffect := perform_effect w request
      rw [hstep] at heffect
      exact ih.effect w heffect

/-- **The past decides the heap.** -/
theorem unique (h : Run id maxSlots past heap) (h' : Run id maxSlots past heap') :
    heap = heap' := by
  induction h generalizing heap' with
  | created h =>
    cases h' with
    | created h' => exact (create_eq_ok h).trans (create_eq_ok h').symm
  | performed _ hstep ih =>
    cases h' with
    | performed hrun' hstep' =>
      cases ih hrun'
      exact congrArg Prod.snd (hstep.symm.trans hstep')

/-- A run goes through the heap of every shorter one. -/
theorem exists_before {later : List (Exchange κ)} (h : Run id maxSlots (later ++ past) heap') :
    ∃ heap, Run id maxSlots past heap ∧ (heap.destroyed = true → heap'.destroyed = true) := by
  induction later generalizing heap' with
  | nil => exact ⟨heap', h, fun hd => hd⟩
  | cons x later ih =>
    cases h with
    | @performed _ between _ request answer hrun hstep =>
      obtain ⟨heap, hbefore, hkeep⟩ := ih hrun
      refine ⟨heap, hbefore, fun hd => ?_⟩
      rcases perform_destroyed (hkeep hd) request with ⟨fault, hfault⟩ | rfl
      · cases hstep.symm.trans hfault
        exact hkeep hd
      · cases hstep
        rfl

/-- What is destroyed stays destroyed. -/
theorem destroyed_mono {later : List (Exchange κ)} (h : Run id maxSlots past heap)
    (h' : Run id maxSlots (later ++ past) heap') (hd : heap.destroyed = true) :
    heap'.destroyed = true := by
  obtain ⟨before, hbefore, hkeep⟩ := h'.exists_before
  exact hkeep (h.unique hbefore ▸ hd)

end Run

/-- **How a handle that was issued is answered.** Until the heap is destroyed or a collection
reclaims it, with what it was given to hold; then never again. -/
structure Answers (id : Nat) (past : List (Exchange κ)) (heap : Heap κ) (e : Handle) : Prop where
  accepted : heap.destroyed = false → ¬ Reclaimed id past e →
    ∃ c, contents id past e = some c ∧ heap.inspect e = .ok c ∧ heap.kindOf e = .ok c.kind ∧
      heap.isLive e = true
  stale : heap.destroyed = false → Reclaimed id past e →
    heap.inspect e = .error (.heap (.stale id e)) ∧ heap.kindOf e = .error (.heap (.stale id e)) ∧
      heap.isLive e = false
  destroyed : heap.destroyed = true →
    heap.inspect e = .error (.heap (.destroyed id)) ∧
      heap.kindOf e = .error (.heap (.destroyed id)) ∧ heap.isLive e = false

theorem Run.answers {id : Nat} {maxSlots : Number} {past : List (Exchange κ)} {heap : Heap κ}
    (h : Run id maxSlots past heap) {e : Handle} (he : e ∈ issued id past) :
    Answers id past heap e := by
  have l := h.ledger
  refine ⟨fun hd hr => ?_, fun hd hr => ?_, fun hd => ?_⟩
  · have hlive := (l.live_iff hd e).mpr ⟨he, hr⟩
    obtain ⟨c, hc⟩ := isLive_iff.mp hlive
    have hin := inspect_eq_ok_iff.mpr hc
    exact ⟨c, l.contents_eq e c hc, hin, by rw [kindOf, hin]; rfl, hlive⟩
  · have hdead : heap.isLive e = false := by
      rw [← Bool.not_eq_true, l.live_iff hd]
      exact fun hl => hl.2 hr
    have hin : heap.inspect e = .error (.heap (.stale id e)) := by
      have hnone : heap.cell? e = none := by
        cases hc : heap.cell? e with
        | none => rfl
        | some c => exact absurd (isLive_of_cell? hc) (by simp [hdead])
      rw [inspect_eq, hd, if_neg Bool.false_ne_true, l.heap_eq e he, l.id_eq, hnone]
      exact if_neg (not_not.mpr rfl)
    exact ⟨hin, by rw [kindOf, hin]; rfl, hdead⟩
  · have hin : heap.inspect e = .error (.heap (.destroyed id)) := by
      rw [inspect_eq, if_pos hd, l.id_eq]
    exact ⟨hin, by rw [kindOf, hin]; rfl, by simp [isLive, hd]⟩

/-- The three ways to ask for a handle agree on a refusal. -/
theorem Answers.refused {id : Nat} {past : List (Exchange κ)} {heap : Heap κ} {e : Handle}
    (a : Answers id past heap e) (h : heap.isLive e = false) :
    ∃ fault, heap.inspect e = .error fault ∧ heap.kindOf e = .error fault := by
  by_cases hd : heap.destroyed = true
  · obtain ⟨hin, hkind, -⟩ := a.destroyed hd
    exact ⟨_, hin, hkind⟩
  · by_cases hr : Reclaimed id past e
    · obtain ⟨hin, hkind, -⟩ := a.stale (by simpa using hd) hr
      exact ⟨_, hin, hkind⟩
    · obtain ⟨c, -, -, -, hlive⟩ := a.accepted (by simpa using hd) hr
      rw [hlive] at h
      cases h

/-- A handle that is refused once is refused ever after, however often its slot is used again. -/
theorem Run.dead_mono {id : Nat} {maxSlots : Number} {past later : List (Exchange κ)}
    {heap heap' : Heap κ} (h : Run id maxSlots past heap)
    (h' : Run id maxSlots (later ++ past) heap') {e : Handle} (he : e ∈ issued id past)
    (hdead : heap.isLive e = false) : heap'.isLive e = false := by
  cases hd : heap.destroyed with
  | true => simp [isLive, h.destroyed_mono h' hd]
  | false =>
    have hr : Reclaimed id past e := by
      by_contra hr
      rw [(h.ledger.live_iff hd e).mpr ⟨he, hr⟩] at hdead
      cases hdead
    cases hd' : heap'.destroyed with
    | true => simp [isLive, hd']
    | false =>
      rw [← Bool.not_eq_true, h'.ledger.live_iff hd']
      exact fun hl => hl.2 (hr.append later)

/-- **No aliasing.** No place is issued twice. A handle that was issued is accepted, as what its
allocation was given to hold, exactly until a collection reclaims it or the heap is destroyed, and
what is refused once is refused in every later state. -/
theorem no_aliasing {id : Nat} {maxSlots : Number} {past : List (Exchange κ)} {heap : Heap κ}
    (h : Run id maxSlots past heap) :
    ((issued id past).map place).Nodup ∧
      ∀ e ∈ issued id past, Answers id past heap e ∧
        ∀ later heap', Run id maxSlots (later ++ past) heap' → heap.isLive e = false →
          heap'.isLive e = false ∧
            ∃ fault, heap'.inspect e = .error fault ∧ heap'.kindOf e = .error fault := by
  refine ⟨h.ledger.places_nodup, fun e he => ⟨h.answers he, fun later heap' h' hdead => ?_⟩⟩
  have hdead' := h.dead_mono h' he hdead
  exact ⟨hdead', (h'.answers (mem_issued_append he later)).refused hdead'⟩

/-- A run in which a string is freed and a symbol is allocated in its place. -/
theorem no_aliasing_reused_slot : ∃ (past : List (Exchange Unit)) (heap : Heap Unit),
    Run 1 Number.infinity past heap ∧
      past.map Prod.fst = [.symbol [], .collect [], .string []] ∧
      ((issued 1 past).map place).Nodup ∧ ∀ e ∈ issued 1 past, Answers 1 past heap e := by
  have hrun := (Run.created (@create_unbounded Unit 1)).performAll
    [.string [], .collect [], .symbol []]
  obtain ⟨hplaces, hanswers⟩ := no_aliasing hrun
  exact ⟨_, _, hrun, rfl, hplaces, fun e he => (hanswers e he).1⟩

end Heap

end ConsoleLisp
