import ConsoleLisp.Proofs.Heap.Growth
import ConsoleLisp.Proofs.Scope.Lexical
import ConsoleLisp.Proofs.Scope.Prepended
import ConsoleLisp.Proofs.Scope.Walks

/-!
# Heaps with one root scope

`Rooted heap native scope bound` says that `scope` has the bindings `bound` and no parent, and that
nothing below it leads back to its pair: scripts never get hold of the one cell that changes. So what
a binding holds stays as it is while the heap grows (`SameBelow`), and a collection keeps it.

Results:
* `SameBelow.trans`, `Grows.sameBelow`, `Collects.sameBelow`: what leaves values as they are.
* `Rooted.extend`, **`Rooted.onlyAdds`**, `Rooted.collect`: what keeps a heap rooted.
* **`Collects.isTidy`**: a collection leaves nothing that is not reached.
* `IsTidy.collect_eq`: then another one changes nothing.
* **`IsTidy.cell?_eq`**: a collection undoes what was added.
-/

namespace ConsoleLisp

namespace Heap

variable {κ : Type} {heap heap' heap'' : Heap κ} {roots : List Handle} {root e : Handle}

/-! ## Values that stay as they are -/

/-- Everything that is reached from the handle is as it was. -/
def SameBelow (heap : Heap κ) (e : Handle) (heap' : Heap κ) : Prop :=
  ∀ f, Reach heap.cell? [e] f → heap'.cell? f = heap.cell? f

namespace SameBelow

theorem refl (heap : Heap κ) (e : Handle) : heap.SameBelow e heap := fun _ _ => rfl

theorem trans (h : heap.SameBelow e heap') (h' : heap'.SameBelow e heap'') :
    heap.SameBelow e heap'' := by
  intro f hf
  exact (h' f ((Reach.congr h f).mpr hf)).trans (h f hf)

end SameBelow

/-- Growth leaves a value as it is that does not reach the root afterwards. -/
theorem Grows.sameBelow (hg : Grows root heap heap') (w : heap.WellFormed)
    (he : heap.isLive e = true) (hhidden : ¬ Reach heap'.cell? [e] root) :
    heap.SameBelow e heap' := by
  have hcell : ∀ {f}, Reach heap'.cell? [e] f → ∀ {c}, heap.cell? f = some c →
      heap'.cell? f = some c := by
    intro f hf c hc
    refine hg.cell?_mono f c ?_ hc
    rintro rfl
    exact hhidden hf
  intro f hf
  -- what is reached before is reached afterwards, and so it is not the root
  have hreach : Reach heap'.cell? [e] f := by
    induction hf with
    | root hmem => exact .root hmem
    | head _ hc ih => exact ih.head (hcell ih hc)
    | tail _ hc ih => exact ih.tail (hcell ih hc)
  obtain ⟨c, hc⟩ := w.exists_cell?_of_reach (List.forall_mem_singleton.mpr he) hf
  rw [hc]
  exact hcell hreach hc

/-- A collection leaves a value as it is that its roots reach. -/
theorem Collects.sameBelow (h : heap.Collects roots heap') (he : Reach heap.cell? roots e) :
    heap.SameBelow e heap' := by
  intro f hf
  refine h.cell?_eq_of_reach (hf.mono (fun g hg => ?_) fun _ _ _ hc => hc)
  rw [List.mem_singleton.mp hg]
  exact he

/-- More cells leave a value as it is. -/
theorem Extends.sameBelow (hext : Extends heap heap') (w : heap.WellFormed)
    (he : heap.isLive e = true) : heap.SameBelow e heap' :=
  fun _ hf => hext.cell?_eq_of_reach w (List.forall_mem_singleton.mpr he) hf

/-! ## Lists of bindings -/

theorem without_singleton (heap : Heap κ) (scope : Scope) :
    heap.without [scope] = heap.visible scope.chain := by
  obtain ⟨chain⟩ := scope
  funext e
  simp [without, visible]

namespace IsFrame

variable {look : Handle → Option (Cell κ)} {bound : List Binding}

/-- A list of bindings runs out. -/
theorem tailsEnd (h : IsFrame look e bound) (hl : ∀ e c, look e = some c → heap.cell? e = some c) :
    TailsEnd heap bound.length e := by
  induction h with
  | nil hc => exact .stop (hl _ _ hc) rfl
  | cons hc _ _ _ ih => exact .step (hl _ _ hc) ih

/-- The value of a binding is reached from the list. -/
theorem reach_value (h : IsFrame look e bound)
    (hl : ∀ e c, look e = some c → heap.cell? e = some c) (he : Reach heap.cell? roots e)
    {binding : Binding} (hb : binding ∈ bound) : Reach heap.cell? roots binding.value := by
  induction h with
  | nil => cases hb
  | cons hc hhead _ _ ih =>
    rcases List.mem_cons.mp hb with rfl | hb
    · exact (he.head (hl _ _ hc)).tail (hl _ _ hhead)
    · exact ih (he.tail (hl _ _ hc)) hb

end IsFrame

/-- The binding is of this symbol to this value. -/
structure Names (heap : Heap κ) (made : Handle × Handle) (binding : Binding) : Prop where
  symbol : heap.cell? made.1 = some (.symbol binding.name)
  value_eq : binding.value = made.2

/-- Bindings in front of a list of bindings make a longer one. -/
theorem Prepended.isFrame {sets : List (Handle × Handle)} {new old frame parent : Handle}
    {bound : List Binding} (h : Prepended heap root sets new old)
    (hroot : heap.cell? root = some (.pair frame parent))
    (hold : IsFrame (heap.visible root) old bound) :
    ∃ made, List.Forall₂ heap.Names sets made ∧ IsFrame (heap.visible root) new (made ++ bound) := by
  induction h with
  | nil => exact ⟨[], .nil, hold⟩
  | @cons front binding rest old symbol value name sets hfront hbinding hsymbol _ _ ih =>
    obtain ⟨made, hnames, hframe⟩ := ih hold
    have hvisible : heap.visible root symbol = some (.symbol name) := by
      refine visible_eq_some_iff.mpr ⟨?_, hsymbol⟩
      rintro rfl
      cases hroot.symm.trans hsymbol
    exact ⟨⟨name, value⟩ :: made, .cons ⟨hsymbol, rfl⟩ hnames,
      .cons hfront hbinding hvisible hframe⟩

/-! ## One root scope -/

/-- The heap has the scope with these bindings and no parent, nothing below the scope leads back to
it, and all natives are of some kind. -/
structure Rooted (heap : Heap κ) (native : Native κ → Prop) (scope : Scope)
    (bound : List Binding) : Prop where
  frames : HoldsFrames heap [⟨scope, none, bound⟩]
  hidden : ∀ frame parent, heap.cell? scope.chain = some (.pair frame parent) →
    ¬ Reach heap.cell? [frame] scope.chain
  natives : ∀ e procedure, heap.cell? e = some (.native procedure) → native procedure

namespace Rooted

variable {native : Native κ → Prop} {scope : Scope} {bound : List Binding}

theorem wellFormed (h : heap.Rooted native scope bound) : heap.WellFormed := h.frames.wellFormed

/-- The pair of the scope, with the list of its bindings. -/
theorem exists_frame (h : heap.Rooted native scope bound) :
    ∃ frame, heap.cell? scope.chain = some (.pair frame heap.nilHandle) ∧
      IsFrame (heap.visible scope.chain) frame bound ∧ ¬ Reach heap.cell? [frame] scope.chain := by
  obtain ⟨frame, hc, hframe⟩ := h.frames.holds _ List.mem_cons_self
  refine ⟨frame, hc, ?_, h.hidden _ _ hc⟩
  rw [← without_singleton]
  exact hframe

theorem scope_isLive (h : heap.Rooted native scope bound) : heap.isLive scope.chain = true :=
  h.frames.isLive List.mem_cons_self

theorem bindings_eq (h : heap.Rooted native scope bound) : heap.bindings scope = .ok bound := by
  rw [h.frames.bindings_eq List.mem_cons_self]
  exact congrArg Except.ok (Frames.own_of_mem h.frames.nodup List.mem_cons_self)

/-- The scope can be walked. -/
theorem scopeEnds (h : heap.Rooted native scope bound) : heap.ScopeEnds scope.chain := by
  obtain ⟨frame, hc, hframe, -⟩ := h.exists_frame
  exact ⟨1, .step hc (hframe.tailsEnd fun _ _ hf => (visible_eq_some_iff.mp hf).2)
    (.stop h.wellFormed.cell?_nil rfl)⟩

/-- What is bound is reached from the scope, and the scope is not reached from it. -/
theorem reach_value (h : heap.Rooted native scope bound) {binding : Binding}
    (hb : binding ∈ bound) : Reach heap.cell? [scope.chain] binding.value ∧
      ¬ Reach heap.cell? [binding.value] scope.chain := by
  obtain ⟨frame, hc, hframe, hhidden⟩ := h.exists_frame
  have hl : ∀ e c, heap.visible scope.chain e = some c → heap.cell? e = some c :=
    fun _ _ hf => (visible_eq_some_iff.mp hf).2
  refine ⟨hframe.reach_value hl ((Reach.root List.mem_cons_self).head hc) hb, fun hreach => ?_⟩
  refine hhidden (hreach.mono (fun f hf => ?_) fun _ _ _ hc => hc)
  rw [List.mem_singleton.mp hf]
  exact hframe.reach_value hl (.root List.mem_cons_self) hb

theorem isLive_value (h : heap.Rooted native scope bound) {binding : Binding}
    (hb : binding ∈ bound) : heap.isLive binding.value = true := by
  obtain ⟨c, hc⟩ := h.wellFormed.exists_cell?_of_reach
    (List.forall_mem_singleton.mpr h.scope_isLive) (h.reach_value hb).1
  exact isLive_of_cell? hc

/-- The bindings hold what they held in an earlier heap. -/
theorem sameBelow (h' : heap'.Rooted native scope bound) (hg : Grows scope.chain heap heap')
    (w : heap.WellFormed) {binding : Binding} (hb : binding ∈ bound)
    (hlive : heap.isLive binding.value = true) : heap.SameBelow binding.value heap' :=
  hg.sameBelow w hlive (h'.reach_value hb).2

/-- Cells are added, and no natives of another kind. -/
theorem extend (h : heap.Rooted native scope bound) (w' : heap'.WellFormed)
    (hext : Extends heap heap')
    (hnatives : ∀ e procedure, heap'.cell? e = some (.native procedure) → native procedure) :
    heap'.Rooted native scope bound := by
  refine ⟨h.frames.grow w' hext, fun frame parent hc' hreach => ?_, hnatives⟩
  obtain ⟨front, hc, -, hhidden⟩ := h.exists_frame
  cases (hext.cell?_mono _ _ hc).symm.trans hc'
  have hlive := isLive_iff.mpr (h.wellFormed.parts_of_pair hc).1
  exact hhidden ((hext.reach_iff h.wellFormed (List.forall_mem_singleton.mpr hlive) _).mp hreach)

theorem adds (h : heap.Rooted native scope bound) (w' : heap'.WellFormed)
    (hadds : Adds heap heap') : heap'.Rooted native scope bound :=
  h.extend w' hadds.toExtends fun e procedure hc => h.natives e procedure (hadds.natives e _ hc)

/-- **Bindings are put in front**, while the scope stays hidden. -/
theorem onlyAdds (h : heap.Rooted native scope bound) {sets : List (Handle × Handle)}
    (hadds : OnlyAdds heap scope sets heap')
    (hhidden : ∀ frame parent, heap'.cell? scope.chain = some (.pair frame parent) →
      ¬ Reach heap'.cell? [frame] scope.chain) :
    ∃ made, List.Forall₂ heap'.Names sets made ∧ heap'.Rooted native scope (made ++ bound) := by
  obtain ⟨frame, hc, hframe, -⟩ := h.exists_frame
  obtain ⟨old, new, parent, hscope, hscope', hfront⟩ := hadds.frame
  cases hc.symm.trans hscope
  have hold := hframe.mono fun _ _ hf => hadds.grows.visible_mono hf
  obtain ⟨made, hnames, hnew⟩ := hfront.isFrame hscope' hold
  refine ⟨made, hnames, ⟨hadds.wellFormed, List.nodup_singleton _, ⟨nofun, trivial⟩,
    fun frame hmem => ?_⟩, hhidden, fun e procedure he => h.natives e procedure
      (hadds.natives e procedure he)⟩
  rw [List.mem_singleton.mp hmem]
  refine ⟨new, ?_, ?_⟩
  · rw [HoldsFrames.parentHandle_eq hadds.grows.id_eq]
    exact hscope'
  · rw [show Frames.scopes [_] = [scope] from rfl, without_singleton]
    exact hnew

/-- A collection from the scope keeps it. -/
theorem collect (h : heap.Rooted native scope bound) (w' : heap'.WellFormed)
    (hc : heap.Collects [scope.chain] heap') : heap'.Rooted native scope bound := by
  have hroot : Reach heap.cell? [scope.chain] scope.chain := .root List.mem_cons_self
  obtain ⟨frame, hscope, -, hhidden⟩ := h.exists_frame
  have hscope' : heap'.cell? scope.chain = some (.pair frame heap.nilHandle) :=
    (hc.cell?_eq_of_reach hroot).trans hscope
  have hframes := h.frames.collect w' hc
  rw [List.filter_eq_self.mpr] at hframes
  · refine ⟨hframes, fun frame' parent hd hreach => ?_,
      fun e procedure he => h.natives e procedure (hc.cell?_of_some he)⟩
    cases hscope'.symm.trans hd
    exact hhidden ((Reach.congr (hc.sameBelow (hroot.head hscope)) _).mp hreach)
  · intro frame hmem
    rw [List.mem_singleton.mp hmem]
    exact isLive_of_cell? hscope'

end Rooted

/-! ## Heaps with nothing left over -/

/-- The live handles are nil and those that are reached from the root. -/
def IsTidy (heap : Heap κ) (root : Handle) : Prop :=
  ∀ e, heap.isLive e = true ↔ heap.Kept [root] e

/-- **A collection leaves nothing that is not reached.** -/
theorem Collects.isTidy (h : heap.Collects [root] heap') (w : heap.WellFormed)
    (w' : heap'.WellFormed) (hroot : heap.isLive root = true) : heap'.IsTidy root := by
  intro e
  rw [h.isLive_iff w (List.forall_mem_singleton.mpr hroot), ← reaches_iff_kept w,
    ← reaches_iff_kept w', h.reaches_iff]

/-- **A collection of a heap with nothing left over** changes nothing. -/
theorem IsTidy.collect_eq (h : heap.IsTidy root) (w : heap.WellFormed)
    (hroot : heap.isLive root = true) : collect [root] heap = (.ok ⟨heap.live, 0⟩, heap) :=
  collect_eq_self w (List.forall_mem_singleton.mpr hroot) fun e he =>
    (reaches_iff_kept w e).mpr ((h e).mp he)

/-- **A collection undoes what was added** to a heap with nothing left over. -/
theorem IsTidy.cell?_eq (h : heap.IsTidy root) (w : heap.WellFormed)
    (hroot : heap.isLive root = true) (hext : Extends heap heap')
    (hc : heap'.Collects [root] heap'') (e : Handle) : heap''.cell? e = heap.cell? e := by
  have hnil : heap'.nilHandle = heap.nilHandle := by rw [nilHandle, nilHandle, hext.id_eq]
  have hlive : ∀ f ∈ [heap.nilHandle, root], heap.isLive f = true :=
    List.forall_mem_cons.mpr ⟨isLive_of_cell? w.cell?_nil, List.forall_mem_singleton.mpr hroot⟩
  have hreaches : heap'.Reaches [root] e ↔ heap.Reaches [root] e := by
    unfold Reaches
    rw [hnil]
    exact hext.reach_iff w hlive e
  have hkept : heap.isLive e = true ↔ heap.Reaches [root] e :=
    (h e).trans (reaches_iff_kept w e).symm
  cases hcell : heap.cell? e with
  | some c =>
    have hreach := hreaches.mpr (hkept.mp (isLive_of_cell? hcell))
    exact (hc.cell?_eq e hreach).trans (hext.cell?_mono e c hcell)
  | none =>
    refine hc.cell?_eq_none e fun hreach => ?_
    obtain ⟨c, hsome⟩ := isLive_iff.mp (hkept.mpr (hreaches.mp hreach))
    cases hcell.symm.trans hsome

end Heap

end ConsoleLisp
