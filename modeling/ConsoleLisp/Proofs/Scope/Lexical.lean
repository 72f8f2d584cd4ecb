import ConsoleLisp.Proofs.Heap.Additions
import ConsoleLisp.Proofs.Scope.Frames

/-!
# Scopes in a heap are lexical frames

`ScopeRun` are the runs in which a host makes scopes, binds in them in any order, allocates and
collects, together with the frames that its scopes should have. `HoldsFrames` says how a heap
represents frames: the pair of a scope points to a list of bindings and to the pair of its parent.
Only the pairs of scopes ever change, so the lists are looked at without them (`Heap.without`).

Results:
* `lookupName_eq`, `bindings_eq`: reading frames off a heap that holds them.
* `HoldsFrames.grow`, `HoldsFrames.made`, `HoldsFrames.put`, `HoldsFrames.collect`: what each step
  of a run keeps.
* **`lexical_frames`**: the scopes of every run behave as their frames.
-/

namespace ConsoleLisp

namespace Heap

variable {κ : Type}

/-! ## Lists of bindings -/

/-- The handle is that of a list of bindings. -/
inductive IsFrame (look : Handle → Option (Cell κ)) : Handle → List Binding → Prop
  | nil {e : Handle} : look e = some .nil → IsFrame look e []
  | cons {e head tail symbol value : Handle} {name : Text} {rest : List Binding} :
      look e = some (.pair head tail) → look head = some (.pair symbol value) →
      look symbol = some (.symbol name) → IsFrame look tail rest →
      IsFrame look e (⟨name, value⟩ :: rest)

namespace IsFrame

variable {look look' : Handle → Option (Cell κ)} {e : Handle} {bindings : List Binding}
  {heap : Heap κ}

theorem mono (hl : ∀ e c, look e = some c → look' e = some c) (h : IsFrame look e bindings) :
    IsFrame look' e bindings := by
  induction h with
  | nil hc => exact .nil (hl _ _ hc)
  | cons hc hhead hsymbol _ ih => exact .cons (hl _ _ hc) (hl _ _ hhead) (hl _ _ hsymbol) ih

theorem length_eq {others : List Binding} (h : IsFrame look e bindings)
    (h' : IsFrame look e others) : bindings.length = others.length := by
  induction h generalizing others with
  | nil hc =>
    cases h' with
    | nil => rfl
    | cons hc' => cases hc.symm.trans hc'
  | cons hc _ _ _ ih =>
    cases h' with
    | nil hc' => cases hc.symm.trans hc'
    | cons hc' _ _ hrest =>
      cases hc.symm.trans hc'
      exact congrArg (· + 1) (ih hrest)

theorem exists_look (h : IsFrame look e bindings) : ∃ c, look e = some c := by
  cases h with
  | nil hc => exact ⟨_, hc⟩
  | cons hc => exact ⟨_, hc⟩

/-- A list of bindings is shorter than the heap, so a walk with that much fuel comes to its end. -/
theorem length_lt (hl : ∀ e c, look e = some c → heap.cell? e = some c)
    (h : IsFrame look e bindings) : bindings.length < heap.slots.size := by
  refine lt_size_of_descent
    (P := fun n e => ∃ bindings, IsFrame look e bindings ∧ bindings.length = n)
    ?unique ?next ?live ⟨bindings, h, rfl⟩
  case unique =>
    rintro _ _ e ⟨bindings, h, rfl⟩ ⟨others, h', rfl⟩
    exact h.length_eq h'
  case next =>
    rintro n e ⟨bindings, h, hlength⟩
    cases h with
    | nil => cases hlength
    | cons _ _ _ hrest => exact ⟨_, _, hrest, Nat.succ.inj hlength⟩
  case live =>
    rintro n e ⟨bindings, h, -⟩
    obtain ⟨c, hc⟩ := h.exists_look
    exact ⟨c, hl e c hc⟩

theorem pair?_eq_of_cell? {f head tail : Handle} (h : heap.cell? f = some (.pair head tail)) :
    heap.pair? f = .ok (some (head, tail)) := by
  rw [pair?, inspect_eq_ok_iff.mpr h]
  rfl

theorem pair?_eq_none {f : Handle} (h : heap.cell? f = some .nil) : heap.pair? f = .ok none := by
  rw [pair?, inspect_eq_ok_iff.mpr h]
  rfl

theorem binding?_eq {f symbol value : Handle} {name : Text}
    (h : heap.cell? f = some (.pair symbol value)) (hs : heap.cell? symbol = some (.symbol name)) :
    heap.binding? f = .ok (some ⟨name, value⟩) := by
  simp only [binding?, pair?_eq_of_cell? h, symbolName?_eq_ok_iff.mpr hs, bind, Except.bind]
  rfl

variable (hl : ∀ e c, look e = some c → heap.cell? e = some c)
include hl

/-- A list of bindings is searched from its front. -/
theorem lookupFrame_eq (h : IsFrame look e bindings) {fuel : Nat} (hfuel : bindings.length < fuel)
    (name : Text) : heap.lookupFrame name fuel e =
      .ok ((bindings.find? fun binding => binding.name = name).map Binding.value) := by
  induction h generalizing fuel with
  | nil hc =>
    obtain ⟨fuel, rfl⟩ := Nat.exists_eq_add_of_lt hfuel
    rw [lookupFrame, pair?_eq_none (hl _ _ hc)]
    rfl
  | @cons e head tail symbol value key rest hc hhead hsymbol _ ih =>
    obtain ⟨fuel, rfl⟩ := Nat.exists_eq_add_of_lt hfuel
    have hrest : rest.length < rest.length + 1 + fuel := by omega
    rw [List.length_cons]
    simp only [lookupFrame, pair?_eq_of_cell? (hl _ _ hc),
      binding?_eq (hl _ _ hhead) (hl _ _ hsymbol), bind, Except.bind]
    by_cases hname : key = name
    · rw [if_pos hname, List.find?_cons]
      simp only [hname, decide_true]
      rfl
    · rw [if_neg hname, ih hrest, List.find?_cons]
      simp only [hname, decide_false]

/-- A list of bindings is read from its front. -/
theorem frameBindings_eq (h : IsFrame look e bindings) {fuel : Nat}
    (hfuel : bindings.length < fuel) (met : List Binding) :
    heap.frameBindings fuel met e = .ok (met.reverse ++ bindings) := by
  induction h generalizing fuel met with
  | nil hc =>
    obtain ⟨fuel, rfl⟩ := Nat.exists_eq_add_of_lt hfuel
    rw [frameBindings, pair?_eq_none (hl _ _ hc), List.append_nil]
    rfl
  | @cons e head tail symbol value key rest hc hhead hsymbol _ ih =>
    obtain ⟨fuel, rfl⟩ := Nat.exists_eq_add_of_lt hfuel
    have hrest : rest.length < rest.length + 1 + fuel := by omega
    rw [List.length_cons]
    simp only [frameBindings, pair?_eq_of_cell? (hl _ _ hc),
      binding?_eq (hl _ _ hhead) (hl _ _ hsymbol), bind, Except.bind]
    refine (ih hrest (⟨key, value⟩ :: met)).trans ?_
    rw [List.reverse_cons, List.append_assoc]
    rfl

end IsFrame

/-- A list of bindings that can be reached is kept by a collection. -/
theorem IsFrame.collect {look look' : Handle → Option (Cell κ)} {heap heap' : Heap κ} {e : Handle}
    {bindings : List Binding} {roots : List Handle} (h : IsFrame look e bindings)
    (hcollects : heap.Collects roots heap')
    (hl : ∀ e c, look e = some c →
      heap.cell? e = some c ∧ (heap'.cell? e = some c → look' e = some c))
    (he : heap.Reaches roots e) : IsFrame look' e bindings := by
  have hkeep : ∀ {e c}, look e = some c → heap.Reaches roots e → look' e = some c := by
    intro e c hc he
    obtain ⟨hcell, hback⟩ := hl e c hc
    exact hback ((hcollects.cell?_eq e he).trans hcell)
  induction h with
  | nil hc => exact .nil (hkeep hc he)
  | cons hc hhead hsymbol _ ih =>
    have hpair := (hl _ _ hc).1
    have hbinding := he.head hpair
    exact .cons (hkeep hc he) (hkeep hhead hbinding)
      (hkeep hsymbol (hbinding.head (hl _ _ hhead).1)) (ih (he.tail hpair))

/-! ## Frames in a heap -/

/-- The heap without the pairs of some scopes. -/
def without (heap : Heap κ) (scopes : List Scope) (e : Handle) : Option (Cell κ) :=
  if ⟨e⟩ ∈ scopes then none else heap.cell? e

theorem without_eq_some_iff {heap : Heap κ} {scopes : List Scope} {e : Handle} {c : Cell κ} :
    heap.without scopes e = some c ↔ ⟨e⟩ ∉ scopes ∧ heap.cell? e = some c := by
  unfold without
  split <;> simp_all

/-- What the pair of a scope has behind its frame. -/
def parentHandle (heap : Heap κ) (parent : Option Scope) : Handle :=
  parent.elim heap.nilHandle Scope.chain

/-- The heap represents the frames. -/
structure HoldsFrames (heap : Heap κ) (frames : Frames) : Prop where
  wellFormed : heap.WellFormed
  nodup : frames.scopes.Nodup
  older : frames.Older
  /-- The pair of a scope points to the list of its bindings and to the pair of its parent. -/
  holds : ∀ frame ∈ frames, ∃ list,
    heap.cell? frame.scope.chain = some (.pair list (heap.parentHandle frame.parent)) ∧
      IsFrame (heap.without frames.scopes) list frame.bindings

namespace HoldsFrames

variable {heap heap' : Heap κ} {frames : Frames} {scope : Scope}

theorem cell?_of_without (e : Handle) (c : Cell κ) (h : heap.without frames.scopes e = some c) :
    heap.cell? e = some c :=
  (without_eq_some_iff.mp h).2

theorem exists_cell? (h : HoldsFrames heap frames) (hs : scope ∈ frames.scopes) :
    ∃ list parent, heap.cell? scope.chain = some (.pair list parent) := by
  obtain ⟨frame, hframe, rfl⟩ := List.mem_map.mp hs
  obtain ⟨list, hc, -⟩ := h.holds frame hframe
  exact ⟨list, _, hc⟩

theorem isLive (h : HoldsFrames heap frames) (hs : scope ∈ frames.scopes) :
    heap.isLive scope.chain = true := by
  obtain ⟨list, parent, hc⟩ := h.exists_cell? hs
  exact isLive_of_cell? hc

/-- What names no pair is no scope. -/
theorem not_mem_scopes (h : HoldsFrames heap frames) {e : Handle}
    (he : ∀ head tail, heap.cell? e ≠ some (.pair head tail)) : ⟨e⟩ ∉ frames.scopes := by
  intro hmem
  obtain ⟨list, parent, hc⟩ := h.exists_cell? hmem
  exact he list parent hc

/-- The scopes are no more than the slots. -/
theorem length_le (h : HoldsFrames heap frames) : frames.length ≤ heap.slots.size := by
  have hnodup : (frames.scopes.map Scope.chain).Nodup :=
    h.nodup.map fun s t heq => congrArg Scope.mk heq
  have hle := length_le_of_nodup hnodup fun e he => by
    obtain ⟨scope, hs, rfl⟩ := List.mem_map.mp he
    obtain ⟨list, parent, hc⟩ := h.exists_cell? hs
    exact ⟨_, hc⟩
  rwa [List.length_map, Frames.scopes, List.length_map] at hle

/-- The bindings of a scope are those of its frame, the newest first. -/
theorem bindings_eq (h : HoldsFrames heap frames) (hs : scope ∈ frames.scopes) :
    heap.bindings scope = .ok (frames.own scope) := by
  obtain ⟨frame, hframe, rfl⟩ := List.mem_map.mp hs
  obtain ⟨list, hc, hlist⟩ := h.holds frame hframe
  have hlength := hlist.length_lt cell?_of_without
  have hread := hlist.frameBindings_eq cell?_of_without (Nat.lt_succ_of_lt hlength) []
  rw [bindings, frameOf, IsFrame.pair?_eq_of_cell? hc, Frames.own_of_mem h.nodup hframe]
  exact hread

/-- A name is searched in the frames of the chain, from the first one on. -/
theorem lookupChain_eq (h : HoldsFrames heap frames) (name : Text) {rest : Frames}
    (hrest : rest ⊆ frames) (holder : rest.Older) (hs : scope ∈ rest.scopes) {fuel : Nat}
    (hfuel : rest.length ≤ fuel) :
    heap.lookupChain name fuel scope.chain =
      .ok ((rest.chain scope).findSome? (frames.local? name)) := by
  induction rest generalizing scope fuel with
  | nil => cases hs
  | cons frame rest ih =>
    have hsub : rest ⊆ frames := fun _ hmem => hrest (List.mem_cons_of_mem _ hmem)
    rw [List.length_cons] at hfuel
    by_cases hscope : frame.scope = scope
    · subst hscope
      obtain ⟨fuel, rfl⟩ := Nat.exists_eq_add_of_lt hfuel
      have hframe : frame ∈ frames := hrest List.mem_cons_self
      obtain ⟨list, hc, hlist⟩ := h.holds frame hframe
      have hlength := hlist.length_lt cell?_of_without
      have hlocal := hlist.lookupFrame_eq cell?_of_without (Nat.lt_succ_of_lt hlength) name
      rw [← Frames.own_of_mem h.nodup hframe] at hlocal
      change _ = Except.ok (frames.local? name frame.scope) at hlocal
      simp only [lookupChain, IsFrame.pair?_eq_of_cell? hc, hlocal, bind, Except.bind,
        Frames.chain, if_true, List.findSome?_cons]
      cases frames.local? name frame.scope with
      | some value => rfl
      | none =>
        -- nothing in this frame: the search goes on with the parent, if there is one
        cases hparent : frame.parent with
        | none =>
          cases rest.length + fuel with
          | zero => rfl
          | succ fuel =>
            show heap.lookupChain name (fuel + 1) heap.nilHandle = _
            rw [lookupChain, IsFrame.pair?_eq_none h.wellFormed.cell?_nil]
            rfl
        | some parent =>
          exact ih hsub holder.2 (holder.1 parent hparent) (Nat.le_add_right ..)
    · have hmem : scope ∈ Frames.scopes rest := by
        rcases List.mem_cons.mp hs with heq | hmem
        · exact absurd heq.symm hscope
        · exact hmem
      rw [Frames.chain, if_neg hscope]
      exact ih hsub holder.2 hmem (Nat.le_of_succ_le hfuel)

/-- **A name is looked up as in the frames.** -/
theorem lookupName_eq (h : HoldsFrames heap frames) (hs : scope ∈ frames.scopes) (name : Text) :
    heap.lookupName scope name = .ok (frames.lookup scope name) :=
  h.lookupChain_eq name (List.Subset.refl frames) h.older hs (Nat.le_succ_of_le h.length_le)

/-! ## What a run does -/

theorem parentHandle_eq (hid : heap'.id = heap.id) (parent : Option Scope) :
    heap'.parentHandle parent = heap.parentHandle parent := by
  rw [parentHandle, parentHandle, nilHandle, nilHandle, hid]

/-- More cells leave the frames as they are. -/
theorem grow (h : HoldsFrames heap frames) (w' : heap'.WellFormed) (hext : Extends heap heap') :
    HoldsFrames heap' frames := by
  refine ⟨w', h.nodup, h.older, fun frame hframe => ?_⟩
  obtain ⟨list, hc, hlist⟩ := h.holds frame hframe
  refine ⟨list, ?_, hlist.mono fun e c he => ?_⟩
  · rw [parentHandle_eq hext.id_eq]
    exact hext.cell?_mono _ _ hc
  · obtain ⟨hne, hc⟩ := without_eq_some_iff.mp he
    exact without_eq_some_iff.mpr ⟨hne, hext.cell?_mono e c hc⟩

/-- A new scope has an empty frame. -/
theorem made (h : HoldsFrames heap frames) (w' : heap'.WellFormed) (hext : Extends heap heap')
    {parent : Option Scope} (hparent : ∀ p ∈ parent, p ∈ frames.scopes)
    (hnew : heap.cell? scope.chain = none)
    (hc : heap'.cell? scope.chain = some (.pair heap.nilHandle (heap.parentHandle parent))) :
    HoldsFrames heap' (⟨scope, parent, []⟩ :: frames) := by
  have hfresh : scope ∉ frames.scopes := h.not_mem_scopes fun _ _ hpair =>
    nomatch hnew.symm.trans hpair
  -- no cell of the other frames is the new pair, for they are all live before
  have hkeep : ∀ e c, heap.without frames.scopes e = some c →
      heap'.without (scope :: frames.scopes) e = some c := by
    intro e c he
    obtain ⟨hne, he⟩ := without_eq_some_iff.mp he
    refine without_eq_some_iff.mpr ⟨fun hmem => ?_, hext.cell?_mono e c he⟩
    rcases List.mem_cons.mp hmem with rfl | hmem
    · cases hnew.symm.trans he
    · exact hne hmem
  refine ⟨w', List.nodup_cons.mpr ⟨hfresh, h.nodup⟩, ⟨hparent, h.older⟩, fun frame hframe => ?_⟩
  rw [parentHandle_eq hext.id_eq]
  rcases List.mem_cons.mp hframe with rfl | hframe
  · refine ⟨heap.nilHandle, hc, .nil (hkeep _ _ (without_eq_some_iff.mpr ⟨?_, ?_⟩))⟩
    · exact h.not_mem_scopes fun _ _ hpair => nomatch h.wellFormed.cell?_nil.symm.trans hpair
    · exact h.wellFormed.cell?_nil
  · obtain ⟨list, hc, hlist⟩ := h.holds frame hframe
    exact ⟨list, hext.cell?_mono _ _ hc, hlist.mono hkeep⟩

/-- A binding that is made is put in front of the frame of its scope. -/
theorem put (h : HoldsFrames heap frames) (hs : scope ∈ frames.scopes) {symbol value : Handle}
    {name : Text} (hsymbol : heap.symbolName? symbol = .ok (some name))
    (hrun : scope.bind symbol value heap = (.ok (), heap')) :
    HoldsFrames heap' (frames.put scope ⟨name, value⟩) := by
  have hword := symbolName?_eq_ok_iff.mp hsymbol
  rcases bind_cases heap scope symbol value with ⟨fault, hfault⟩ | ⟨_, list, parent, -, hf, hv⟩
  · cases hrun.symm.trans hfault
  obtain ⟨heap₁, w₁, hadds, hfull | ⟨binding, front, heap₂, hrun₂, w', hnew, hbinding, hnew',
    hfront, hu⟩⟩ := bind_spec h.wellFormed hword hf hv
  · cases hrun.symm.trans hfull
  cases hrun.symm.trans hrun₂
  have h₁ := h.grow w₁ hadds.toExtends
  have hkeep : ∀ e c, heap₁.without frames.scopes e = some c →
      heap'.without (frames.put scope ⟨name, value⟩).scopes e = some c := by
    intro e c he
    obtain ⟨hne, he⟩ := without_eq_some_iff.mp he
    rw [Frames.scopes_put]
    refine without_eq_some_iff.mpr ⟨hne, ?_⟩
    rw [hu.cell?_eq, if_neg, he]
    rintro rfl
    exact hne hs
  have hlive : ∀ e, heap.cell? e = none → ⟨e⟩ ∉ frames.scopes := fun e he =>
    h.not_mem_scopes fun _ _ hpair => nomatch he.symm.trans hpair
  have hnodup : (frames.put scope ⟨name, value⟩).scopes.Nodup := by
    rw [Frames.scopes_put]
    exact h.nodup
  refine ⟨w', hnodup, h.older.put, fun frame hframe => ?_⟩
  obtain ⟨frame, hmem, rfl⟩ := List.mem_map.mp hframe
  obtain ⟨list', hc, hlist⟩ := h₁.holds frame hmem
  rw [parentHandle_eq hu.id_eq]
  by_cases hscope : frame.scope = scope
  · subst hscope
    cases (hadds.cell?_mono _ _ hf).symm.trans hc
    refine ⟨front, ?_, ?_⟩
    · exact (hu.cell?_eq _).trans (if_pos rfl)
    · have hbindings : (ScopeFrame.put frame.scope ⟨name, value⟩ frame).bindings =
          ⟨name, value⟩ :: frame.bindings := if_pos rfl
      rw [hbindings]
      refine .cons (hkeep _ _ (without_eq_some_iff.mpr ⟨hlive _ hnew', hfront⟩))
        (hkeep _ _ (without_eq_some_iff.mpr ⟨hlive _ hnew, hbinding⟩))
        (hkeep _ _ (without_eq_some_iff.mpr ⟨?_, hadds.cell?_mono _ _ hword⟩)) (hlist.mono hkeep)
      exact h.not_mem_scopes fun _ _ hpair => nomatch hword.symm.trans hpair
  · have hbindings : (ScopeFrame.put scope ⟨name, value⟩ frame).bindings = frame.bindings :=
      if_neg hscope
    rw [hbindings]
    refine ⟨list', (hu.cell?_eq _).trans ((if_neg fun heq => ?_).trans hc), hlist.mono hkeep⟩
    exact hscope (congrArg Scope.mk heq)

/-- A collection keeps the frames of the scopes that are still live. -/
theorem collect (h : HoldsFrames heap frames) {roots : List Handle} (w' : heap'.WellFormed)
    (hcollects : heap.Collects roots heap') :
    HoldsFrames heap' (frames.filter fun frame => heap'.isLive frame.scope.chain) := by
  have hreaches : ∀ e, heap'.isLive e = true → heap.Reaches roots e := by
    intro e he
    by_contra hne
    obtain ⟨c, hc⟩ := isLive_iff.mp he
    cases hc.symm.trans (hcollects.cell?_eq_none e hne)
  have hlive : ∀ e c, heap.Reaches roots e → heap.cell? e = some c → heap'.isLive e = true :=
    fun e c he hc => isLive_of_cell? ((hcollects.cell?_eq e he).trans hc)
  have hsub : Frames.scopes (frames.filter fun frame => heap'.isLive frame.scope.chain) ⊆
      frames.scopes := List.map_subset _ List.filter_sublist.subset
  refine ⟨w', h.nodup.sublist (List.filter_sublist.map _), h.older.filter ?_,
    fun frame hframe => ?_⟩
  · intro frame hframe hkept parent hparent other hother hscope
    obtain ⟨list, hc, -⟩ := h.holds frame hframe
    obtain ⟨list', hc', -⟩ := h.holds other hother
    have hreach := (hreaches _ hkept).tail hc
    rw [parentHandle, Option.mem_def.mp hparent, Option.elim_some, ← hscope] at hreach
    exact hlive _ _ hreach hc'
  · obtain ⟨hmem, hkept⟩ := List.mem_filter.mp hframe
    obtain ⟨list, hc, hlist⟩ := h.holds frame hmem
    have hreach := hreaches _ hkept
    refine ⟨list, ?_, ?_⟩
    · rw [parentHandle_eq hcollects.id_eq, hcollects.cell?_eq _ hreach]
      exact hc
    · refine hlist.collect hcollects (fun e c he => ?_) (hreach.head hc)
      obtain ⟨hne, hc⟩ := without_eq_some_iff.mp he
      exact ⟨hc, fun hc' => without_eq_some_iff.mpr ⟨fun hmem => hne (hsub hmem), hc'⟩⟩

end HoldsFrames

/-! ## Runs -/

/-- What a host can do with scopes, starting from any heap in use, and the frames that its scopes
have then. Scopes that a collection has not kept are no longer used. -/
inductive ScopeRun : Heap κ → Frames → Prop
  | start {heap : Heap κ} : heap.WellFormed → ScopeRun heap []
  | root {heap heap' : Heap κ} {frames : Frames} {scope : Scope} : ScopeRun heap frames →
      Scope.root heap = (.ok scope, heap') → ScopeRun heap' (⟨scope, none, []⟩ :: frames)
  | push {heap heap' : Heap κ} {frames : Frames} {parent scope : Scope} : ScopeRun heap frames →
      parent ∈ frames.scopes → parent.push heap = (.ok scope, heap') →
      ScopeRun heap' (⟨scope, some parent, []⟩ :: frames)
  | bind {heap heap' : Heap κ} {frames : Frames} {scope : Scope} {symbol value : Handle}
      {name : Text} : ScopeRun heap frames → scope ∈ frames.scopes →
      heap.symbolName? symbol = .ok (some name) →
      scope.bind symbol value heap = (.ok (), heap') →
      ScopeRun heap' (frames.put scope ⟨name, value⟩)
  | rootRefused {heap heap' : Heap κ} {frames : Frames} {fault : Fault} : ScopeRun heap frames →
      Scope.root heap = (.error fault, heap') → ScopeRun heap' frames
  | pushRefused {heap heap' : Heap κ} {frames : Frames} {parent : Scope} {fault : Fault} :
      ScopeRun heap frames → parent ∈ frames.scopes → parent.push heap = (.error fault, heap') →
      ScopeRun heap' frames
  | bindRefused {heap heap' : Heap κ} {frames : Frames} {scope : Scope} {symbol value : Handle}
      {fault : Fault} : ScopeRun heap frames → scope ∈ frames.scopes →
      scope.bind symbol value heap = (.error fault, heap') → ScopeRun heap' frames
  /-- A value of any other kind, or a pair. -/
  | allocate {heap heap' : Heap κ} {frames : Frames} {request : Request κ} {cell : Cell κ}
      {answer : Except Fault Answer} : ScopeRun heap frames → request.cell? = some cell →
      request.perform heap = (answer, heap') → ScopeRun heap' frames
  | collect {heap heap' : Heap κ} {frames : Frames} {roots : List Handle}
      {result : Except Fault Collected} : ScopeRun heap frames →
      Heap.collect roots heap = (result, heap') →
      ScopeRun heap' (frames.filter fun frame => heap'.isLive frame.scope.chain)

/-- **The heap of every run holds the frames.** By induction on the run. -/
theorem ScopeRun.holdsFrames {heap : Heap κ} {frames : Frames} (h : ScopeRun heap frames) :
    HoldsFrames heap frames := by
  induction h with
  | start w => exact ⟨w, List.nodup_nil, trivial, nofun⟩
  | root _ hrun ih =>
    obtain ⟨w', hadds, hnew, hc⟩ := (root_adding ih.wellFormed).of_ok hrun
    exact ih.made w' hadds.toExtends nofun hnew hc
  | push _ hparent hrun ih =>
    obtain ⟨w', hadds, hnew, hc⟩ := (push_adding ih.wellFormed (ih.isLive hparent)).of_ok hrun
    refine ih.made w' hadds.toExtends (fun p hp => ?_) hnew hc
    cases hp
    exact hparent
  | bind _ hs hsymbol hrun ih => exact ih.put hs hsymbol hrun
  | rootRefused _ hrun ih =>
    obtain ⟨w', hadds⟩ := (root_adding ih.wellFormed).of_error hrun
    exact ih.grow w' hadds.toExtends
  | pushRefused _ hparent hrun ih =>
    obtain ⟨w', hadds⟩ := (push_adding ih.wellFormed (ih.isLive hparent)).of_error hrun
    exact ih.grow w' hadds.toExtends
  | @bindRefused heap heap' frames scope symbol value fault _ hs hrun ih =>
    rcases bind_cases heap scope symbol value with ⟨fault', hfault⟩ | ⟨_, _, _, hsymbol, hf, hv⟩
    · cases hrun.symm.trans hfault
      exact ih
    obtain ⟨heap₁, w₁, hadds, hfull | ⟨_, _, _, hbound, -⟩⟩ := bind_spec ih.wellFormed hsymbol hf hv
    · cases hrun.symm.trans hfull
      exact ih.grow w₁ hadds.toExtends
    · cases hrun.symm.trans hbound
  | @allocate heap heap' frames request cell answer _ hc hrun ih =>
    have heffect : Effect heap request answer heap' := by
      have := perform_effect ih.wellFormed request
      rwa [hrun] at this
    cases heffect with
    | refused => exact ih
    | allocated _ hnew hu w' => exact ih.grow w' (hu.extends hnew)
    | nil | replaced | collected | destroyed => cases hc
  | @collect heap heap' frames roots result _ hrun ih =>
    by_cases hr : ∀ e ∈ roots, heap.isLive e = true
    · obtain ⟨freed, heap'', hcollect, w', hcollects, -⟩ := collect_spec ih.wellFormed hr
      cases hrun.symm.trans hcollect
      exact ih.collect w' hcollects
    · obtain ⟨fault, hfault⟩ := collect_refused ih.wellFormed (by simpa using hr)
      cases hrun.symm.trans hfault
      rw [List.filter_eq_self.mpr fun frame hframe => ih.isLive (List.mem_map_of_mem hframe)]
      exact ih

end Heap

open Heap

/-- **Scopes are lexical frames.** In every run a name has the value of its newest binding in the
frame of its scope, else in that of the parent, and so on outward; the bindings of a scope are those
of its own frame, the newest first; and a binding changes what is looked up through the scopes whose
chain contains its own, where no scope before that shadows it, and nothing else. -/
theorem lexical_frames {κ : Type} {heap : Heap κ} {frames : Frames} (h : ScopeRun heap frames) :
    (∀ scope ∈ frames.scopes, heap.bindings scope = .ok (frames.own scope) ∧
      ∀ name, heap.lookupName scope name = .ok (frames.lookup scope name)) ∧
    ∀ scope ∈ frames.scopes, ∀ symbol value name heap',
      heap.symbolName? symbol = .ok (some name) →
      scope.bind symbol value heap = (.ok (), heap') → ∀ other ∈ frames.scopes, ∀ sought,
        heap'.lookupName other sought =
          if sought = name ∧ scope ∈ frames.chain other ∧
            ∀ inner ∈ (frames.chain other).takeWhile (· ≠ scope), frames.local? sought inner = none
          then .ok (some value) else heap.lookupName other sought := by
  have hholds := h.holdsFrames
  refine ⟨fun scope hs => ⟨hholds.bindings_eq hs, hholds.lookupName_eq hs⟩, ?_⟩
  intro scope hs symbol value name heap' hsymbol hrun other hother sought
  have hother' : other ∈ (frames.put scope ⟨name, value⟩).scopes := by
    rw [Frames.scopes_put]
    exact hother
  rw [(hholds.put hs hsymbol hrun).lookupName_eq hother', hholds.lookupName_eq hother,
    Frames.lookup_put hs]
  split <;> rfl

/-- The heap behind an action that returns. -/
theorem run_eq_of_toOption {κ α : Type} {action : HeapM κ α} {heap : Heap κ} {a : α}
    (h : (action heap).1.toOption = some a) : action heap = (.ok a, (action heap).2) := by
  rcases hrun : action heap with ⟨_ | b, heap'⟩ <;> rw [hrun] at h
  · cases h
  · cases h
    rfl

/-- A child scope sees what its parent binds after the child was made, also behind a collection that
reaches the parent through the child. -/
theorem lexical_frames_late : ∃ heap : Heap Unit, ScopeRun heap
      [⟨⟨⟨1, 2, 0⟩⟩, some ⟨⟨1, 1, 0⟩⟩, []⟩, ⟨⟨⟨1, 1, 0⟩⟩, none, [⟨text "x", ⟨1, 0, 0⟩⟩]⟩] ∧
    heap.lookupName ⟨⟨1, 2, 0⟩⟩ (text "x") = .ok (some ⟨1, 0, 0⟩) := by
  obtain ⟨heap, hbound, hchild, hparent⟩ : ∃ heap : Heap Unit, ScopeRun heap
      [⟨⟨⟨1, 2, 0⟩⟩, some ⟨⟨1, 1, 0⟩⟩, []⟩, ⟨⟨⟨1, 1, 0⟩⟩, none, [⟨text "x", ⟨1, 0, 0⟩⟩]⟩] ∧
      heap.cell? ⟨1, 2, 0⟩ = some (.pair ⟨1, 0, 0⟩ ⟨1, 1, 0⟩) ∧
      heap.cell? ⟨1, 1, 0⟩ = some (.pair ⟨1, 5, 0⟩ ⟨1, 0, 0⟩) := by
    have h₀ := ScopeRun.start (create_wellFormed (@create_unbounded Unit 1))
    have h₁ := h₀.root (@run_eq_of_toOption _ _ _ _ ⟨⟨1, 1, 0⟩⟩ (by decide +kernel))
    have h₂ := h₁.push (List.mem_singleton.mpr rfl)
      (@run_eq_of_toOption _ _ _ _ ⟨⟨1, 2, 0⟩⟩ (by decide +kernel))
    have h₃ := h₂.allocate (show (Request.symbol (text "x")).cell? = some _ from rfl)
      (Prod.eta _).symm
    have h₄ := @ScopeRun.bind _ _ _ _ ⟨⟨1, 1, 0⟩⟩ ⟨1, 3, 0⟩ ⟨1, 0, 0⟩ (text "x") h₃
      (List.mem_cons_of_mem _ (List.mem_singleton.mpr rfl))
      (symbolName?_eq_ok_iff.mpr (by decide +kernel)) (run_eq_of_toOption (by decide +kernel))
    exact ⟨_, h₄, by decide +kernel, by decide +kernel⟩
  have hroots : ∀ e ∈ [(⟨1, 2, 0⟩ : Handle)], heap.isLive e = true := by
    intro e he
    rw [List.mem_singleton.mp he]
    exact isLive_of_cell? hchild
  obtain ⟨freed, heap', hrun, -, hcollects, -⟩ :=
    collect_spec hbound.holdsFrames.wellFormed hroots
  have hreach : heap.Reaches [⟨1, 2, 0⟩] ⟨1, 2, 0⟩ := .root (by simp)
  have hchild' := isLive_of_cell? ((hcollects.cell?_eq _ hreach).trans hchild)
  have hparent' := isLive_of_cell? ((hcollects.cell?_eq _ (hreach.tail hchild)).trans hparent)
  have hcollected := hbound.collect hrun
  simp only [List.filter_cons, List.filter_nil, hchild', hparent', if_true] at hcollected
  refine ⟨heap', hcollected, ?_⟩
  exact ((lexical_frames hcollected).1 ⟨⟨1, 2, 0⟩⟩ (by decide +kernel)).2 (text "x")

end ConsoleLisp
