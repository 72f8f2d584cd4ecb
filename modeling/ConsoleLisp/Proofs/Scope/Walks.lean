import ConsoleLisp.Proofs.Heap.Walks

/-!
# Walks along scopes

A name is looked up in one frame after another, outward. Nothing notices a frame or a chain of
frames that comes back to itself; `ScopeEnds heap chain` says that there is none, so that the chain
from `chain` on runs out, and each of its frames does.

Results:
* **`scopeEnds_iff`**: a scope runs out when nothing of it comes back to itself.
* **`WellFormed.chainWalk`**: where the scope runs out the lookup loop stops, with the answer of
  `lookupName`.
* `ChainEnds.mono`, `ScopeEnds.bind`: what adding cells and a binding leave of a scope that runs
  out.
-/

namespace ConsoleLisp

namespace Heap

variable {κ : Type} {heap heap' : Heap κ}

/-! ## Scopes that run out -/

/-- The chain from a handle on runs out after so many frames, and the tails of every frame do. -/
inductive ChainEnds (heap : Heap κ) : Nat → Handle → Prop
  | stop {e : Handle} {c : Cell κ} : heap.cell? e = some c → c.pair? = none → ChainEnds heap 0 e
  | step {n m : Nat} {e frame parent : Handle} : heap.cell? e = some (.pair frame parent) →
      TailsEnd heap m frame → ChainEnds heap n parent → ChainEnds heap (n + 1) e

/-- The chain from a handle on and its frames run out. -/
def ScopeEnds (heap : Heap κ) (chain : Handle) : Prop := ∃ n, ChainEnds heap n chain

namespace ChainEnds

variable {n : Nat} {e : Handle}

theorem tailsEnd (h : ChainEnds heap n e) : TailsEnd heap n e := by
  induction h with
  | stop hc hp => exact .stop hc hp
  | step hc _ _ ih => exact .step hc ih

/-- A chain has fewer frames than the heap has slots. -/
theorem lt_size (h : ChainEnds heap n e) : n < heap.slots.size := h.tailsEnd.lt_size

/-- Cells that are added change nothing. -/
theorem mono (h : ChainEnds heap n e)
    (hcell : ∀ f c, heap.cell? f = some c → heap'.cell? f = some c) : ChainEnds heap' n e := by
  induction h with
  | stop hc hp => exact .stop (hcell _ _ hc) hp
  | step hc hframe _ ih =>
    exact .step (hcell _ _ hc)
      (hframe.mono (fun f head tail hf => ⟨head, hcell f _ hf⟩) fun f c _ hf => hcell f c hf) ih

end ChainEnds

/-- Neither the chain of frames comes back to itself nor one of the frames. -/
structure AcyclicScope (heap : Heap κ) (chain : Handle) : Prop where
  chain_acyclic : heap.Acyclic chain
  frame_acyclic : ∀ e frame parent, Relation.ReflTransGen heap.TailOf chain e →
    heap.cell? e = some (.pair frame parent) → heap.Acyclic frame

/-- **A scope can be walked when nothing of it comes back to itself.** -/
theorem scopeEnds_iff (w : heap.WellFormed) {chain : Handle} (h : heap.isLive chain = true) :
    heap.ScopeEnds chain ↔ heap.AcyclicScope chain := by
  constructor
  · rintro ⟨n, hn⟩
    refine ⟨hn.tailsEnd.acyclic, fun e frame parent hreach hc => ?_⟩
    -- from every place that is reached the rest of the chain runs out
    have hrest : ∃ m, ChainEnds heap m e := by
      induction hreach generalizing frame parent with
      | refl => exact ⟨n, hn⟩
      | tail _ hlast ih =>
        obtain ⟨frame', hc'⟩ := hlast
        obtain ⟨m, hm⟩ := ih _ _ hc'
        cases hm with
        | stop hd hp =>
          cases hc'.symm.trans hd
          cases hp
        | step hd _ hm =>
          cases hc'.symm.trans hd
          exact ⟨_, hm⟩
    obtain ⟨m, hm⟩ := hrest
    cases hm with
    | stop hd hp =>
      cases hc.symm.trans hd
      cases hp
    | step hd hframe _ =>
      cases hc.symm.trans hd
      exact hframe.acyclic
  · intro hacyclic
    obtain ⟨n, hn⟩ := (exists_tailsEnd_iff w h).mpr hacyclic.chain_acyclic
    have hchain : ∀ {m : Nat} {e : Handle}, TailsEnd heap m e →
        Relation.ReflTransGen heap.TailOf chain e → ChainEnds heap m e := by
      intro m e hend
      induction hend with
      | stop hc hp => exact fun _ => .stop hc hp
      | step hc _ ih =>
        intro hreach
        obtain ⟨k, hframe⟩ := (exists_tailsEnd_iff w (w.parts_isLive hc).1).mpr
          (hacyclic.frame_acyclic _ _ _ hreach hc)
        exact .step hc hframe (ih (hreach.tail ⟨_, hc⟩))
    exact ⟨n, hchain hn .refl⟩

/-- The local frame runs out. -/
theorem ScopeEnds.exists_frame {chain frame parent : Handle} (h : heap.ScopeEnds chain)
    (hchain : heap.cell? chain = some (.pair frame parent)) :
    ∃ n m, TailsEnd heap n frame ∧ ChainEnds heap m parent := by
  obtain ⟨n, hn⟩ := h
  cases hn with
  | stop hc hp =>
    cases hchain.symm.trans hc
    cases hp
  | step hc hframe hparent =>
    cases hchain.symm.trans hc
    exact ⟨_, _, hframe, hparent⟩

/-- A new frame in front of a chain that runs out: where the new frame runs out, so does the scope.
The chain behind it does not come back to the pair that is changed. -/
theorem ScopeEnds.bind {chain front frame parent : Handle} {m : Nat} (h : heap.ScopeEnds chain)
    (hchain : heap.cell? chain = some (.pair frame parent)) (hfront : TailsEnd heap m front)
    (hu : heap.Updates chain (.pair front parent) heap') : heap'.ScopeEnds chain := by
  have hroot : heap'.cell? chain = some (.pair front parent) := by rw [hu.cell?_eq, if_pos rfl]
  -- only a head has changed, and tails are all that frames are walked along
  have htails : ∀ {k : Nat} {f : Handle}, TailsEnd heap k f → TailsEnd heap' k f := by
    intro k f hf
    refine hf.mono (fun g head tail hg => ?_) fun g c hp hg => ?_
    · by_cases heq : g = chain
      · rw [heq] at hg ⊢
        cases hchain.symm.trans hg
        exact ⟨front, hroot⟩
      · exact ⟨head, by rw [hu.cell?_eq, if_neg heq, hg]⟩
    · rw [hu.cell?_eq, if_neg, hg]
      rintro rfl
      cases hchain.symm.trans hg
      cases hp
  obtain ⟨_, n, hframe, hparent⟩ := h.exists_frame hchain
  refine ⟨n + 1, .step hroot (htails hfront) ?_⟩
  have hbehind : ∀ {k : Nat} {f : Handle}, ChainEnds heap k f → k ≤ n → ChainEnds heap' k f := by
    intro k f hf
    induction hf with
    | @stop f c hf hp =>
      intro _
      refine .stop ?_ hp
      rw [hu.cell?_eq, if_neg, hf]
      rintro rfl
      cases hchain.symm.trans hf
      cases hp
    | @step k j f frame' parent' hf hframe' hparent' ih =>
      intro hk
      refine .step ?_ (htails hframe') (ih (by omega))
      rw [hu.cell?_eq, if_neg, hf]
      rintro rfl
      have hsame := (ChainEnds.step hf hframe' hparent').tailsEnd.unique
        (ChainEnds.step hchain hframe hparent).tailsEnd
      omega
  exact hbehind hparent (Nat.le_refl n)

/-! ## Lookups -/

/-- The loop over the bindings of a frame. -/
inductive FrameWalk (heap : Heap κ) (name : Text) : Handle → Option Handle → Prop
  | done {cursor : Handle} : heap.pair? cursor = .ok none → FrameWalk heap name cursor none
  | found {cursor head tail value : Handle} : heap.pair? cursor = .ok (some (head, tail)) →
      heap.binding? head = .ok (some ⟨name, value⟩) → FrameWalk heap name cursor (some value)
  | next {cursor head tail : Handle} {binding : Option Binding} {result : Option Handle} :
      heap.pair? cursor = .ok (some (head, tail)) → heap.binding? head = .ok binding →
      (∀ b ∈ binding, b.name ≠ name) → FrameWalk heap name tail result →
      FrameWalk heap name cursor result

/-- The loop over the frames of a chain. -/
inductive ChainWalk (heap : Heap κ) (name : Text) : Handle → Option Handle → Prop
  | done {cursor : Handle} : heap.pair? cursor = .ok none → ChainWalk heap name cursor none
  | found {cursor frame parent value : Handle} : heap.pair? cursor = .ok (some (frame, parent)) →
      FrameWalk heap name frame (some value) → ChainWalk heap name cursor (some value)
  | next {cursor frame parent : Handle} {result : Option Handle} :
      heap.pair? cursor = .ok (some (frame, parent)) → FrameWalk heap name frame none →
      ChainWalk heap name parent result → ChainWalk heap name cursor result

theorem pair?_of_cell? {e : Handle} {c : Cell κ} (hc : heap.cell? e = some c) :
    heap.pair? e = .ok c.pair? := by
  unfold pair?
  rw [inspect_eq_ok_iff.mpr hc]
  rfl

theorem cell?_of_pair? {e head tail : Handle} (h : heap.pair? e = .ok (some (head, tail))) :
    heap.cell? e = some (.pair head tail) := by
  unfold pair? at h
  cases hin : heap.inspect e with
  | error fault =>
    rw [hin] at h
    cases h
  | ok c =>
    rw [hin] at h
    cases c <;> cases h
    exact inspect_eq_ok_iff.mp hin

variable {name : Text} {n fuel : Nat} {cursor : Handle} {result : Option Handle}

/-- A walk along a frame that stops gives the answer of `lookupFrame`. -/
theorem FrameWalk.lookupFrame_eq (h : FrameWalk heap name cursor result)
    (hend : TailsEnd heap n cursor) (hfuel : n < fuel) :
    heap.lookupFrame name fuel cursor = .ok result := by
  induction h generalizing n fuel with
  | done hp =>
    obtain ⟨fuel, rfl⟩ := Nat.exists_eq_succ_of_ne_zero (Nat.ne_zero_of_lt hfuel)
    rw [lookupFrame, hp]
    rfl
  | found hp hb =>
    obtain ⟨fuel, rfl⟩ := Nat.exists_eq_succ_of_ne_zero (Nat.ne_zero_of_lt hfuel)
    rw [lookupFrame, hp]
    simp only [hb, bind, Except.bind]
    exact if_pos trivial
  | @next cursor head tail binding result hp hb hname _ ih =>
    obtain ⟨fuel, rfl⟩ := Nat.exists_eq_succ_of_ne_zero (Nat.ne_zero_of_lt hfuel)
    have hrest : heap.lookupFrame name fuel tail = .ok result := by
      cases hend with
      | stop hc hnone =>
        cases hc.symm.trans (cell?_of_pair? hp)
        cases hnone
      | step hc hend =>
        cases hc.symm.trans (cell?_of_pair? hp)
        exact ih hend (Nat.lt_of_succ_lt_succ hfuel)
    rw [lookupFrame, hp]
    simp only [hb, bind, Except.bind]
    cases binding with
    | none => exact hrest
    | some b =>
      simp only [if_neg (hname b rfl)]
      exact hrest

theorem ChainWalk.lookupChain_eq (h : ChainWalk heap name cursor result)
    (hend : ChainEnds heap n cursor) (hfuel : n < fuel) :
    heap.lookupChain name fuel cursor = .ok result := by
  have hframe : ∀ {m : Nat} {frame : Handle} {found : Option Handle}, TailsEnd heap m frame →
      FrameWalk heap name frame found →
      heap.lookupFrame name (heap.slots.size + 1) frame = .ok found := fun hend hwalk =>
    hwalk.lookupFrame_eq hend (Nat.lt_succ_of_lt hend.lt_size)
  induction h generalizing n fuel with
  | done hp =>
    obtain ⟨fuel, rfl⟩ := Nat.exists_eq_succ_of_ne_zero (Nat.ne_zero_of_lt hfuel)
    rw [lookupChain, hp]
    rfl
  | found hp hwalk =>
    obtain ⟨fuel, rfl⟩ := Nat.exists_eq_succ_of_ne_zero (Nat.ne_zero_of_lt hfuel)
    cases hend with
    | stop hc hnone =>
      cases hc.symm.trans (cell?_of_pair? hp)
      cases hnone
    | step hc hends _ =>
      cases hc.symm.trans (cell?_of_pair? hp)
      rw [lookupChain, hp]
      simp only [hframe hends hwalk, bind, Except.bind]
      rfl
  | next hp hwalk _ ih =>
    obtain ⟨fuel, rfl⟩ := Nat.exists_eq_succ_of_ne_zero (Nat.ne_zero_of_lt hfuel)
    cases hend with
    | stop hc hnone =>
      cases hc.symm.trans (cell?_of_pair? hp)
      cases hnone
    | step hc hends hend =>
      cases hc.symm.trans (cell?_of_pair? hp)
      rw [lookupChain, hp]
      simp only [hframe hends hwalk, bind, Except.bind]
      exact ih hend (Nat.lt_of_succ_lt_succ hfuel)

theorem ChainWalk.lookupName_eq {scope : Scope} (h : ChainWalk heap name scope.chain result)
    (hend : heap.ScopeEnds scope.chain) : heap.lookupName scope name = .ok result := by
  obtain ⟨n, hn⟩ := hend
  exact h.lookupChain_eq hn (Nat.lt_succ_of_lt hn.lt_size)

/-- A frame that runs out is walked to its end. -/
theorem TailsEnd.frameWalk (h : TailsEnd heap n cursor) (w : heap.WellFormed) (name : Text) :
    ∃ found, FrameWalk heap name cursor found := by
  induction h with
  | stop hc hp => exact ⟨none, .done ((pair?_of_cell? hc).trans (congrArg _ hp))⟩
  | @step n e head tail hc _ ih =>
    have hp : heap.pair? e = .ok (some (head, tail)) := pair?_of_cell? hc
    obtain ⟨binding, hb, -⟩ := w.binding?_total (w.parts_isLive hc).1
    obtain ⟨found, hfound⟩ := ih
    by_cases hname : ∀ b ∈ binding, b.name ≠ name
    · exact ⟨found, .next hp hb hname hfound⟩
    · push Not at hname
      obtain ⟨⟨_, value⟩, rfl, rfl⟩ := hname
      exact ⟨some value, .found hp hb⟩

/-- **The lookup loop stops** where the scope runs out, with the answer of `lookupName`. -/
theorem WellFormed.chainWalk (w : heap.WellFormed) {scope : Scope}
    (h : heap.ScopeEnds scope.chain) (name : Text) :
    ∃ found, heap.lookupName scope name = .ok found ∧ ChainWalk heap name scope.chain found := by
  have hwalk : ∀ {n : Nat} {e : Handle}, ChainEnds heap n e →
      ∃ found, ChainWalk heap name e found := by
    intro n e hend
    induction hend with
    | stop hc hp => exact ⟨none, .done ((pair?_of_cell? hc).trans (congrArg _ hp))⟩
    | step hc hframe _ ih =>
      obtain ⟨found, hfound⟩ := hframe.frameWalk w name
      obtain ⟨further, hfurther⟩ := ih
      cases found with
      | some value => exact ⟨some value, .found (pair?_of_cell? hc) hfound⟩
      | none => exact ⟨further, .next (pair?_of_cell? hc) hfound hfurther⟩
  obtain ⟨n, hn⟩ := h
  obtain ⟨found, hfound⟩ := hwalk hn
  exact ⟨found, hfound.lookupName_eq ⟨n, hn⟩, hfound⟩

end Heap

end ConsoleLisp
