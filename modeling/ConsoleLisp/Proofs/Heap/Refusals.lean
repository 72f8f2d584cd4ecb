import ConsoleLisp.Proofs.Heap.Capacity

/-!
# When a heap refuses

Each operation asks for something before it does anything: a heap in use, handles of this heap that
name values, a pair, room. `Request.demands` lists what it asks for in the order in which that is
judged, and `Demand.Fails` says by the past of the heap alone when a demand is not met and with
which fault. An operation fails as the first demand that is not met, and then it has changed
nothing.

Results:
* `Guarded.bind`: a sequence asks for what its parts ask for, in order.
* `Request.guarded`: what the requests ask for, on any heap in use.
* `Run.failsOn_iff`: the demands that a heap does not meet are those that its past does not.
* **`refusals_are_exact`**: an operation fails exactly as its first demand that is not met, and
  leaves the heap as it was.
-/

namespace ConsoleLisp

namespace Heap

variable {κ α γ : Type}

/-! ## Operations and their demands -/

/-- A public operation of a heap; those besides the requests only look. -/
inductive Call (κ : Type)
  | request (request : Request κ)
  | inspect (e : Handle)
  | kindOf (e : Handle)
  | liveHandles
  | isLive (e : Handle)
  | size
  | isDestroyed

/-- What a call gives. -/
inductive Reply (κ : Type)
  | answer (answer : Answer)
  | cell (cell : Cell κ)
  | kind (kind : Kind)
  | handles (handles : List Handle)
  | count (count : Nat)
  | flag (flag : Bool)

def Call.perform : Call κ → HeapM κ (Reply κ)
  | .request r => Reply.answer <$> r.perform
  | inspect e => Reply.cell <$> view (Heap.inspect · e)
  | kindOf e => Reply.kind <$> view (Heap.kindOf · e)
  | liveHandles => Reply.handles <$> view Heap.liveHandles
  | isLive e => Reply.flag <$> view fun heap => .ok (heap.isLive e)
  | size => Reply.count <$> view fun heap => .ok heap.live
  | isDestroyed => Reply.flag <$> view fun heap => .ok heap.destroyed

/-- What an operation asks for before it does anything. -/
inductive Demand
  /-- The heap is in use. -/
  | usable
  /-- The handle is one of this heap. -/
  | ours (e : Handle)
  /-- The handle names a value. -/
  | live (e : Handle)
  /-- The value is a pair, so that the part can be replaced. -/
  | pair (part : PairPart) (e : Handle)
  /-- The bound leaves room for one value more. -/
  | room

/-- What is asked of a handle that is to name a value. -/
def Demand.named (e : Handle) : List Demand := [ours e, live e]

/-- What a request asks for, in the order in which it is judged. -/
def Request.demands : Request κ → List Demand
  | nil => [.usable]
  | number _ | symbol _ | string _ | native _ => [.usable, .room]
  | pair head tail => .usable :: (Demand.named head ++ (Demand.named tail ++ [.room]))
  | setPart part e value => .usable :: (Demand.named e ++ .pair part e :: Demand.named value)
  | collect roots => .usable :: roots.flatMap Demand.named
  | destroy => []

def Call.demands : Call κ → List Demand
  | .request r => r.demands
  | inspect e | kindOf e => .usable :: Demand.named e
  | liveHandles => [.usable]
  | isLive _ | size | isDestroyed => []

/-- The first demand that is not met gives the fault. -/
def FirstFails (fails : Demand → Fault → Prop) : List Demand → Fault → Prop
  | [], _ => False
  | demand :: rest, fault =>
    fails demand fault ∨ (∀ other, ¬ fails demand other) ∧ FirstFails fails rest fault

section FirstFails

variable {fails fails' : Demand → Fault → Prop} {demands rest : List Demand} {fault : Fault}

theorem FirstFails.cons_iff {demand : Demand} : FirstFails fails (demand :: rest) fault ↔
    fails demand fault ∨ (∀ other, ¬ fails demand other) ∧ FirstFails fails rest fault :=
  Iff.rfl

theorem FirstFails.append_iff : FirstFails fails (demands ++ rest) fault ↔
    FirstFails fails demands fault ∨
      (∀ other, ¬ FirstFails fails demands other) ∧ FirstFails fails rest fault := by
  induction demands with
  | nil => simp [FirstFails]
  | cons demand demands ih =>
    have hpasses : (∀ other, ¬ FirstFails fails (demand :: demands) other) ↔
        (∀ other, ¬ fails demand other) ∧ ∀ other, ¬ FirstFails fails demands other := by
      constructor
      · intro h
        have hdemand : ∀ other, ¬ fails demand other := fun other hf => h other (.inl hf)
        exact ⟨hdemand, fun other hf => h other (.inr ⟨hdemand, hf⟩)⟩
      · rintro ⟨hdemand, hdemands⟩ other (hf | ⟨-, hf⟩)
        · exact hdemand other hf
        · exact hdemands other hf
    rw [List.cons_append, cons_iff, ih, hpasses, cons_iff]
    tauto

theorem FirstFails.congr
    (h : ∀ demand ∈ demands, ∀ other, fails demand other ↔ fails' demand other) :
    FirstFails fails demands fault ↔ FirstFails fails' demands fault := by
  induction demands with
  | nil => exact Iff.rfl
  | cons demand demands ih =>
    obtain ⟨hdemand, hdemands⟩ := List.forall_mem_cons.mp h
    simp only [cons_iff, hdemand, ih hdemands]

end FirstFails

/-! ## On a heap -/

/-- The heap does not meet the demand, and this is the fault that says so. -/
def Demand.FailsOn (heap : Heap κ) : Demand → Fault → Prop
  | usable, fault => heap.destroyed = true ∧ fault = .heap (.destroyed heap.id)
  | ours e, fault => e.heap ≠ heap.id ∧ fault = .heap (.foreign heap.id e)
  | live e, fault => heap.cell? e = none ∧ fault = .heap (.stale heap.id e)
  | pair part e, fault =>
    ∃ cell, heap.cell? e = some cell ∧ cell.pair? = none ∧ fault = .notPair part cell.kind
  | room, fault => (heap.free = [] ∧ heap.isFull = true) ∧ fault = heap.exhaustion

/-- The action fails on the heap as the first of these demands that is not met, without a change to
the heap. -/
def Guarded (heap : Heap κ) (demands : List Demand) (action : HeapM κ α) : Prop :=
  ∀ fault heap', action heap = (.error fault, heap') ↔
    heap' = heap ∧ FirstFails (Demand.FailsOn heap) demands fault

namespace Guarded

variable {heap : Heap κ} {demands rest : List Demand} {x : HeapM κ α}

/-- An action that returns asks for nothing. -/
theorem of_ok {a : α} (h : (x heap).1 = .ok a) : Guarded heap [] x := by
  intro fault heap'
  refine iff_of_false (fun hrun => ?_) And.right
  rw [hrun] at h
  cases h

/-- An action that is refused for what its demand says. -/
theorem of_error {demand : Demand} {fault : Fault} (h : x heap = (.error fault, heap))
    (hfails : ∀ other, demand.FailsOn heap other ↔ other = fault) :
    Guarded heap (demand :: rest) x := by
  intro other heap'
  rw [h, FirstFails.cons_iff, hfails]
  constructor
  · intro heq
    cases heq
    exact ⟨rfl, .inl rfl⟩
  · rintro ⟨rfl, rfl | ⟨hnot, -⟩⟩
    · rfl
    · exact absurd ((hfails fault).mpr rfl) (hnot fault)

/-- A demand that is met can be left out. -/
theorem skip {demand : Demand} (hmet : ∀ other, ¬ demand.FailsOn heap other)
    (h : Guarded heap demands x) : Guarded heap (demand :: demands) x := by
  intro fault heap'
  rw [h fault heap', FirstFails.cons_iff]
  simp [hmet]

theorem not_firstFails (h : Guarded heap demands x) {a : α} {heap' : Heap κ}
    (hrun : x heap = (.ok a, heap')) (fault : Fault) :
    ¬ FirstFails (Demand.FailsOn heap) demands fault := by
  intro hfails
  cases hrun.symm.trans ((h fault heap).mpr ⟨rfl, hfails⟩)

/-- **A sequence asks for what its parts ask for, in order**, when the first part only looks. -/
theorem bind {f : α → HeapM κ γ} (hx : Guarded heap demands x) (hkeep : (x heap).2 = heap)
    (hf : ∀ a, (x heap).1 = .ok a → Guarded heap rest (f a)) :
    Guarded heap (demands ++ rest) (x >>= f) := by
  intro fault heap'
  rw [Act.run_bind, FirstFails.append_iff]
  rcases hrun : x heap with ⟨refusal | a, heap₁⟩
  · obtain ⟨rfl, hrefusal⟩ := (hx refusal heap₁).mp hrun
    constructor
    · intro heq
      cases heq
      exact ⟨rfl, .inl hrefusal⟩
    · rintro ⟨rfl, hfails | ⟨hnot, -⟩⟩
      · have hsame := (hx fault heap').mpr ⟨rfl, hfails⟩
        cases hrun.symm.trans hsame
        rfl
      · exact absurd hrefusal (hnot refusal)
  · rw [hrun] at hkeep hf
    cases hkeep
    have hnot := hx.not_firstFails hrun
    refine (hf a rfl fault heap').trans ?_
    simp [hnot]

theorem map (f : α → γ) (hx : Guarded heap demands x) : Guarded heap demands (f <$> x) := by
  intro fault heap'
  rw [← hx fault heap']
  rcases hrun : x heap with ⟨refusal | a, heap₁⟩
  · rw [Act.run_map_error hrun]
    constructor <;> intro heq <;> cases heq <;> rfl
  · rw [Act.run_map_ok hrun]
    constructor <;> intro heq <;> cases heq

/-- Looking at a handle. -/
theorem inspect (hd : heap.destroyed = false) (e : Handle) :
    Guarded heap (Demand.named e) (view (inspect · e)) := by
  unfold Demand.named
  have hin := inspect_eq heap e
  rw [hd, if_neg Bool.false_ne_true] at hin
  by_cases hours : e.heap = heap.id
  · refine skip (fun other h => h.1 hours) ?_
    rw [if_neg (not_not.mpr hours)] at hin
    cases hc : heap.cell? e with
    | none =>
      rw [hc] at hin
      refine of_error (by rw [view, hin]) fun other => ?_
      exact ⟨And.right, fun h => ⟨hc, h⟩⟩
    | some cell =>
      refine skip (fun other h => ?_) (of_ok (congrArg Prod.fst (view_inspect_eq hc)))
      cases hc.symm.trans h.1
  · rw [if_pos hours] at hin
    refine of_error (by rw [view, hin]) fun other => ?_
    exact ⟨And.right, fun h => ⟨hours, h⟩⟩

theorem allocate (hd : heap.destroyed = false) (cell : Cell κ) :
    Guarded heap [.room] (allocate cell) := by
  by_cases hfull : heap.free = [] ∧ heap.isFull = true
  · have hrun : Heap.allocate cell heap = (.error heap.exhaustion, heap) := by
      simp [Heap.allocate, hd, hfull.1, hfull.2, exhaustion]
    exact of_error hrun fun other => ⟨And.right, fun h => ⟨hfull, h⟩⟩
  · refine skip (fun other h => hfull h.1) ?_
    cases hfree : heap.free with
    | nil =>
      have hnot : heap.isFull = false := by
        rw [← Bool.not_eq_true]
        exact fun h => hfull ⟨hfree, h⟩
      refine @of_ok κ Handle heap _ ⟨heap.id, heap.slots.size, 0⟩ ?_
      simp only [Heap.allocate, hd, hfree, hnot, Bool.false_eq_true, if_false]
    | cons slot free =>
      refine @of_ok κ Handle heap _ (heap.handleAt slot) ?_
      simp only [Heap.allocate, hd, hfree, Bool.false_eq_true, if_false]

theorem pair (hd : heap.destroyed = false) (head tail : Handle) :
    Guarded heap (Demand.named head ++ (Demand.named tail ++ [.room])) (pair head tail) :=
  (inspect hd head).bind rfl fun _ _ => (inspect hd tail).bind rfl fun _ _ => allocate hd _

theorem setPart (hd : heap.destroyed = false) (part : PairPart) (e value : Handle) :
    Guarded heap (Demand.named e ++ .pair part e :: Demand.named value)
      (setPart part e value) := by
  refine (inspect hd e).bind rfl fun cell hcell => ?_
  have hc : heap.cell? e = some cell := inspect_eq_ok_iff.mp hcell
  have hnotPair : cell.pair? = none → ∀ other,
      (Demand.pair part e).FailsOn heap other ↔ other = .notPair part cell.kind := by
    intro hnone other
    constructor
    · rintro ⟨found, hfound, -, rfl⟩
      cases hc.symm.trans hfound
      rfl
    · rintro rfl
      exact ⟨cell, hc, hnone, rfl⟩
  cases cell with
  | pair head tail =>
    refine skip (fun other => ?_) ?_
    · rintro ⟨found, hfound, hnone, -⟩
      cases hc.symm.trans hfound
      cases hnone
    · rw [← List.append_nil (Demand.named value)]
      exact (inspect hd value).bind rfl fun _ _ => of_ok (congrArg Prod.fst (Act.run_modify _ _))
  | nil | number | symbol | string | native =>
    exact of_error (Act.run_throw _ _) (hnotPair rfl)

/-- Looking at the roots of a collection. -/
theorem checkRoots (hd : heap.destroyed = false) (roots : List Handle) :
    Guarded heap (roots.flatMap Demand.named)
      (roots.forM fun root => discard (view (Heap.inspect · root)) : HeapM κ PUnit) ∧
      ((roots.forM fun root => discard (view (Heap.inspect · root)) : HeapM κ PUnit) heap).2 =
        heap := by
  induction roots with
  | nil => exact ⟨of_ok rfl, rfl⟩
  | cons root rest ih =>
    obtain ⟨hrest, hkeeps⟩ := ih
    have hroot := (inspect hd root).map (Function.const (Cell κ) PUnit.unit)
    have hkeep := Act.run_map_state (view (Heap.inspect · root) : HeapM κ (Cell κ))
      (Function.const (Cell κ) PUnit.unit) heap
    refine ⟨hroot.bind hkeep fun _ _ => hrest, ?_⟩
    exact Act.run_bind_state hkeep fun _ => hkeeps

theorem collect (hd : heap.destroyed = false) (roots : List Handle) :
    Guarded heap (roots.flatMap Demand.named) (collect roots) := by
  have husable : ((view checkUsable : HeapM κ Unit) heap).1 = .ok () := by
    rw [view, checkUsable, if_neg (by rw [hd]; exact Bool.false_ne_true)]
  obtain ⟨hroots, hkeep⟩ := checkRoots hd roots
  have hguarded : Guarded heap ([] ++ (roots.flatMap Demand.named ++ [])) (Heap.collect roots) :=
    (of_ok husable).bind rfl fun _ _ => hroots.bind hkeep fun _ _ => of_ok rfl
  rwa [List.nil_append, List.append_nil] at hguarded

/-- What a heap in use asks for besides being in use. -/
theorem inUse (hd : heap.destroyed = false) (h : Guarded heap demands x) :
    Guarded heap (.usable :: demands) x := by
  refine skip (fun other hfails => ?_) h
  cases hd.symm.trans hfails.1

/-- A destroyed heap does not look at anything else. -/
theorem of_destroyed (hd : heap.destroyed = true)
    (h : x heap = (.error (.heap (.destroyed heap.id)), heap)) :
    Guarded heap (.usable :: demands) x :=
  of_error h fun _ => ⟨And.right, fun heq => ⟨hd, heq⟩⟩

end Guarded

theorem Request.demands_cases (request : Request κ) :
    request = .destroy ∨ ∃ rest, request.demands = .usable :: rest := by
  cases request with
  | destroy => exact .inl rfl
  | nil | number | symbol | string | pair | native | setPart | collect => exact .inr ⟨_, rfl⟩

/-- **A request fails as the first of its demands that a heap does not meet**, on every heap. -/
theorem Request.guarded (heap : Heap κ) (request : Request κ) :
    Guarded heap request.demands request.perform := by
  cases hd : heap.destroyed with
  | true =>
    rcases request.demands_cases with rfl | ⟨rest, hdemands⟩
    · exact .of_ok rfl
    · rw [hdemands]
      refine .of_destroyed hd (perform_of_destroyed hd ?_)
      rintro rfl
      cases hdemands
  | false =>
    cases request with
    | nil =>
      have hrun : ((Heap.nil : HeapM κ Handle) heap).1 = .ok heap.nilHandle := by
        simp [Heap.nil, Act.run_bind, view, checkUsable, hd]
        rfl
      exact .inUse hd ((Guarded.of_ok hrun).map _)
    | number | symbol | string | native => exact .inUse hd ((Guarded.allocate hd _).map _)
    | pair head tail => exact .inUse hd ((Guarded.pair hd head tail).map _)
    | setPart part e value => exact .inUse hd ((Guarded.setPart hd part e value).map _)
    | collect roots => exact .inUse hd ((Guarded.collect hd roots).map _)
    | destroy => exact .of_ok rfl

theorem view_map {look : Heap κ → Except Fault α} (f : α → γ) :
    (view fun heap => (look heap).map f : HeapM κ γ) = f <$> view look := by
  funext heap
  cases hlook : look heap with
  | error fault => rw [Act.run_map_error (by rw [view, hlook]), view, hlook]; rfl
  | ok a => rw [Act.run_map_ok (by rw [view, hlook]), view, hlook]; rfl

/-- The same for every call. -/
theorem Call.guarded (heap : Heap κ) (call : Call κ) :
    Guarded heap call.demands call.perform := by
  have hinspect : ∀ e, Guarded heap (.usable :: Demand.named e) (view (Heap.inspect · e)) := by
    intro e
    cases hd : heap.destroyed with
    | true => exact .of_destroyed hd (by rw [view, inspect_eq, if_pos hd])
    | false => exact .inUse hd (.inspect hd e)
  cases call with
  | request r => exact (r.guarded heap).map _
  | inspect e => exact (hinspect e).map _
  | kindOf e =>
    have hkind : (view (Heap.kindOf · e) : HeapM κ Kind) = Cell.kind <$> view (Heap.inspect · e) :=
      view_map Cell.kind
    rw [perform, hkind]
    exact ((hinspect e).map _).map _
  | liveHandles =>
    refine Guarded.map _ ?_
    cases hd : heap.destroyed with
    | true => exact .of_destroyed hd (by simp [view, Heap.liveHandles, checkUsable, hd])
    | false =>
      refine .inUse hd (@Guarded.of_ok _ _ _ _ (heap.slots.toList.filterMap Slot.handle) ?_)
      simp [view, Heap.liveHandles, checkUsable, hd]
  | isLive | size | isDestroyed => exact .of_ok rfl

/-! ## By the past of a heap -/

/-- The handle was issued and no collection reclaimed it. -/
def NamesValue (id : Nat) (past : List (Exchange κ)) (e : Handle) : Prop :=
  e ∈ issued id past ∧ ¬ Reclaimed id past e

/-- The demand is not met, and this is the fault that says so. -/
def Demand.Fails (id : Nat) (maxSlots : Number) (past : List (Exchange κ)) : Demand → Fault → Prop
  | usable, fault => .destroy ∈ past.map Prod.fst ∧ fault = .heap (.destroyed id)
  | ours e, fault => e.heap ≠ id ∧ fault = .heap (.foreign id e)
  | live e, fault => ¬ NamesValue id past e ∧ fault = .heap (.stale id e)
  | pair part e, fault => ∃ cell, (NamesValue id past e ∧ contents id past e = some cell) ∧
      cell.pair? = none ∧ fault = .notPair part cell.kind
  | room, fault =>
    Number.AtMost maxSlots {e | NamesValue id past e}.ncard ∧ fault = .heap (.exhausted id maxSlots)

section Runs

variable {id : Nat} {maxSlots : Number} {past : List (Exchange κ)} {heap : Heap κ}

/-- What a handle of a heap in use names. -/
theorem Run.cell?_eq_some_iff (h : Run id maxSlots past heap) (hd : heap.destroyed = false)
    {e : Handle} {cell : Cell κ} :
    heap.cell? e = some cell ↔ NamesValue id past e ∧ contents id past e = some cell := by
  have hlive : heap.isLive e = true ↔ NamesValue id past e := h.ledger.live_iff hd e
  rw [← hlive]
  constructor
  · intro hc
    exact ⟨isLive_of_cell? hc, h.ledger.contents_eq e cell hc⟩
  · rintro ⟨he, hcontents⟩
    obtain ⟨found, hfound⟩ := isLive_iff.mp he
    rw [hfound, ← h.ledger.contents_eq e found hfound, hcontents]

/-- The values of a heap in use are those that its past names. -/
theorem Run.live_eq (h : Run id maxSlots past heap) (hd : heap.destroyed = false) :
    heap.live = {e | NamesValue id past e}.ncard := by
  rw [live_eq_ncard (h.wellFormed.2 hd).toConsistent]
  congr 1
  ext e
  exact h.ledger.live_iff hd e

/-- **The demands that a heap in use does not meet are those that its past does not.** -/
theorem Run.failsOn_iff (h : Run id maxSlots past heap) (hd : heap.destroyed = false)
    (demand : Demand) (fault : Fault) :
    demand.FailsOn heap fault ↔ demand.Fails id maxSlots past fault := by
  have w := h.wellFormed.2 hd
  have hlive : ∀ e, heap.isLive e = true ↔ NamesValue id past e := h.ledger.live_iff hd
  cases demand with
  | usable => rw [Demand.FailsOn, Demand.Fails, h.destroyed_iff, h.wellFormed.1]
  | ours e => rw [Demand.FailsOn, Demand.Fails, h.wellFormed.1]
  | live e =>
    rw [Demand.FailsOn, Demand.Fails, h.wellFormed.1, ← isLive_eq_false_iff, ← Bool.not_eq_true,
      hlive]
  | pair part e => simp only [Demand.FailsOn, Demand.Fails, h.cell?_eq_some_iff hd]
  | room =>
    rw [Demand.FailsOn, Demand.Fails, w.full_iff h.within, h.live_eq hd, exhaustion, h.wellFormed.1,
      h.within.maxSlots_eq]

theorem Call.demands_cases (call : Call κ) :
    call.demands = [] ∨ ∃ rest, call.demands = .usable :: rest := by
  cases call with
  | request r => exact r.demands_cases.imp_left fun h => by rw [demands, h]; rfl
  | inspect | kindOf | liveHandles => exact .inr ⟨_, rfl⟩
  | isLive | size | isDestroyed => exact .inl rfl

/-- **A heap fails exactly when it should, and atomically.** In every state of a heap and for
arbitrary handles, an operation fails with a fault if and only if that is the fault of the first of
its demands that is not met, by the past of the heap alone; and when it fails, the heap is the same
as before. What has no demands, to ask whether a handle is live, for the size or whether the heap is
destroyed and to destroy it, never fails. -/
theorem refusals_are_exact (h : Run id maxSlots past heap) (call : Call κ) (fault : Fault)
    (heap' : Heap κ) : call.perform heap = (.error fault, heap') ↔
      heap' = heap ∧ FirstFails (Demand.Fails id maxSlots past) call.demands fault := by
  rw [call.guarded heap fault heap']
  refine and_congr_right fun _ => ?_
  cases hd : heap.destroyed with
  | false => exact FirstFails.congr fun demand _ other => h.failsOn_iff hd demand other
  | true =>
    -- a destroyed heap does not get past the first demand
    have hpast := h.destroyed_iff.mp hd
    rcases call.demands_cases with hnone | ⟨rest, hsome⟩
    · rw [hnone]
      exact Iff.rfl
    · rw [hsome, FirstFails.cons_iff, FirstFails.cons_iff]
      unfold Demand.FailsOn Demand.Fails
      simp [hd, hpast, h.wellFormed.1]

/-- A string whose head is to become a value of another heap: the string is judged first. -/
theorem refusals_are_exact_string : ∃ (past : List (Exchange Unit)) (heap : Heap Unit),
    Run 1 Number.infinity past heap ∧ past.map Prod.fst = [.string []] ∧
      Call.perform (.request (.setPart .head ⟨1, 1, 0⟩ ⟨2, 0, 0⟩)) heap =
        (.error (.notPair .head .string), heap) := by
  have hrun := (Run.created (@create_unbounded Unit 1)).performAll [.string []]
  refine ⟨_, _, hrun, rfl, (refusals_are_exact hrun _ _ _).mpr ⟨rfl, ?_⟩⟩
  refine .inr ⟨?_, .inr ⟨?_, .inr ⟨?_, .inl ⟨.string [], ⟨⟨?_, ?_⟩, rfl⟩, rfl, rfl⟩⟩⟩⟩
  · rintro other ⟨hdestroy, -⟩
    cases List.mem_singleton.mp hdestroy
  · rintro other ⟨hother, -⟩
    exact hother rfl
  · rintro other ⟨hnot, -⟩
    exact hnot ⟨.head _, fun h => h⟩
  · exact .head _
  · exact fun h => h

end Runs

end Heap

end ConsoleLisp
