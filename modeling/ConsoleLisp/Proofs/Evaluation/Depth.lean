import ConsoleLisp.Proofs.Evaluation.Session

/-!
# The depth budget

`nested` counts the applications that are open at the end of a history, from the moments alone:
where an evaluation begins, where its form is admitted and where it ends. The counter of the
machine agrees with it at every moment, so the depth limit bounds how deep applications really nest,
whatever the natives do and however an evaluation ends.

Histories have their latest moment in front here, as a journal has.

Results:
* `Nests.keepsDepth`: what follows from the shape of a history.
* `conduct_restores`, `conduct_nests`: what an evaluation does to the counter and to the history.
* **`depth_budget`**: the depth budget of a whole session.
-/

namespace ConsoleLisp

variable {κ ω ν : Type}

/-- The evaluations that have begun and not ended, the innermost in front; one is marked while its
form is being applied. -/
def inProgress : List (Moment κ) → List Bool
  | [] => []
  | .enters .. :: past => false :: inProgress past
  | .leaves .. :: past => (inProgress past).tail
  | .noted (.application _ _ .tooDeep) _ :: past => inProgress past
  | .noted (.application ..) _ :: past => true :: (inProgress past).tail
  | .noted .. :: past => inProgress past

/-- The number of applications that are open. -/
def nested (past : List (Moment κ)) : Nat := (inProgress past).count true

/-- The depth budget of a session with the depth limit `d`, read off its history. -/
structure KeepsDepth (d : Nat) (journal : List (Moment κ)) : Prop where
  /-- At no moment are more applications open. -/
  nested_le : ∀ past, past <:+ journal → nested past ≤ d
  /-- The evaluation of a pair is an application. -/
  applies : ∀ e heap steps past head args, .enters e heap steps :: past <:+ journal →
    heap.inspect e = .ok (.pair head args) → ∃ enclosing admission,
      .noted (.application e enclosing admission) heap :: .enters e heap steps :: past <:+ journal
  /-- An application is refused exactly when as many as the limit allows enclose it. -/
  refused_iff : ∀ form enclosing admission heap past,
    .noted (.application form enclosing admission) heap :: past <:+ journal →
    enclosing = nested past ∧ (admission = .tooDeep ↔ nested past = d)
  /-- One that is refused fails with its own form: the evaluation ends at the next moment, with as
  many steps counted as when it began. -/
  refused : ∀ form enclosing heap past,
    .noted (.application form enclosing .tooDeep) heap :: past <:+ journal →
    ∃ steps earlier, past = .enters form heap steps :: earlier ∧
      .leaves form (.ok (.error ⟨form, .depthExceeded⟩)) steps ::
        .noted (.application form enclosing .tooDeep) heap :: past <:+ journal

/-! ## The shape of a history -/

/-- A native is called or has returned. -/
def Event.isOfNative : Event → Bool
  | .call .. | .return .. => true
  | _ => false

/-- The histories of a session with the depth limit `d`, between evaluations and inside
applications. -/
inductive Nests (d : Nat) : List (Moment κ) → Prop
  | nil : Nests d []
  | native {event : Event} {heap : Heap κ} {past : List (Moment κ)} : event.isOfNative = true →
      Nests d past → Nests d (.noted event heap :: past)
  /-- An evaluation that applies nothing. -/
  | atom {e : Handle} {heap : Heap κ} {steps : Nat} {result : Except Fault Outcome}
      {past : List (Moment κ)} : (∀ head args, heap.inspect e ≠ .ok (.pair head args)) →
      Nests d past → Nests d (.leaves e result steps :: .enters e heap steps :: past)
  /-- An application that is refused. -/
  | refused {form : Handle} {heap : Heap κ} {steps : Nat} {past : List (Moment κ)} :
      nested past = d → Nests d past →
      Nests d (.leaves form (.ok (.error ⟨form, .depthExceeded⟩)) steps ::
        .noted (.application form d .tooDeep) heap :: .enters form heap steps :: past)
  /-- An application that is not. -/
  | applied {form : Handle} {heap : Heap κ} {steps : Nat} {admission : Admission}
      {past : List (Moment κ)} : nested past < d → admission ≠ .tooDeep → Nests d past →
      Nests d (.noted (.application form (nested past) admission) heap ::
        .enters form heap steps :: past)
  /-- The end of an evaluation that has applied its form. -/
  | leaves {e : Handle} {result : Except Fault Outcome} {steps : Nat} {past : List (Moment κ)} :
      Nests d past → Nests d (.leaves e result steps :: past)

theorem inProgress_native {event : Event} (h : event.isOfNative = true) (heap : Heap κ)
    (past : List (Moment κ)) : inProgress (.noted event heap :: past) = inProgress past := by
  cases event with
  | call | «return» => rfl
  | application | failed | collected => cases h

theorem inProgress_applied {admission : Admission} (h : admission ≠ .tooDeep) (form e : Handle)
    (enclosing steps : Nat) (heap heap' : Heap κ) (past : List (Moment κ)) :
    inProgress
      (.noted (.application form enclosing admission) heap :: .enters e heap' steps :: past) =
        true :: inProgress past := by
  cases admission with
  | tooDeep => exact absurd rfl h
  | overBudget | admitted => rfl

theorem nested_enters (e : Handle) (heap : Heap κ) (steps : Nat) (past : List (Moment κ)) :
    nested (.enters e heap steps :: past) = nested past :=
  List.count_cons_of_ne Bool.false_ne_true

/-- What is asked of a moment with the history `past`. -/
def DepthRule (d : Nat) (journal past : List (Moment κ)) : Moment κ → Prop
  | .enters e heap steps => ∀ head args, heap.inspect e = .ok (.pair head args) →
      ∃ enclosing admission, .noted (.application e enclosing admission) heap ::
        .enters e heap steps :: past <:+ journal
  | .noted (.application form enclosing admission) heap => enclosing = nested past ∧
      (admission = .tooDeep ↔ nested past = d) ∧ (admission = .tooDeep →
        ∃ steps earlier, past = .enters form heap steps :: earlier ∧
          .leaves form (.ok (.error ⟨form, .depthExceeded⟩)) steps ::
            .noted (.application form enclosing .tooDeep) heap :: past <:+ journal)
  | _ => True

theorem DepthRule.mono {d : Nat} {journal later past : List (Moment κ)} {moment : Moment κ}
    (h : DepthRule d journal past moment) (hl : journal <:+ later) :
    DepthRule d later past moment := by
  cases moment with
  | enters e heap steps =>
    intro head args hcell
    obtain ⟨enclosing, admission, hnext⟩ := h head args hcell
    exact ⟨enclosing, admission, hnext.trans hl⟩
  | noted event heap =>
    cases event with
    | application form enclosing admission =>
      refine ⟨h.1, h.2.1, fun hdeep => ?_⟩
      obtain ⟨steps, earlier, hpast, hnext⟩ := h.2.2 hdeep
      exact ⟨steps, earlier, hpast, hnext.trans hl⟩
    | call | «return» | failed | collected => trivial
  | leaves => trivial

namespace Nests

variable {d : Nat} {journal : List (Moment κ)}

theorem nested_le (h : Nests d journal) : nested journal ≤ d := by
  induction h with
  | nil => exact Nat.zero_le d
  | native hevent _ ih =>
    rw [nested, inProgress_native hevent]
    exact ih
  | atom _ _ ih => exact ih
  | refused hd => exact Nat.le_of_eq hd
  | applied hlt hadmission _ _ =>
    rw [nested, inProgress_applied hadmission, List.count_cons_self]
    exact hlt
  | leaves _ ih => exact Nat.le_trans ((List.tail_sublist _).count_le _) ih

/-- Every moment follows the rule. -/
theorem rule (h : Nests d journal) {past : List (Moment κ)} {moment : Moment κ}
    (hp : moment :: past <:+ journal) :
    nested (moment :: past) ≤ d ∧ DepthRule d journal past moment := by
  induction h generalizing past moment with
  | nil => exact absurd (List.suffix_nil.mp hp) (List.cons_ne_nil _ _)
  | @native event heap earlier hevent hnests ih =>
    rcases List.suffix_cons_iff.mp hp with heq | hp
    · cases heq
      refine ⟨(Nests.native hevent hnests).nested_le, ?_⟩
      cases event with
      | call | «return» => trivial
      | application | failed | collected => cases hevent
    · exact (ih hp).imp_right (·.mono (List.suffix_cons ..))
  | atom hatom hnests ih =>
    rcases List.suffix_cons_iff.mp hp with heq | hp
    · cases heq
      exact ⟨(Nests.atom hatom hnests).nested_le, trivial⟩
    rcases List.suffix_cons_iff.mp hp with heq | hp
    · cases heq
      exact ⟨hnests.nested_le, fun head args hcell => absurd hcell (hatom head args)⟩
    · exact (ih hp).imp_right (·.mono ⟨[_, _], rfl⟩)
  | @refused form heap steps earlier hd hnests ih =>
    have hlast : nested (.enters form heap steps :: earlier) = d :=
      (nested_enters ..).trans hd
    rcases List.suffix_cons_iff.mp hp with heq | hp
    · cases heq
      exact ⟨(Nests.refused hd hnests).nested_le, trivial⟩
    rcases List.suffix_cons_iff.mp hp with heq | hp
    · cases heq
      exact ⟨Nat.le_of_eq hlast, hlast.symm, ⟨fun _ => hlast, fun _ => rfl⟩,
        fun _ => ⟨steps, earlier, rfl, List.suffix_rfl⟩⟩
    rcases List.suffix_cons_iff.mp hp with heq | hp
    · cases heq
      exact ⟨Nat.le_of_eq hlast, fun _ _ _ => ⟨d, .tooDeep, List.suffix_cons ..⟩⟩
    · exact (ih hp).imp_right (·.mono ⟨[_, _, _], rfl⟩)
  | @applied form heap steps admission earlier hlt hadmission hnests ih =>
    rcases List.suffix_cons_iff.mp hp with heq | hp
    · cases heq
      refine ⟨(Nests.applied hlt hadmission hnests).nested_le, (nested_enters ..).symm, ?_,
        fun hdeep => absurd hdeep hadmission⟩
      rw [nested_enters]
      exact ⟨fun hdeep => absurd hdeep hadmission, fun heq => absurd heq (Nat.ne_of_lt hlt)⟩
    rcases List.suffix_cons_iff.mp hp with heq | hp
    · cases heq
      exact ⟨hnests.nested_le, fun _ _ _ => ⟨_, admission, List.suffix_rfl⟩⟩
    · exact (ih hp).imp_right (·.mono ⟨[_, _], rfl⟩)
  | leaves hnests ih =>
    rcases List.suffix_cons_iff.mp hp with heq | hp
    · cases heq
      exact ⟨hnests.leaves.nested_le, trivial⟩
    · exact (ih hp).imp_right (·.mono (List.suffix_cons ..))

/-- **A history of this shape keeps the depth budget.** -/
theorem keepsDepth (h : Nests d journal) : KeepsDepth d journal where
  nested_le := by
    intro past hp
    cases past with
    | nil => exact Nat.zero_le d
    | cons moment past => exact (h.rule hp).1
  applies := fun _ _ _ _ head args hp hcell => (h.rule hp).2 head args hcell
  refused_iff := fun _ _ _ _ _ hp => ⟨(h.rule hp).2.1, (h.rule hp).2.2.1⟩
  refused := fun _ _ _ _ hp => (h.rule hp).2.2.2 rfl

end Nests

/-! ## Evaluations -/

/-- However an evaluation goes on, it ends with the counter where it began. -/
theorem conduct_restores (limits : Limits) :
    Conduct limits True fun w w' : Machine κ ω (Moment κ) => w'.depth = w.depth where
  refl _ := rfl
  trans h h' := h'.trans h
  depth_eq h := h
  heap _ _ := rfl
  world _ _ := rfl
  log _ _ := rfl
  returned _ _ _ h := h
  threw _ _ h := h
  atom _ _ _ _ := rfl
  tooDeep _ _ _ := rfl
  overBudget _ _ _ _ := rfl
  admitted {w w'} e result _ _ h := by
    show w'.depth - 1 = w.depth
    rw [h]
    rfl

/-- A machine whose counter shows the applications that are open. -/
def Machine.Counts (d : Nat) (w : Machine κ ω (Moment κ)) : Prop :=
  Nests d w.store.journal ∧ nested w.store.journal = w.depth

theorem Machine.Counts.applied {d : Nat} {limits : Limits} {w : Machine κ ω (Moment κ)}
    (hw : w.Counts d) (hd : limits.depth = some d) (h : limits.depth.any (· ≤ w.depth) = false)
    (e : Handle) (admission : Admission) (hadmission : admission ≠ .tooDeep) :
    Nests d ((w.enter e).noted (.application e w.depth admission)).store.journal := by
  obtain ⟨hnests, hcount⟩ := hw
  have hlt : nested w.store.journal < d := hcount ▸ Limits.lt_of_open hd h
  show Nests d (.noted (.application e w.depth admission) _ :: _)
  rw [← hcount]
  exact .applied hlt hadmission hnests

/-- An evaluation keeps the shape of the history, and all that it opens it closes. -/
theorem conduct_nests {limits : Limits} {d : Nat} (hd : limits.depth = some d) :
    Conduct limits False fun w w' : Machine κ ω (Moment κ) => w'.depth = w.depth ∧
      (w.Counts d → w'.Counts d ∧ inProgress w'.store.journal = inProgress w.store.journal) where
  refl _ := ⟨rfl, fun h => ⟨h, rfl⟩⟩
  trans := by
    rintro w w' w'' ⟨hdepth, hcounts⟩ ⟨hdepth', hcounts'⟩
    refine ⟨hdepth'.trans hdepth, fun h => ?_⟩
    obtain ⟨h', heq⟩ := hcounts h
    obtain ⟨h'', heq'⟩ := hcounts' h'
    exact ⟨h'', heq'.trans heq⟩
  depth_eq h := h.1
  heap _ _ := ⟨rfl, fun h => ⟨h, rfl⟩⟩
  world _ _ := ⟨rfl, fun h => ⟨h, rfl⟩⟩
  log _ _ := ⟨rfl, fun h => ⟨h, rfl⟩⟩
  returned name args outcome h := by
    refine ⟨h.1, fun hw => ?_⟩
    obtain ⟨hcounts, heq⟩ := h.2 ⟨.native rfl hw.1, hw.2⟩
    exact ⟨⟨.native rfl hcounts.1, hcounts.2⟩, heq⟩
  threw name args h := by
    refine ⟨h.1, fun hw => ?_⟩
    exact h.2 ⟨.native rfl hw.1, hw.2⟩
  atom w e result h := by
    refine ⟨rfl, fun hw => ⟨⟨.atom (fun head args hcell => (h head args hcell).1) hw.1, hw.2⟩, rfl⟩⟩
  tooDeep w e h := by
    refine ⟨rfl, fun hw => ⟨⟨?_, hw.2⟩, rfl⟩⟩
    obtain ⟨hnests, hcount⟩ := hw
    have hlimit : w.depth = d := by
      rw [hd, Option.any_some, decide_eq_true_iff] at h
      exact Nat.le_antisymm (hcount ▸ hnests.nested_le) h
    show Nests d (_ :: .noted (.application e w.depth .tooDeep) _ :: _)
    rw [hlimit]
    exact .refused (hcount.trans hlimit) hnests
  overBudget w e h _ := by
    refine ⟨rfl, fun hw => ⟨⟨?_, hw.2⟩, rfl⟩⟩
    exact .leaves (hw.applied hd h e .overBudget nofun)
  admitted {w w'} e result h _ hbody := by
    refine ⟨congrArg (· - 1) hbody.1, fun hw => ?_⟩
    have hopened : nested (w.applying e).store.journal = w.depth + 1 :=
      List.count_cons_self.trans (congrArg (· + 1) hw.2)
    obtain ⟨⟨hnests, -⟩, hprogress⟩ := hbody.2 ⟨hw.applied hd h e .admitted nofun, hopened⟩
    -- what the body leaves in progress is this application and what encloses it
    have hrest : inProgress (.leaves e result (w'.steps) :: w'.store.journal) =
        inProgress w.store.journal := congrArg List.tail hprogress
    have hclosed : w'.depth - 1 = w.depth := congrArg (· - 1) hbody.1
    exact ⟨⟨.leaves hnests, (congrArg (List.count true) hrest).trans (hw.2.trans hclosed.symm)⟩,
      hrest⟩

/-! ## A whole session -/

/-- **The depth budget of a session**, for every host, that is for all natives, whatever they catch
and however they end. An evaluation leaves the depth counter as it was, and the history of a
session, which is what the watched session has in its journal, keeps the budget. -/
theorem depth_budget (host : Host κ ω ν) {limits : Limits} {d : Nat} (hd : limits.depth = some d)
    (scope : Scope) (e : Handle) (store : Store κ ω ν) :
    (∀ fuel scope e (m : Machine κ ω ν),
      (evaluateWith host limits fuel scope e m).2.depth = m.depth) ∧
    ∃ result w, Session.Watched host limits scope e store result w ∧
      KeepsDepth d w.store.journal := by
  refine ⟨fun fuel scope e m => ?_, ?_⟩
  · let w : Machine κ ω (Moment κ) :=
      ⟨⟨m.store.heap, m.store.world, m.store.log, []⟩, m.steps, m.depth⟩
    have hmirrors : evaluateWith host limits fuel scope e m = _ :=
      evaluateWith_mirrors host m.store.journal limits fuel scope e w
    rw [hmirrors]
    exact (conduct_restores limits).watchedEvaluate host fuel scope e (.inl trivial) w rfl
  · obtain ⟨result, w, hwatched⟩ := Session.exists_watched host limits scope e store
    have hrun := (conduct_nests hd).watchedEvaluate host limits.nesting scope e
      (.inr ⟨d, hd, Nat.zero_le d, Limits.lt_nesting hd⟩) store.watched rfl
    rw [hwatched.run_eq] at hrun
    exact ⟨result, w, hwatched, (hrun.2 ⟨.nil, rfl⟩).1.1.keepsDepth⟩

/-- With one level of nesting, what a native evaluates inside an application is refused. -/
theorem depth_budget_insistent : ∃ result w,
    Session.Watched Host.insistent ⟨none, some 1⟩ ⟨⟨0, 0, 0⟩⟩ ⟨0, 3, 0⟩ Store.insisting result w ∧
      KeepsDepth 1 w.store.journal ∧ w.steps = 1 ∧ w.store.journal.countP Moment.isCall = 1 ∧
      w.store.journal.length = 11 := by
  have hd : (Limits.mk none (some 1)).depth = some 1 := rfl
  obtain ⟨-, result, w, hwatched, hkeeps⟩ :=
    depth_budget Host.insistent hd ⟨⟨0, 0, 0⟩⟩ ⟨0, 3, 0⟩ Store.insisting
  have hw := congrArg Prod.snd hwatched.run_eq
  refine ⟨result, w, hwatched, hkeeps, ?_⟩
  subst hw
  decide +kernel

end ConsoleLisp
