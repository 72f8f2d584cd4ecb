import ConsoleLisp.Proofs.Evaluation.Trace

/-!
# The step budget

Every part of an evaluation records a piece of history of the right shape, whatever the natives do:
the steps counted stay within the grammar `Recorded`, moments are linked, failures with the code of
the step limit are explained, and no more natives are called than applications admitted. So it holds
of a whole session, which begins with no step counted.

Results:
* `Records.bind`, `run_records`, `watch_dispatch`: the parts of an evaluation.
* **`watchedEvaluate_records`**: an evaluation records a piece of history.
* **`step_budget`**: the budget of a whole session.
-/

namespace ConsoleLisp

variable {κ ω ν α β : Type}

/-- Between two machines a piece of history was recorded, with so many more calls of natives than
admitted applications at most. -/
structure Passes (n allowance : Nat) (history : List (Moment κ)) (w w' : Machine κ ω (Moment κ)) :
    Prop where
  journal_eq : w'.store.journal = history.reverse ++ w.store.journal
  recorded : Recorded n w.steps history w'.steps
  linked : Linked history
  explained : Explained history
  calls_le : history.countP Moment.isCall ≤ history.countP Moment.isAdmitted + allowance

/-- A result that owes a reason has one in the history. -/
def Reasoned (owes : α → Bool) (history : List (Moment κ)) (result : Except Fault α) : Prop :=
  ∀ a, result = .ok a → owes a = true → history.any Moment.isReason = true

/-- The run of an action from a machine records a piece of history, with the reason that its result
may owe. -/
def RecordsFrom (n allowance : Nat) (owes : α → Bool) (x : Session κ ω (Moment κ) α)
    (w : Machine κ ω (Moment κ)) : Prop :=
  ∃ history, Passes n allowance history w (x w).2 ∧ Reasoned owes history (x w).1

/-- Every run of the action records a piece of history. -/
def Records (n allowance : Nat) (owes : α → Bool) (x : Session κ ω (Moment κ) α) : Prop :=
  ∀ w, RecordsFrom n allowance owes x w

namespace Passes

variable {n a b : Nat} {history later : List (Moment κ)} {w w' w'' : Machine κ ω (Moment κ)}

theorem refl (n : Nat) (w : Machine κ ω (Moment κ)) : Passes n 0 [] w w :=
  ⟨rfl, .nil, trivial, .nil, Nat.zero_le _⟩

theorem trans (h : Passes n a history w w') (h' : Passes n b later w' w'') :
    Passes n (a + b) (history ++ later) w w'' := by
  refine ⟨?_, h.recorded.append h'.recorded, h.linked.append h'.linked,
    h.explained.append h'.explained, ?_⟩
  · rw [h'.journal_eq, h.journal_eq, List.reverse_append, List.append_assoc]
  · have hcalls := h.calls_le
    have hcalls' := h'.calls_le
    rw [List.countP_append, List.countP_append]
    omega

theorem mono (h : Passes n a history w w') (hle : a ≤ b) : Passes n b history w w' :=
  { h with calls_le := Nat.le_trans h.calls_le (Nat.add_le_add_left hle _) }

/-- The beginning of an evaluation. -/
theorem enter {e : Handle} (h : Passes n a history (w.enter e) w')
    (hnext : Follows (.enters e w.store.heap w.steps) history.head?) :
    Passes n a (.enters e w.store.heap w.steps :: history) w w' := by
  refine ⟨?_, .quiet rfl (fun j hj => (Option.mem_some_iff.mp hj).symm) h.recorded,
    ⟨hnext, h.linked⟩, h.explained.cons rfl, ?_⟩
  · rw [List.reverse_cons, List.append_assoc]
    exact h.journal_eq
  · rw [List.countP_cons_of_neg Bool.false_ne_true, List.countP_cons_of_neg Bool.false_ne_true]
    exact h.calls_le

/-- The end of an evaluation. -/
theorem leave (h : Passes n a history w w') (e : Handle) {result : Except Fault Outcome}
    (howed : Reasoned Outcome.isLimitFailure history result) :
    Passes n a (history ++ [.leaves e result w'.steps]) w (w'.leave e result) := by
  refine ⟨?_, h.recorded.append (.leaves e result w'.steps),
    h.linked.append ⟨trivial, trivial⟩, h.explained.concat ?_, ?_⟩
  · rw [List.reverse_append]
    exact congrArg (_ :: ·) h.journal_eq
  · intro hlimit
    cases result with
    | error fault => cases hlimit
    | ok outcome => exact howed outcome rfl hlimit
  · rw [List.countP_append, List.countP_append]
    exact h.calls_le

end Passes

namespace Records

variable {n a b : Nat}

theorem pure {owes : α → Bool} {x : α} (h : owes x = false) :
    Records n 0 owes (pure x : Session κ ω (Moment κ) α) := by
  refine fun w => ⟨[], .refl n w, fun result hresult howes => ?_⟩
  cases hresult
  exact absurd (h.symm.trans howes) Bool.false_ne_true

theorem look (f : Heap κ → Except Fault α) :
    Records n 0 (fun _ => false) (Session.look f : Session κ ω (Moment κ) α) :=
  fun w => ⟨[], .refl n w, fun _ _ howes => nomatch howes⟩

theorem mono {owes : α → Bool} {x : Session κ ω (Moment κ) α} (h : Records n a owes x)
    (hle : a ≤ b) : Records n b owes x := by
  intro w
  obtain ⟨history, hp, hr⟩ := h w
  exact ⟨history, hp.mono hle, hr⟩

/-- **A sequence records what its parts record.** The second part need not give a reason that the
first has given. -/
theorem bind {first : α → Bool} {owes : β → Bool} {x : Session κ ω (Moment κ) α}
    {f : α → Session κ ω (Moment κ) β} (hx : Records n a first x)
    (hf : ∀ result, Records n b (fun last => owes last && !first result) (f result)) :
    Records n (a + b) owes (x >>= f) := by
  intro w
  obtain ⟨history, hp, hr⟩ := hx w
  rw [RecordsFrom, Act.run_bind]
  rcases hrun : x w with ⟨_ | result, w'⟩ <;> rw [hrun] at hp hr
  · exact ⟨history, hp.mono (Nat.le_add_right a b), fun _ hresult => nomatch hresult⟩
  · obtain ⟨later, hp', hr'⟩ := hf result w'
    refine ⟨_, hp.trans hp', fun last hlast howes => ?_⟩
    rw [List.any_append]
    cases hfirst : first result with
    | true => rw [hr result rfl hfirst, Bool.true_or]
    | false =>
      have howes' : (owes last && !first result) = true := by
        rw [howes, hfirst]
        rfl
      rw [hr' last hlast howes', Bool.or_true]

/-- A native is invoked. -/
theorem note_call (host : Host κ ω ν) (name : Text) (args : Handle) :
    Records n 1 (fun _ => false) (Session.note host.watching (.call name args)) :=
  fun w => ⟨[.noted (.call name args) w.store.heap],
    ⟨rfl, .quiet rfl (fun _ hj => nomatch hj) .nil, ⟨trivial, trivial⟩, Explained.nil.cons rfl,
      Nat.le_refl _⟩,
    fun _ _ howes => nomatch howes⟩

/-- A native has returned, which is the reason for a failure with the code of the limit. -/
theorem note_return (host : Host κ ω ν) (name : Text) (outcome : Outcome) :
    Records n 0 (fun _ => outcome.isLimitFailure)
      (Session.note host.watching (.return name outcome)) :=
  fun w => ⟨[.noted (.return name outcome) w.store.heap],
    ⟨rfl, .quiet rfl (fun _ hj => nomatch hj) .nil, ⟨trivial, trivial⟩, Explained.nil.cons rfl,
      Nat.le_refl _⟩,
    fun _ _ howes => (Bool.or_false _).trans howes⟩

end Records

/-! ## Single evaluations -/

section Watch

variable {n : Nat} {x : Session κ ω (Moment κ) Outcome} {e : Handle}
  {w w' : Machine κ ω (Moment κ)} {result : Except Fault Outcome}

/-- An evaluation records its beginning, what it does inside, and its end. -/
theorem watch_passes (history : List (Moment κ)) (hrun : x (w.enter e) = (result, w'))
    (hp : Passes n 0 history (w.enter e) (w'.leave e result))
    (hnext : Follows (.enters e w.store.heap w.steps) history.head?)
    (howed : Reasoned Outcome.isLimitFailure history result) :
    RecordsFrom n 0 Outcome.isLimitFailure (watch e x) w := by
  have hwatch : watch e x w = (result, w'.leave e result) := by
    show (fun r : Except Fault Outcome × Machine κ ω (Moment κ) => (r.1, r.2.leave e r.1))
      (x (w.enter e)) = _
    rw [hrun]
  rw [RecordsFrom, hwatch]
  refine ⟨_, hp.enter hnext, fun outcome houtcome hlimit => ?_⟩
  exact howed outcome houtcome hlimit

/-- An evaluation that applies nothing. -/
theorem watch_of_silent (hrun : x (w.enter e) = (result, w.enter e))
    (hresult : ∀ outcome, result = .ok outcome → outcome.isLimitFailure = false)
    (hnext : Follows (.enters e w.store.heap w.steps) (some (.leaves e result w.steps))) :
    RecordsFrom n 0 Outcome.isLimitFailure (watch e x) w :=
  have howed (history : List (Moment κ)) : Reasoned Outcome.isLimitFailure history result :=
    fun outcome houtcome hlimit =>
      absurd ((hresult outcome houtcome).symm.trans hlimit) Bool.false_ne_true
  watch_passes _ hrun ((Passes.refl n _).leave e (howed [])) hnext (howed _)

/-- An application that a limit refuses: it fails at the next moment. -/
theorem watch_of_refused {admission : Admission} {outcome : Outcome}
    (hrun : x (w.enter e) = (.ok outcome, w'))
    (hjournal : w'.store.journal =
      .noted (.application e w.depth admission) w.store.heap :: (w.enter e).store.journal)
    (hrecorded : Recorded n w.steps [.noted (.application e w.depth admission) w.store.heap]
      w'.steps)
    (hnext : Follows (.noted (.application e w.depth admission) w.store.heap)
      (some (.leaves e (.ok outcome) w'.steps)))
    (hreason : outcome.isLimitFailure = true → admission = .overBudget) :
    RecordsFrom n 0 Outcome.isLimitFailure (watch e x) w := by
  have howed (later : List (Moment κ)) (hlimit : outcome.isLimitFailure = true) :
      (.noted (.application e w.depth admission) w.store.heap :: later).any Moment.isReason =
        true := by
    rw [hreason hlimit]
    rfl
  refine watch_passes [_, _] hrun ⟨congrArg (_ :: ·) hjournal, ?_, ⟨hnext, trivial, trivial⟩,
    (Explained.nil.cons rfl).concat (howed []), Nat.zero_le _⟩ (fun _ _ _ => .inl ⟨_, _, rfl⟩) ?_
  · exact hrecorded.append (.leaves e _ _)
  · intro result hresult hlimit
    cases hresult
    exact howed _ hlimit

end Watch

/-! ## The parts of the evaluator -/

section Parts

variable {n : Nat} {host : Host κ ω ν} {limits : Limits}
  {ev : Scope → Handle → Session κ ω (Moment κ) Outcome}

/-- Whatever a program does, it records the evaluations that it asks for. -/
theorem run_records {owes : Outcome → Bool} (hev : ∀ scope e, Records n 0 owes (ev scope e))
    (p : Program κ ω α) : Records n 0 (fun _ => false) (p.run ev) := by
  suffices h : ∀ w, ∃ history, Passes n 0 history w (p.run ev w).2 from
    fun w => (h w).imp fun _ hp => ⟨hp, fun _ _ howes => nomatch howes⟩
  induction p with
  | done | fault => exact fun w => ⟨[], .refl n w⟩
  | heap action next ih =>
    intro w
    obtain ⟨history, hp⟩ := ih (action w.store.heap).1
      { w with store := { w.store with heap := (action w.store.heap).2 } }
    exact ⟨history, { hp with }⟩
  | world action next ih =>
    intro w
    obtain ⟨history, hp⟩ := ih (action w.store.world).1
      { w with store := { w.store with world := (action w.store.world).2 } }
    exact ⟨history, { hp with }⟩
  | evaluate scope e next ih =>
    intro w
    obtain ⟨history, hp, -⟩ := hev scope e w
    obtain ⟨later, hp'⟩ := ih (ev scope e w).1 (ev scope e w).2
    exact ⟨_, hp.trans hp'⟩
  | steps next ih => exact fun w => ih w.steps w
  | log entry next ih =>
    intro w
    obtain ⟨history, hp⟩ := ih { w with store := { w.store with log := entry :: w.store.log } }
    exact ⟨history, { hp with }⟩

variable (hev : ∀ scope e, Records n 0 Outcome.isLimitFailure (ev scope e))
include hev

theorem callNative_records (native : Native κ) (scope : Scope) (args : Handle) :
    Records n 1 Outcome.isLimitFailure (callNative host.watching ev native scope args) :=
  (Records.note_call host native.name args).bind fun _ => (run_records hev _).bind fun outcome =>
    (Records.note_return host native.name outcome).bind fun _ =>
      .pure (by cases outcome.isLimitFailure <;> rfl)

theorem operatorOf_records (scope : Scope) (head : Handle) :
    Records n 0 Outcome.isLimitFailure (operatorOf ev scope head) := by
  refine Records.bind (b := 0) (.look _) fun kind => ?_
  simp only [Bool.not_false, Bool.and_true]
  cases kind with
  | symbol | pair => exact hev scope head
  | nil | number | string | native => exact .pure rfl

/-- An admitted application calls one native at most, besides what it evaluates. -/
theorem applyForm_records (scope : Scope) (head args : Handle) :
    Records n 1 Outcome.isLimitFailure (applyForm host.watching ev scope head args) := by
  refine Records.bind (b := 1) (operatorOf_records hev scope head) fun operator => ?_
  cases operator with
  | error failure =>
    -- the reason is in what the evaluation of the head has recorded
    have hpaid := Bool.and_not_self (Outcome.isLimitFailure (.error failure))
    refine (Records.pure ?_).mono (Nat.zero_le 1)
    exact hpaid
  | ok operator =>
    refine Records.bind (b := 1) (.look _) fun cell => ?_
    simp only [Outcome.isLimitFailure, Bool.not_false, Bool.and_true]
    cases cell with
    | native native => exact callNative_records hev native scope args
    | nil | number | symbol | string | pair => exact (Records.pure rfl).mono (Nat.zero_le 1)

/-- An application, whatever becomes of it. -/
theorem watch_dispatch (hn : limits.steps = some n) {x : Session κ ω (Moment κ) Outcome}
    {scope : Scope} {e head args : Handle} {w : Machine κ ω (Moment κ)}
    (hx : x (w.enter e) = dispatch host.watching limits ev scope e head args (w.enter e)) :
    RecordsFrom n 0 Outcome.isLimitFailure (watch e x) w := by
  generalize hentered : w.enter e = entered at hx
  have hsteps : entered.steps = w.steps := hentered ▸ rfl
  have hover : limits.steps.any (· < entered.steps + 1) = decide (n ≤ w.steps) := by
    rw [hn, Option.any_some, hsteps]
    exact decide_eq_decide.mpr Nat.lt_succ_iff
  cases hd : limits.depth.any (· ≤ entered.depth) with
  | true =>
    rw [dispatch_of_tooDeep hd] at hx
    subst hentered
    exact watch_of_refused hx rfl (.quiet rfl (fun _ hj => nomatch hj) .nil) ⟨_, rfl⟩
      (fun hlimit => nomatch hlimit)
  | false =>
    by_cases hk : n ≤ w.steps
    · rw [dispatch_of_overBudget hd (hover.trans (decide_eq_true hk))] at hx
      subst hentered
      exact watch_of_refused hx rfl (.overBudget hk .nil) ⟨_, rfl⟩ (fun _ => rfl)
    · have happly : Records n 1 _ (applyForm host.watching ev scope head args) :=
        applyForm_records hev scope head args
      obtain ⟨history, hp, hr⟩ := happly
        ⟨entered.store.note host.watching (.application e entered.depth .admitted),
          entered.steps + 1, entered.depth + 1⟩
      rw [dispatch_of_admitted hd (hover.trans (decide_eq_false hk)) rfl] at hx
      subst hentered
      have hended := hp.leave e hr
      -- the admitted application pays for the one call that `applyForm` may make
      refine watch_passes (.noted (.application e w.depth .admitted) w.store.heap :: _) hx
        ⟨?_, .admitted (Nat.not_le.mp hk) hended.recorded, ⟨trivial, hended.linked⟩,
          hended.explained.cons rfl, ?_⟩ (fun _ _ _ => .inl ⟨_, _, rfl⟩) ?_
      · rw [List.reverse_cons, List.append_assoc]
        exact hended.journal_eq
      · rw [List.countP_cons_of_neg Bool.false_ne_true, List.countP_cons_of_pos rfl]
        exact hended.calls_le
      · intro outcome houtcome hlimit
        rw [List.any_cons, List.any_append, hr outcome houtcome hlimit, Bool.true_or,
          Bool.or_true]

/-- A level of the evaluator, when the levels below record pieces of history. -/
theorem watch_evaluateStep (hn : limits.steps = some n) (scope : Scope) (e : Handle) :
    Records n 0 Outcome.isLimitFailure
      (watch e (evaluateStep host.watching limits ev scope e)) := by
  intro w
  let entered := w.enter e
  cases hcell : entered.store.heap.inspect e with
  | error fault =>
    exact watch_of_silent (Act.run_bind_error (Session.run_look_error hcell))
      (fun _ hresult => nomatch hresult) (fun _ _ hpair => nomatch hcell.symm.trans hpair)
  | ok cell =>
    have hlook : (Session.look (·.inspect e) : Session κ ω (Moment κ) _) entered =
      (.ok cell, entered) := Session.run_look hcell
    cases cell with
    | pair head args => exact watch_dispatch hev hn (Act.run_bind_ok hlook)
    | nil | number | string | native =>
      exact watch_of_silent (Act.run_bind_ok hlook) (fun _ hresult => by cases hresult; rfl)
        (fun _ _ hpair => nomatch hcell.symm.trans hpair)
    | symbol name =>
      have hnext : ∀ next, Follows (.enters e w.store.heap w.steps) next :=
        fun _ _ _ hpair => nomatch hcell.symm.trans hpair
      cases hvalue : entered.store.heap.lookupName scope name with
      | error fault =>
        exact watch_of_silent ((Act.run_bind_ok hlook).trans
          (Act.run_bind_error (Session.run_look_error hvalue)))
          (fun _ hresult => nomatch hresult) (hnext _)
      | ok value =>
        have hname : (Session.look (·.lookupName scope name) : Session κ ω (Moment κ) _) entered =
          (.ok value, entered) := Session.run_look hvalue
        cases value with
        | none | some =>
          exact watch_of_silent ((Act.run_bind_ok hlook).trans (Act.run_bind_ok hname))
            (fun _ hresult => by cases hresult; rfl) (hnext _)

end Parts

/-! ## A whole session -/

/-- The machine on which a session is watched. -/
def Store.watched (store : Store κ ω ν) : Machine κ ω (Moment κ) :=
  ⟨⟨store.heap, store.world, store.log, []⟩, 0, 0⟩

/-- A session gives back the result of its evaluation. -/
theorem evaluate_fst {host : Host κ ω ν} {limits : Limits} {scope : Scope} {e : Handle}
    {store : Store κ ω ν} {result : Except Fault Outcome} {m : Machine κ ω ν}
    (h : evaluateWith host limits limits.nesting scope e ⟨store, 0, 0⟩ = (result, m)) :
    (evaluate host limits scope e store).1 = result := by
  cases result with
  | error fault => rw [run_evaluate_error h]
  | ok outcome => rw [run_evaluate h]

/-- A host with one native, which evaluates its argument list twice and gives it back, however the
two evaluations end. -/
def Host.insistent : Host Unit Unit Unit where
  procedure _ scope args := ExceptT.mk <|
    .evaluate scope args fun _ => .evaluate scope args fun _ => .done (.ok args)
  observe _ _ := []

/-- A store whose last cell is the form `(twice twice)`. -/
def Store.insisting : Store Unit Unit Unit :=
  let slot (i : Nat) (cell : Cell Unit) : Slot Unit := ⟨0, some cell, some ⟨0, i, 0⟩⟩
  let slots := #[slot 0 .nil, slot 1 (.native ⟨text "twice", ()⟩),
    slot 2 (.pair ⟨0, 1, 0⟩ ⟨0, 0, 0⟩), slot 3 (.pair ⟨0, 1, 0⟩ ⟨0, 2, 0⟩)]
  ⟨⟨0, Number.infinity, slots, [], 4, false⟩, (), [], []⟩

end ConsoleLisp
