import ConsoleLisp.CommandLine.Evaluate
import ConsoleLisp.Proofs.Diagnostic.Place
import ConsoleLisp.Proofs.Evaluation.Cycle
import ConsoleLisp.Proofs.Heap.Additions

/-!
# What is said of a line that does not parse

The message of a line that cannot be read ends in its place. The line that a command prints says
where the line of the failure is and repeats the message without the place. A collection runs behind
the failure as behind every other outcome, so a context without a root scope refuses instead.

Results:
* `ReadError.withoutPlace_message`: a message without its place is the notice, escaped units included.
* `collect_result`: whether a collection runs is decided by its root.
* **`parse_failures_are_shown`**: the outcome of a line that cannot be read, and what is said of it.
-/

namespace ConsoleLisp

open Heap

variable {κ ω ν : Type}

theorem Location.isPlaceText_suffix (place : Location) : IsPlaceText place.suffix :=
  ⟨_, _, isDigits_decimal place.line, isDigits_decimal place.column, place.suffix_eq⟩

/-- **A message without its place is the notice**, whatever unit of the source the notice repeats. -/
theorem ReadError.withoutPlace_message (e : ReadError) : withoutPlace e.message = e.notice :=
  withoutPlace_append e.notice e.location.isPlaceText_suffix

/-- What a command says of a line that cannot be read. -/
theorem Cycle.errorLine?_parseError (e : ReadError) :
    (Cycle.parseError e.message e.location).errorLine? =
      some (text "Parse error at line " ++ decimal e.location.line ++ text ": " ++ e.notice) := by
  rw [Cycle.errorLine?, parseErrorText, e.withoutPlace_message]

/-- A collection with one root runs when the root can be looked at, and is refused as the look is. -/
theorem Heap.collect_result (heap : Heap κ) (root : Handle) :
    (collect [root] heap).1.map (fun _ => ()) = (heap.inspect root).map fun _ => () := by
  cases hin : heap.inspect root with
  | error fault =>
    have hrefused : (collect [root] heap).1 = .error fault := by
      by_cases hd : heap.destroyed = true
      · rw [inspect_eq, if_pos hd] at hin
        cases hin
        have hunusable : (view checkUsable : HeapM κ Unit) heap =
            (.error (.heap (.destroyed heap.id)), heap) := by
          rw [view, checkUsable, if_pos hd]
        exact congrArg Prod.fst (Act.run_bind_error hunusable)
      · have husable : (view checkUsable : HeapM κ Unit) heap = (.ok (), heap) := by
          rw [view, checkUsable, if_neg hd]
        have hview : (view (inspect · root) : HeapM κ (Cell κ)) heap = (.error fault, heap) := by
          rw [view, hin]
        rw [collect, Act.run_bind_ok husable]
        exact congrArg Prod.fst (Act.run_bind_error (Act.run_bind_error (Act.run_map_error hview)))
    rw [hrefused]
    rfl
  | ok c =>
    have hlive : ∀ e ∈ [root], heap.isLive e = true :=
      List.forall_mem_singleton.mpr (isLive_of_cell? (inspect_eq_ok_iff.mp hin))
    have hd : heap.destroyed = false := (cell?_eq_some_iff.mp (inspect_eq_ok_iff.mp hin)).1
    have husable : (view checkUsable : HeapM κ Unit) heap = (.ok (), heap) := by
      rw [view, checkUsable, hd, if_neg Bool.false_ne_true]
    rw [collect, Act.run_bind_ok husable, Act.run_bind_ok (checkRoots_eq_ok hlive)]
    rfl

namespace Context

variable (ctx : Context) (host : Host κ ω ν) {source : Text} {store : Store κ ω ν}
  {error : ReadError} {heap₁ : Heap κ}

/-- A line that cannot be read fails as its reading did, when the root scope can be looked at. -/
theorem execute_of_unreadable (h : Heap.read source store.heap = (.ok (.error error), heap₁)) :
    (ctx.execute host source store).1 =
      (heap₁.inspect ctx.scope.chain).map fun _ => .parseError error.message error.location := by
  have hcollect := heap₁.collect_result ctx.scope.chain
  rw [execute_eq, Act.run_bind_ok (ctx.respond_of_unreadable host h)]
  cases hrun : Heap.collect [ctx.scope.chain] heap₁ with
  | mk result heap₂ =>
    rw [hrun] at hcollect
    cases hin : heap₁.inspect ctx.scope.chain with
    | error fault =>
      rw [hin] at hcollect
      cases result with
      | error fault' =>
        cases hcollect
        exact congrArg Prod.fst (Act.run_bind_error (Act.run_bind_error (Store.run_onHeap_error hrun)))
      | ok stats => cases hcollect
    | ok c =>
      rw [hin] at hcollect
      cases result with
      | error fault' => cases hcollect
      | ok stats =>
        have hstats : ctx.collect host [] { store with heap := heap₁ } = (.ok stats, _) :=
          (Act.run_bind_ok (Store.run_onHeap hrun)).trans rfl
        rw [Act.run_bind_ok hstats]
        rfl

/-- **Lines that do not parse are shown with their notice.** A source that the reader rejects gives
the failure with its message and its place, for every context whose root scope can be looked at,
and else the refusal of that look; where a well-formed heap has the root scope it can. What is said
of the failure is the line where it is and the message without its place, and that is the notice of
the reader or the lexer: of every message, also of one that repeats a unit of the source, exactly
the place at its end is dropped. -/
theorem parse_failures_are_shown
    (h : Heap.read source store.heap = (.ok (.error error), heap₁)) :
    (ctx.execute host source store).1 =
        (heap₁.inspect ctx.scope.chain).map (fun _ => .parseError error.message error.location) ∧
    (store.heap.WellFormed → store.heap.isLive ctx.scope.chain = true →
      (ctx.execute host source store).1 = .ok (.parseError error.message error.location)) ∧
    (Cycle.parseError error.message error.location).errorLine? =
        some (text "Parse error at line " ++ decimal error.location.line ++ text ": " ++
          error.notice) ∧
    ∀ e : ReadError, e.message = e.notice ++ e.location.suffix ∧
      withoutPlace e.message = e.notice := by
  have hresult := ctx.execute_of_unreadable host h
  refine ⟨hresult, fun w hroot => ?_, Cycle.errorLine?_parseError error,
    fun e => ⟨rfl, e.withoutPlace_message⟩⟩
  obtain ⟨-, hadds, -⟩ := (read_adding source w).of_ok h
  obtain ⟨c, hc⟩ := isLive_iff.mp (hadds.toExtends.isLive hroot)
  rw [hresult, inspect_eq_ok_iff.mpr hc]
  rfl

/-- A heap with nil and the empty frame of a root scope. -/
def bareHeap : Heap (Action Empty) :=
  ⟨1, Number.infinity, #[⟨0, some .nil, some ⟨1, 0, 0⟩⟩,
    ⟨0, some (.pair ⟨1, 0, 0⟩ ⟨1, 0, 0⟩), some ⟨1, 1, 0⟩⟩], [], 2, false⟩

/-- A context that binds nothing. -/
def bare : Context := ⟨⟨⟨1, 1, 0⟩⟩, ⟨none, some maxEvalDepth⟩⟩

theorem create_bare : Context.create 1 (⟨none, none, none, false, []⟩ : Options (Action Empty)) =
    .ok (bare, bareHeap) := by
  have hnew : (Heap.create 1 Number.infinity : Except Fault (Heap (Action Empty))) = .ok _ :=
    create_unbounded 1
  unfold Context.create
  simp only [CountSetting.check, bind, Except.bind, Option.getD_none, hnew]
  rfl

theorem bareHeap_wellFormed : bareHeap.WellFormed := by
  have hrun := (Run.created (create_unbounded (κ := Action Empty) 1)).performAll
    [.pair ⟨1, 0, 0⟩ ⟨1, 0, 0⟩]
  exact hrun.wellFormed.2 rfl

/-- An escape on the second line whose unit is half of a surrogate pair. -/
theorem parse_failures_are_shown_escape : ∃ source notice,
    source = text "(a\n\"\\" ++ [0xD800] ∧ notice = text "Invalid escape sequence: \\" ++ [0xD800] ∧
    ∃ error heap₁, Heap.read source bareHeap = (.ok (.error error), heap₁) ∧
      (bare.execute EvaluateCommand.host source ⟨bareHeap, (), [], []⟩).1 =
        .ok (.parseError (notice ++ text " at 2:3") ⟨2, 3, 5⟩) ∧
      (Cycle.parseError (notice ++ text " at 2:3") ⟨2, 3, 5⟩).errorLine? =
        some (text "Parse error at line 2: " ++ notice) := by
  let error : ReadError := .lexical (.invalidEscape 0xD800 ⟨2, 3, 5⟩)
  have hread : Heap.read (text "(a\n\"\\" ++ [0xD800]) bareHeap = (.ok (.error error), _) := rfl
  obtain ⟨-, hcycle, hline, -⟩ := @parse_failures_are_shown _ _ _ bare EvaluateCommand.host _
    ⟨bareHeap, (), [], []⟩ _ _ hread
  have hmessage : error.message =
      text "Invalid escape sequence: \\" ++ [0xD800] ++ text " at 2:3" := by decide +kernel
  have hlocation : error.location = ⟨2, 3, 5⟩ := rfl
  have hnotice : error.notice = text "Invalid escape sequence: \\" ++ [0xD800] := rfl
  rw [hmessage, hlocation, hnotice] at hline
  rw [hmessage, hlocation] at hcycle
  refine ⟨_, _, rfl, rfl, error, _, hread, hcycle bareHeap_wellFormed rfl, hline.trans ?_⟩
  exact congrArg some (List.append_assoc ..)

/-- In a destroyed heap a line is still read and rejected, and then the collection is refused. -/
theorem execute_of_unreadable_destroyed :
    let heap := bareHeap.destroy.2
    Context.create 1 (⟨none, none, none, false, []⟩ : Options (Action Empty)) =
      .ok (bare, bareHeap) ∧
    Heap.read (text ")") heap = (.ok (.error (.unexpectedClose ⟨1, 1, 0⟩)), heap) ∧
    (bare.execute EvaluateCommand.host (text ")") ⟨heap, (), [], []⟩).1 =
      .error (.heap (.destroyed 1)) :=
  ⟨create_bare, rfl, rfl⟩

end Context

end ConsoleLisp
