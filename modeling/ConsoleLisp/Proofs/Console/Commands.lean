import ConsoleLisp.CommandLine.Prompt
import ConsoleLisp.Proofs.Console.Record
import ConsoleLisp.Proofs.Memory.Session

/-!
# Commands do not disturb a session

A new console, and a console behind a line that returned, have nothing in their heap that the root
scope does not reach (`IsClean`). So the collection that `:gc` runs is the identity on the heap, the
order of its free slots included, and the other commands only look. A command can be left out
wherever it stands: every script line is then handled by the same console as before.

Results:
* `Command.ofLine?_eq_none_iff`: the lines that are no commands.
* `IsClean.collect_eq`: a collection of a clean console is the identity.
* **`IsClean.handleLine_eq`**: so is a blank line or a command.
* `IsClean.submit`: a line that returns leaves a console clean.
* **`commands_change_nothing`**: sessions at the prompt with and without commands.
-/

namespace ConsoleLisp

variable {χ σ ν : Type}

/-! ## Lines -/

/-- The line is neither blank nor a command. -/
def isScript (line : Text) : Bool :=
  Text.trim line ≠ [] && (Text.trim line).head? ≠ some (unit ':')

/-- **What does not start with a colon is no command.** -/
theorem Command.ofLine?_eq_none_iff {line : Text} :
    Command.ofLine? line = none ↔ line.head? ≠ some (unit ':') := by
  unfold Command.ofLine?
  constructor
  · rintro h hcolon
    rw [if_pos hcolon] at h
    split_ifs at h
  · intro hcolon
    have hne : ∀ command : Text, command.head? = some (unit ':') → line ≠ command := by
      rintro command hcommand rfl
      exact hcolon hcommand
    rw [if_neg (hne _ (by decide)), if_neg (hne _ (by decide)), if_neg (hne _ (by decide)),
      if_neg (hne _ (by decide)), if_neg hcolon]

namespace Console

/-! ## Sessions at the prompt -/

/-- The host of a prompt: nobody observes what happens. -/
def unobserved (custom : χ → Scope → Handle → Procedure (ConsoleAction χ) (Stage σ) Handle) :
    Host (ConsoleAction χ) (Stage σ) ν :=
  .withBuiltins (LevelAction.procedure custom) fun _ _ => []

/-- A line that was handled, the console before it, and what came of it. -/
structure Handled (χ σ ν : Type) where
  before : Console χ σ ν
  line : Text
  result : Except Fault Response

/-- Handle lines one after another: what became of each, and the console behind them. -/
def handleLines (host : Host (ConsoleAction χ) (Stage σ) ν) :
    List Text → Console χ σ ν → List (Handled χ σ ν) × Console χ σ ν
  | [], c => ([], c)
  | line :: rest, c =>
    let (result, c') := handleLine host line c
    let (handled, last) := handleLines host rest c'
    (⟨c, line, result⟩ :: handled, last)

/-- The lines that the listener of the console receives. -/
def Handled.received (handled : Handled χ σ ν) : List Line :=
  match handled.result with
  | .ok response => response.lines
  | .error _ => []

/-- Nothing is in the heap that the root scope does not reach, and the natives are those of the
builtins and the levels. -/
structure IsClean (c : Console χ σ ν) : Prop where
  rooted : ∃ bound, c.store.heap.Rooted Native.IsStandard c.context.scope bound
  isTidy : c.store.heap.IsTidy c.context.scope.chain

variable {c c' : Console χ σ ν}

/-- **A new console is clean.** -/
theorem isClean_of_create {id : Nat} {options : ConsoleOptions} {level : Level} {state : σ}
    (h : create id options level state = .ok c) : c.IsClean := by
  obtain ⟨_, -, h⟩ := exists_of_except_bind h
  obtain ⟨created, hcreate, h⟩ := exists_of_except_bind h
  cases h
  have hnatives : ∀ n ∈ (LevelAction.natives : NativeSet (ConsoleAction χ)),
      n.2.IsStandard := fun n hn =>
    List.mem_map_of_mem (List.mem_append_right _ hn)
  obtain ⟨hrooted, htidy⟩ := create_rooted hcreate hnatives
  exact ⟨hrooted, htidy⟩

namespace IsClean

variable (custom : χ → Scope → Handle → Procedure (ConsoleAction χ) (Stage σ) Handle)

/-- **A collection of a clean console is the identity**, unless somebody observes it. -/
theorem collect_eq (h : c.IsClean) :
    collect (unobserved custom) c =
      (.ok ⟨c.store.heap.live, 0⟩, c) := by
  obtain ⟨bound, hrooted⟩ := h.rooted
  have hcollect := h.isTidy.collect_eq hrooted.wellFormed hrooted.scope_isLive
  have hstore : c.context.collect (unobserved custom) [] c.store =
      (.ok ⟨c.store.heap.live, 0⟩, c.store) :=
    (Act.run_bind_ok (Store.run_onHeap hcollect)).trans rfl
  exact (Act.run_bind_ok (Act.run_get _)).trans (run_onStore hstore)

/-- **A command of a clean console changes nothing** and sends nothing to the listener; what `:gc`
shows is that nothing was freed. -/
theorem runCommand_eq (h : c.IsClean) (command : Command) :
    ∃ result, runCommand (unobserved custom) command c =
        (result, c) ∧ (∀ response, result = .ok response → response.lines = []) ∧
      (command = .collect → result =
        .ok (.print (text "live " ++ decimal c.store.heap.live ++ text ", freed 0"))) := by
  cases command with
  | quit | rects | unknown => exact ⟨_, rfl, by rintro _ ⟨⟩; rfl, nofun⟩
  | collect =>
    refine ⟨_, Act.run_bind_ok (h.collect_eq custom), by rintro _ ⟨⟩; rfl, fun _ => ?_⟩
    have hzero : text ", freed " ++ decimal 0 = text ", freed 0" := by decide
    rw [← hzero, ← List.append_assoc]
  | environment =>
    have hlook : (show ConsoleM χ σ ν _ from fun c => (c.bindings, c)) c = (c.bindings, c) := rfl
    cases hbindings : c.bindings with
    | ok bindings =>
      rw [hbindings] at hlook
      exact ⟨_, Act.run_bind_ok hlook, by rintro _ ⟨⟩; rfl, nofun⟩
    | error fault =>
      rw [hbindings] at hlook
      exact ⟨_, Act.run_bind_error hlook, nofun, nofun⟩

/-- **A line that returns leaves a clean console clean.** -/
theorem submit (h : c.IsClean) {line : Text} {submission : Submission} {c' : Console χ σ ν}
    (hrun : Console.submit (unobserved custom) line c =
      (.ok submission, c')) : c'.IsClean := by
  obtain ⟨bound, hrooted⟩ := h.rooted
  have hstart : (c.store.withLog []).heap.Rooted Native.IsStandard c.context.scope bound := hrooted
  rcases hexecute : c.context.execute (unobserved custom) line (c.store.withLog []) with
    ⟨fault | cycle, after⟩
  · cases (submit_of_error hexecute).symm.trans hrun
  · cases (submit_of_ok hexecute).symm.trans hrun
    obtain ⟨⟨made, hkeeps⟩, hreturned⟩ :=
      execute_keeps custom (fun _ _ => []) c.context line hstart hexecute
    exact ⟨⟨_, hkeeps.rooted⟩, (hreturned cycle rfl).1⟩

end IsClean

/-! ## Lines of a session -/

section Lines

variable (custom : χ → Scope → Handle → Procedure (ConsoleAction χ) (Stage σ) Handle)
  {line : Text}

/-- A line that is no script line is blank or gives a command. -/
theorem handleLine_of_not_isScript (host : Host (ConsoleAction χ) (Stage σ) ν)
    (h : isScript line = false) (hblank : Text.trim line ≠ []) :
    ∃ command, Command.ofLine? (Text.trim line) = some command ∧
      handleLine host line c = runCommand host command c := by
  have hcolon : (Text.trim line).head? = some (unit ':') := by
    by_contra hnot
    rw [isScript, decide_eq_true hblank, decide_eq_true hnot] at h
    cases h
  cases hcommand : Command.ofLine? (Text.trim line) with
  | none => exact absurd hcolon (Command.ofLine?_eq_none_iff.mp hcommand)
  | some command =>
    refine ⟨command, rfl, ?_⟩
    unfold handleLine
    rw [if_neg hblank, hcommand]

theorem handleLine_of_isScript (host : Host (ConsoleAction χ) (Stage σ) ν)
    (h : isScript line = true) :
    handleLine host line c = (do
      return ⟨none, (← submit host (Text.trim line)).lines, false⟩ : ConsoleM χ σ ν Response) c := by
  rw [isScript, Bool.and_eq_true, decide_eq_true_eq, decide_eq_true_eq] at h
  unfold handleLine
  rw [if_neg h.1, Command.ofLine?_eq_none_iff.mpr h.2]

/-- **A blank line or a command changes nothing** in a clean console. -/
theorem IsClean.handleLine_eq (h : c.IsClean) (hline : isScript line = false) :
    ∃ result, handleLine (unobserved custom) line c =
        (result, c) ∧ (∀ response, result = .ok response → response.lines = []) ∧
      (Text.trim line = text ":gc" → result =
        .ok (.print (text "live " ++ decimal c.store.heap.live ++ text ", freed 0"))) := by
  by_cases hblank : Text.trim line = []
  · refine ⟨.ok ⟨none, [], false⟩, ?_, by rintro _ ⟨⟩; rfl, fun hgc => ?_⟩
    · unfold handleLine
      rw [if_pos hblank]
      rfl
    · cases hblank.symm.trans hgc
  · obtain ⟨command, hcommand, heq⟩ := handleLine_of_not_isScript (c := c) _ hline hblank
    obtain ⟨result, hrun, hlines, hcollect⟩ := h.runCommand_eq custom command
    refine ⟨result, heq.trans hrun, hlines, fun hgc => hcollect ?_⟩
    rw [hgc] at hcommand
    exact (Option.some.inj hcommand).symm

/-- A script line that returns leaves a clean console clean. -/
theorem IsClean.handleLine (h : c.IsClean) (hline : isScript line = true) {response : Response}
    (hrun : Console.handleLine (unobserved custom) line c = (.ok response, c')) : c'.IsClean := by
  rw [handleLine_of_isScript _ hline] at hrun
  obtain ⟨submission, _, hsubmit, ⟨⟩⟩ := Act.exists_of_run_bind hrun
  exact h.submit custom hsubmit

theorem handleLines_cons {host : Host (ConsoleAction χ) (Stage σ) ν}
    {result : Except Fault Response} (hrun : Console.handleLine host line c = (result, c'))
    (rest : List Text) :
    handleLines host (line :: rest) c =
      (⟨c, line, result⟩ :: (handleLines host rest c').1, (handleLines host rest c').2) := by
  rw [handleLines, hrun]

/-- **Lines without the blank ones and the commands.** By induction on the lines: what is left out
changes nothing, and every other line leaves the console clean for the next. -/
theorem IsClean.handleLines_filter (h : c.IsClean) (lines : List Text)
    (hreturned : ∀ x ∈ (handleLines (unobserved custom) lines c).1,
      ∃ response, x.result = .ok response) :
    handleLines (unobserved custom) (lines.filter isScript) c =
      ((handleLines (unobserved custom) lines c).1.filter (isScript ·.line),
        (handleLines (unobserved custom) lines c).2) ∧
    ∀ x ∈ (handleLines (unobserved custom) lines c).1, isScript x.line = false →
      x.received = [] ∧ (Text.trim x.line = text ":gc" → x.result =
        .ok (.print (text "live " ++ decimal x.before.store.heap.live ++ text ", freed 0"))) := by
  induction lines generalizing c with
  | nil =>
    rw [handleLines] at hreturned ⊢
    exact ⟨rfl, fun _ hx => absurd hx List.not_mem_nil⟩
  | cons line rest ih =>
    rcases hrun : Console.handleLine (unobserved custom) line c with ⟨result, c'⟩
    rw [handleLines_cons hrun] at hreturned ⊢
    obtain ⟨⟨response, rfl⟩, hrest⟩ := List.forall_mem_cons.mp hreturned
    cases hline : isScript line with
    | true =>
      obtain ⟨hsame, hquiet⟩ := ih (h.handleLine custom hline hrun) hrest
      refine ⟨?_, List.forall_mem_cons.mpr ⟨fun hnot => ?_, hquiet⟩⟩
      · rw [List.filter_cons_of_pos hline, handleLines_cons hrun, hsame, List.filter_cons_of_pos
          (p := fun x : Handled χ σ ν => isScript x.line) hline]
      · cases hline.symm.trans hnot
    | false =>
      obtain ⟨_, hcommand, hlines, hgc⟩ := h.handleLine_eq custom hline
      cases hcommand.symm.trans hrun
      obtain ⟨hsame, hquiet⟩ := ih h hrest
      have hnot : ¬ isScript line = true := by
        rw [hline]
        exact Bool.false_ne_true
      refine ⟨?_, List.forall_mem_cons.mpr ⟨fun _ => ⟨hlines response rfl, hgc⟩, hquiet⟩⟩
      rw [List.filter_cons_of_neg hnot, hsame, List.filter_cons_of_neg
        (p := fun x : Handled χ σ ν => isScript x.line) hnot]

end Lines

/-- What a listener receives of lines that send nothing can be left out. -/
theorem flatMap_received_filter {handled : List (Handled χ σ ν)}
    (h : ∀ x ∈ handled, isScript x.line = false → x.received = []) :
    (handled.filter (isScript ·.line)).flatMap Handled.received =
      handled.flatMap Handled.received := by
  induction handled with
  | nil => rfl
  | cons x rest ih =>
    obtain ⟨hfirst, hrest⟩ := List.forall_mem_cons.mp h
    rw [List.filter_cons, List.flatMap_cons]
    split
    · rw [List.flatMap_cons, ih hrest]
    · rw [hfirst (Bool.eq_false_of_not_eq_true ‹_›), List.nil_append, ih hrest]

/-- **Commands change nothing.** Lines are handled at the prompt of a new console, and none of them
ends in a fault. Without the blank lines and the commands every other line is handled by the same
console and leads to the same; the console behind them is the same, with its log, its history, the
forces of its level and its whole heap; and its listener receives the same lines. Every `:gc` shows
that nothing was freed. -/
theorem commands_change_nothing {id : Nat} {options : ConsoleOptions} {level : Level} {state : σ}
    (hcreate : create id options level state = .ok c)
    (custom : χ → Scope → Handle → Procedure (ConsoleAction χ) (Stage σ) Handle)
    (lines : List Text) {handled handled' : List (Handled χ σ ν)} {last last' : Console χ σ ν}
    (hwith : handleLines (unobserved custom) lines c = (handled, last))
    (hwithout : handleLines (unobserved custom) (lines.filter isScript) c = (handled', last'))
    (hreturned : ∀ x ∈ handled, ∃ response, x.result = .ok response) :
    handled' = handled.filter (isScript ·.line) ∧ last' = last ∧
      handled'.flatMap Handled.received = handled.flatMap Handled.received ∧
      ∀ x ∈ handled, Text.trim x.line = text ":gc" → x.result =
        .ok (.print (text "live " ++ decimal x.before.store.heap.live ++ text ", freed 0")) := by
  have hlines := (isClean_of_create hcreate).handleLines_filter custom lines
  rw [hwith, hwithout] at hlines
  obtain ⟨hsame, hquiet⟩ := hlines hreturned
  obtain ⟨hhandled, hlast⟩ := Prod.mk.inj hsame
  refine ⟨hhandled, hlast, ?_, fun x hx hgc => (hquiet x hx ?_).2 hgc⟩
  · rw [hhandled, flatMap_received_filter fun x hx hline => (hquiet x hx hline).1]
  · rw [isScript, hgc]
    decide

/-- A console of the command with nothing but defaults, and its level empty. -/
@[irreducible] def prompt : PromptCommand.Session :=
  (create 1 ⟨none, none, none, true, none, true⟩ .empty ()).toOption.get (by decide +kernel)

theorem create_prompt : create 1 ⟨none, none, none, true, none, true⟩ .empty () = .ok prompt := by
  unfold prompt
  exact eq_ok_get_toOption _

/-- The host of the command is one that nobody observes. -/
theorem host_eq_unobserved : PromptCommand.host = unobserved fun action => action.elim := rfl

/-- A line that binds `x` and a collection behind it: without the collection the console is the
same. -/
theorem commands_change_nothing_gc :
    create 1 ⟨none, none, none, true, none, true⟩ .empty () = .ok prompt ∧
    ∃ response last,
      handleLines PromptCommand.host [text "(set x 1)", text ":gc"] prompt =
        ([⟨prompt, text "(set x 1)", .ok response⟩, ⟨last, text ":gc", .ok (.print
          (text "live " ++ decimal last.store.heap.live ++ text ", freed 0"))⟩], last) ∧
      (handleLines PromptCommand.host [text "(set x 1)"] prompt).2 = last := by
  rw [host_eq_unobserved]
  have hclean := isClean_of_create create_prompt
  obtain ⟨bound, hrooted⟩ := hclean.rooted
  have hstart : (prompt.store.withLog []).heap.Rooted Native.IsStandard prompt.context.scope bound :=
    hrooted
  -- the line that binds gets a response
  have hset : (prompt.context.respond (unobserved fun action => action.elim) (text "(set x 1)")
      (prompt.store.withLog [])).1 = .ok (.ok (text "1")) := by decide +kernel
  have hresponse : prompt.context.respond (unobserved fun action => action.elim)
      (text "(set x 1)") (prompt.store.withLog []) = (.ok (.ok (text "1")), _) := Prod.ext hset rfl
  obtain ⟨_, hadvances⟩ := respond_advances _ _ prompt.context (text "(set x 1)") hstart hresponse
  obtain ⟨after, hexecute, -⟩ := prompt.context.execute_of_response _ hresponse
    hadvances.rooted.wellFormed hadvances.rooted.scope_isLive
  have hscript : isScript (text "(set x 1)") = true := by decide
  have hcommand : isScript (text ":gc") = false := by decide
  obtain ⟨response, last, hline⟩ : ∃ response last, Console.handleLine
      (unobserved fun action => action.elim) (text "(set x 1)") prompt = (.ok response, last) :=
    ⟨_, _, (handleLine_of_isScript _ hscript).trans (Act.run_bind_ok (submit_of_ok hexecute))⟩
  -- and the collection behind it shows that nothing was freed
  obtain ⟨_, hgc, -, hresult⟩ := (hclean.handleLine _ hscript hline).handleLine_eq
    (fun action => action.elim) hcommand
  rw [hresult (by decide)] at hgc
  have hwith := handleLines_cons hline [text ":gc"]
  rw [handleLines_cons hgc] at hwith
  obtain ⟨-, hlast, -, -⟩ := commands_change_nothing create_prompt _ _ hwith rfl (by
    simp [handleLines])
  exact ⟨create_prompt, response, last, hwith, hlast⟩

end Console

end ConsoleLisp
