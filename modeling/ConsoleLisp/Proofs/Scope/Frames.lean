import ConsoleLisp.Scope
import Mathlib.Data.List.Nodup

/-!
# Lexical frames

What scopes are meant to be, without a heap: every scope has a frame, which is a list of bindings,
and perhaps a parent. A name is looked up in the frame of a scope, then in that of its parent, and
so on outward.

Results:
* `chain_put`, `local?_put`: what a binding changes in one frame.
* **`lookup_put`**: what a binding changes for all scopes.
-/

namespace ConsoleLisp

/-- The frame of a scope. The newest binding is in front. -/
structure ScopeFrame where
  scope : Scope
  parent : Option Scope
  bindings : List Binding

/-- The frame with a binding in front, when it is that of the scope. -/
def ScopeFrame.put (scope : Scope) (binding : Binding) (frame : ScopeFrame) : ScopeFrame :=
  { frame with
    bindings := if frame.scope = scope then binding :: frame.bindings else frame.bindings }

/-- The frames of some scopes. A scope made later is in front, so parents stand behind their
children. -/
abbrev Frames := List ScopeFrame

namespace Frames

/-- The scopes that have a frame. -/
def scopes (frames : Frames) : List Scope := frames.map ScopeFrame.scope

/-- The bindings in the frame of a scope. -/
def own (frames : Frames) (scope : Scope) : List Binding :=
  ((frames.find? fun frame => frame.scope = scope).map ScopeFrame.bindings).getD []

/-- The value of the newest binding of a name in the frame of a scope. -/
def local? (frames : Frames) (name : Text) (scope : Scope) : Option Handle :=
  ((frames.own scope).find? fun binding => binding.name = name).map Binding.value

/-- A scope, its parent, and so on outward. -/
def chain : Frames → Scope → List Scope
  | [], _ => []
  | frame :: rest, scope =>
    if frame.scope = scope then scope :: frame.parent.elim [] fun parent => chain rest parent
    else chain rest scope

/-- The value of a name in a scope. -/
def lookup (frames : Frames) (scope : Scope) (name : Text) : Option Handle :=
  (frames.chain scope).findSome? (frames.local? name)

/-- Put a binding in front of the frame of a scope. -/
def put (frames : Frames) (scope : Scope) (binding : Binding) : Frames :=
  frames.map (ScopeFrame.put scope binding)

/-- The parent of every frame has one further behind. -/
def Older : Frames → Prop
  | [] => True
  | frame :: rest => (∀ parent ∈ frame.parent, parent ∈ scopes rest) ∧ Older rest

variable {frames : Frames} {scope other : Scope} {binding : Binding}

/-- A scope with one frame has its bindings. -/
theorem own_of_mem (hnodup : frames.scopes.Nodup) {frame : ScopeFrame} (h : frame ∈ frames) :
    frames.own frame.scope = frame.bindings := by
  rw [own]
  cases hfind : frames.find? fun other => other.scope = frame.scope with
  | none => exact absurd (decide_eq_true rfl) (List.find?_eq_none.mp hfind frame h)
  | some other =>
    have hscope : other.scope = frame.scope := by simpa using List.find?_some hfind
    rw [List.inj_on_of_nodup_map hnodup (List.mem_of_find?_eq_some hfind) h hscope]
    rfl

/-- Frames can be left out when no parent of the others is. -/
theorem Older.filter {p : ScopeFrame → Bool} (h : frames.Older)
    (hp : ∀ frame ∈ frames, p frame = true → ∀ parent ∈ frame.parent, ∀ other ∈ frames,
      other.scope = parent → p other = true) :
    Older (frames.filter p) := by
  induction frames with
  | nil => trivial
  | cons frame rest ih =>
    have hrest : Older (rest.filter p) := ih h.2 fun f hf hkept parent hparent other hother =>
      hp f (List.mem_cons_of_mem _ hf) hkept parent hparent other (List.mem_cons_of_mem _ hother)
    rw [List.filter_cons]
    split
    · rename_i hkept
      refine ⟨fun parent hparent => ?_, hrest⟩
      obtain ⟨other, hother, rfl⟩ := List.mem_map.mp (h.1 parent hparent)
      exact List.mem_map_of_mem (List.mem_filter.mpr ⟨hother, hp frame List.mem_cons_self hkept _
        hparent other (List.mem_cons_of_mem _ hother) rfl⟩)
    · exact hrest

/-! ## What a binding changes -/

theorem scopes_put : (frames.put scope binding).scopes = frames.scopes := List.map_map

theorem Older.put (h : frames.Older) : (frames.put scope binding).Older := by
  induction frames with
  | nil => trivial
  | cons frame rest ih =>
    refine ⟨fun parent hparent => ?_, ih h.2⟩
    have hscopes : (Frames.put rest scope binding).scopes = _ := scopes_put
    exact hscopes ▸ h.1 parent hparent

/-- A binding leaves the tree of scopes as it is. -/
theorem chain_put : (frames.put scope binding).chain = frames.chain := by
  induction frames with
  | nil => rfl
  | cons frame rest ih =>
    funext other
    show (if frame.scope = other then
      other :: frame.parent.elim [] fun parent => (put rest scope binding).chain parent
      else (put rest scope binding).chain other) = _
    rw [ih]
    rfl

/-- A binding is put into one frame. -/
theorem own_put (h : scope ∈ frames.scopes) : (frames.put scope binding).own other =
    if other = scope then binding :: frames.own other else frames.own other := by
  have hfind : (frames.put scope binding).find? (fun frame => frame.scope = other) =
      (frames.find? fun frame => frame.scope = other).map (ScopeFrame.put scope binding) :=
    List.find?_map ..
  rw [own, own, hfind, Option.map_map]
  cases hframe : frames.find? fun frame => frame.scope = other with
  | none =>
    rw [if_neg]
    · rfl
    · rintro rfl
      obtain ⟨frame, hmem, hscope⟩ := List.mem_map.mp h
      exact List.find?_eq_none.mp hframe frame hmem (decide_eq_true hscope)
  | some frame =>
    have hscope : frame.scope = other := by simpa using List.find?_some hframe
    rw [← hscope]
    rfl

theorem local?_put (h : scope ∈ frames.scopes) (name : Text) :
    (frames.put scope binding).local? name other =
      if other = scope ∧ name = binding.name then some binding.value
      else frames.local? name other := by
  rw [local?, own_put h]
  by_cases hother : other = scope
  · rw [if_pos hother, List.find?_cons]
    by_cases hname : binding.name = name
    · rw [if_pos ⟨hother, hname.symm⟩, decide_eq_true hname]
      rfl
    · rw [if_neg fun h => hname h.2.symm, decide_eq_false hname]
      rfl
  · rw [if_neg hother, if_neg fun h => hother h.1]
    rfl

/-- The first answer of a list when that of one member is replaced. -/
theorem findSome?_replace {α β : Type} [DecidableEq α] {f g : α → Option β} {a : α} {b : β}
    (hg : ∀ x, g x = if x = a then some b else f x) (l : List α) :
    l.findSome? g =
      if a ∈ l ∧ ∀ x ∈ l.takeWhile (· ≠ a), f x = none then some b else l.findSome? f := by
  induction l with
  | nil => simp
  | cons x rest ih =>
    rw [List.findSome?_cons, List.findSome?_cons, hg x]
    by_cases hx : x = a
    · simp [hx]
    · have hwhile : (x :: rest).takeWhile (· ≠ a) = x :: rest.takeWhile (· ≠ a) :=
        List.takeWhile_cons_of_pos (decide_eq_true hx)
      rw [if_neg hx, hwhile]
      cases hf : f x with
      | none => simp [ih, hf, Ne.symm hx]
      | some c => simp [hf]

/-- **A binding is seen through the scopes whose chain contains its own**, where no scope before
that shadows it; all else is looked up as before. -/
theorem lookup_put (h : scope ∈ frames.scopes) (name : Text) :
    (frames.put scope binding).lookup other name =
      if name = binding.name ∧ scope ∈ frames.chain other ∧
        ∀ inner ∈ (frames.chain other).takeWhile (· ≠ scope), frames.local? name inner = none
      then some binding.value else frames.lookup other name := by
  rw [lookup, chain_put]
  by_cases hname : name = binding.name
  · have hlocal : ∀ inner, (frames.put scope binding).local? name inner =
        if inner = scope then some binding.value else frames.local? name inner := by
      intro inner
      simp only [local?_put h, hname, and_true]
    rw [findSome?_replace hlocal]
    simp only [hname, true_and]
    rfl
  · have hlocal : (frames.put scope binding).local? name = frames.local? name := by
      funext inner
      rw [local?_put h, if_neg fun h => hname h.2]
    rw [hlocal, if_neg fun h => hname h.1]
    rfl

end Frames

end ConsoleLisp
