import ConsoleLisp.Document.File
import ConsoleLisp.Level.Basic

/-!
# Level documents

* A level document is a mapping with a list of rectangles under `rects`; nothing at all is the
  empty level.
* `Rect.ofValue` reads one entry: an id and, each with a default, the numbers `x`, `y`, `w` and
  `h`. Its shape is judged first, then unknown keys, the id and the numbers in that order.
* The first entry that is malformed or repeats an id is the error of a level.
-/

namespace ConsoleLisp

namespace Rect

/-- The keys of an entry. -/
def keys : List Text := [text "id", text "x", text "y", text "w", text "h"]

/-- The number under a key of an entry. -/
def numberUnder (key : Text) (default : Number) (entries : Keyed Value) :
    Except RectProblem Number :=
  match entries.get? key with
  | none => .ok default
  | some (.number n) => if Number.isFinite n then .ok n else .error (.notNumber key)
  | some _ => .error (.notNumber key)

/-- The id of an entry. -/
def idOf (entries : Keyed Value) : Except RectProblem Text :=
  match entries.get? (text "id") with
  | some (.text id) => if id = [] then .error .noId else .ok id
  | _ => .error .noId

/-- The rectangle that an entry describes. -/
def ofValue : Value → Except RectProblem Rect
  | .mapping entries => do
    match entries.find? fun entry => !keys.contains entry.1 with
    | some (key, _) => throw (.unknownKey key)
    | none =>
      let id ← idOf entries
      let x ← numberUnder (text "x") 0 entries
      let y ← numberUnder (text "y") 0 entries
      let w ← numberUnder (text "w") 1 entries
      let h ← numberUnder (text "h") 1 entries
      return .atRest id (some ⟨x, y⟩) (some ⟨w, h⟩)
  | _ => .error .notMapping

end Rect

namespace Level

/-- Add the rectangles of some entries, the first of which has the given index in its list. -/
def addEntries (index : Nat) (level : Level) : List Value → Except LevelError Level
  | [] => .ok level
  | entry :: rest =>
    match Rect.ofValue entry with
    | .error problem => .error (.rect index problem)
    | .ok rect =>
      match level.add rect with
      | .error _ => .error (.duplicateId rect.id)
      | .ok level => addEntries (index + 1) level rest

/-- The level that a document describes. -/
def ofValue : Value → Except LevelError Level
  | .null => .ok empty
  | .mapping entries =>
    match Keyed.get? (text "rects") entries with
    | none | some .null => .ok empty
    | some (.list items) => addEntries 0 empty items
    | some _ => .error .rectsNotList
  | _ => .error .notMapping

/-- The level of a text. -/
def ofText (t : Text) : Except LevelError Level :=
  match Value.ofYaml t with
  | .error error => .error (.notYaml error)
  | .ok value => ofValue value

/-- The level of a file. -/
def load (content : FileContent) (path : Text) : Except LevelError Level :=
  match content.read path with
  | .error message => .error (.unreadable message)
  | .ok t => ofText t

end Level

end ConsoleLisp
