import ConsoleLisp.Console.Basic
import ConsoleLisp.Document.File

/-!
# Settings

* `Settings` are what a configuration file can say about a console. `Settings.ofValue` overlays the
  defaults with the entries of a mapping; the first entry that is unknown or invalid is the error.
* Limits are positive whole numbers, or null for no limit.
-/

namespace ConsoleLisp

/-- The settings of a console. -/
structure Settings where
  stepLimit : Option Number
  maxHeapSlots : Option Number
  builtins : Bool
  logCapacity : Number
  echoResults : Bool
  deriving DecidableEq

/-- The keys of a settings file. -/
inductive SettingsKey
  | stepLimit
  | maxHeapSlots
  | builtins
  | logCapacity
  | echoResults
  deriving DecidableEq, Repr

namespace SettingsKey

def name : SettingsKey → Text
  | stepLimit => text "stepLimit"
  | maxHeapSlots => text "maxHeapSlots"
  | builtins => text "builtins"
  | logCapacity => text "logCapacity"
  | echoResults => text "echoResults"

def all : List SettingsKey := [stepLimit, maxHeapSlots, builtins, logCapacity, echoResults]

def ofName? (t : Text) : Option SettingsKey := all.find? fun key => key.name == t

end SettingsKey

namespace Settings

/-- The settings when no file says otherwise. -/
def default : Settings := ⟨none, none, true, Number.ofNat defaultLogCapacity, true⟩

/-- A positive whole number under a key. -/
def positiveInteger (key : Text) : Value → Except SettingsError Number
  | .number n => if Number.isPositiveInteger n then .ok n else .error (.notPositiveInteger key)
  | _ => .error (.notPositiveInteger key)

/-- A positive whole number, or null for no limit. -/
def limit (key : Text) : Value → Except SettingsError (Option Number)
  | .null => .ok none
  | value => (positiveInteger key value).map some

/-- A truth value under a key. -/
def boolean (key : Text) : Value → Except SettingsError Bool
  | .boolean b => .ok b
  | _ => .error (.notBoolean key)

/-- The settings with one entry overlaid. -/
def overlay (s : Settings) (entry : Text × Value) : Except SettingsError Settings :=
  let (key, value) := entry
  match SettingsKey.ofName? key with
  | none => .error (.unknownKey key)
  | some .stepLimit => (limit key value).map fun n => { s with stepLimit := n }
  | some .maxHeapSlots => (limit key value).map fun n => { s with maxHeapSlots := n }
  | some .logCapacity => (positiveInteger key value).map fun n => { s with logCapacity := n }
  | some .builtins => (boolean key value).map fun b => { s with builtins := b }
  | some .echoResults => (boolean key value).map fun b => { s with echoResults := b }

/-- The settings that a document gives. -/
def ofValue : Value → Except SettingsError Settings
  | .null => .ok default
  | .mapping entries => entries.foldlM overlay default
  | _ => .error .notMapping

/-- The name of the settings file of a directory. -/
def fileName : Text := text ".cinder.yaml"

/-- The settings of a file; a missing file changes nothing. -/
def load (content : FileContent) (path : Text) : Except SettingsError Settings :=
  match content with
  | .missing | .belowFile => .ok default
  | content =>
    match content.read path with
    | .error message => .error (.unreadable message)
    | .ok t =>
      match Value.ofYaml t with
      | .error error => .error (.notYaml error)
      | .ok value => ofValue value

/-- The options of a console with these settings. -/
def consoleOptions (s : Settings) : ConsoleOptions where
  stepLimit := s.stepLimit
  depthLimit := none
  maxHeapSlots := s.maxHeapSlots
  builtins := s.builtins
  logCapacity := some s.logCapacity
  echoResults := s.echoResults

end Settings

end ConsoleLisp
