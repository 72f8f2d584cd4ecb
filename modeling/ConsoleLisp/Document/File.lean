import ConsoleLisp.Diagnostic
import ConsoleLisp.Document.Yaml

/-!
# Configuration files

What is found under a path, and the errors of configuration documents: a `ConfigurationError` is a
reason and the path of the document that it applies to.
-/

namespace ConsoleLisp

/-- What is found under a path. -/
inductive FileContent
  | missing
  | directory
  /-- The path goes on below a file. -/
  | belowFile
  | file (content : Text)
  deriving DecidableEq, Repr

/-- The text of a file, or the operating system's message. -/
def FileContent.read (path : Text) : FileContent → Except Text Text
  | missing => .error (text "ENOENT: no such file or directory, open '" ++ path ++ text "'")
  | directory => .error (text "EISDIR: illegal operation on a directory, read")
  | belowFile => .error (text "ENOTDIR: not a directory, open '" ++ path ++ text "'")
  | file content => .ok content

/-- Why settings are refused. -/
inductive SettingsError
  | unreadable (message : Text)
  | notYaml (error : YamlError)
  | notMapping
  | unknownKey (key : Text)
  | notPositiveInteger (key : Text)
  | notBoolean (key : Text)
  deriving DecidableEq, Repr

/-- What is wrong with an entry for a rectangle. -/
inductive RectProblem
  | notMapping
  | unknownKey (key : Text)
  | noId
  | notNumber (key : Text)
  deriving DecidableEq, Repr

/-- Why a level is refused. -/
inductive LevelError
  | unreadable (message : Text)
  | notYaml (error : YamlError)
  | notMapping
  | rectsNotList
  | rect (index : Nat) (problem : RectProblem)
  | duplicateId (id : Text)
  deriving DecidableEq, Repr

/-- Why a document is refused, and its path. -/
inductive ConfigurationError
  | settings (reason : SettingsError) (path : Text)
  | level (reason : LevelError) (path : Text)
  deriving DecidableEq, Repr

namespace SettingsError

def code : SettingsError → ErrorCode
  | unreadable _ => .configurationUnreadable
  | _ => .configurationInvalid

def message (e : SettingsError) : Text :=
  text "Invalid configuration: " ++ match e with
    | unreadable message => text "failed to read file (" ++ message ++ text ")"
    | notYaml error => text "invalid YAML (" ++ error.message ++ text ")"
    | notMapping => text "must be a mapping"
    | unknownKey key => text "unknown key " ++ key
    | notPositiveInteger key => key ++ text " must be a positive integer"
    | notBoolean key => key ++ text " must be true or false"

end SettingsError

/-- The problem with the entry at a place of the document. -/
def RectProblem.message (entry : Text) : RectProblem → Text
  | notMapping => entry ++ text " must be a mapping"
  | unknownKey key => entry ++ text " has unknown key " ++ key.inDoubleQuotes
  | noId => entry ++ text ".id must be a non-empty string"
  | notNumber key => entry ++ unit '.' :: key ++ text " must be a number"

namespace LevelError

def code : LevelError → ErrorCode
  | unreadable _ => .configurationUnreadable
  | _ => .configurationInvalid

def message : LevelError → Text
  | unreadable message => text "Cannot read level: " ++ message
  | notYaml error => text "Invalid level: " ++ error.message
  | notMapping => text "Invalid level: document must be a mapping"
  | rectsNotList => text "Invalid level: rects must be a list"
  | rect index problem =>
    text "Invalid level: " ++ problem.message (text "rects[" ++ decimal index ++ text "]")
  | duplicateId id => text "Invalid level: duplicate rect id " ++ id.inDoubleQuotes

end LevelError

namespace ConfigurationError

def code : ConfigurationError → ErrorCode
  | settings reason _ => reason.code
  | level reason _ => reason.code

def message : ConfigurationError → Text
  | settings reason _ => reason.message
  | level reason _ => reason.message

def path : ConfigurationError → Text
  | settings _ path => path
  | level _ path => path

/-- The document is no YAML at all. -/
def isSyntax : ConfigurationError → Bool
  | settings (.notYaml _) _ => true
  | level (.notYaml _) _ => true
  | _ => false

/-- The error as a command line tells of it. -/
def report {γ : Type} (e : ConfigurationError) : Report γ :=
  .diagnostic (.configuration e.code e.message e.path)

end ConfigurationError

end ConsoleLisp
