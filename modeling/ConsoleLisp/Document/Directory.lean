import ConsoleLisp.Document.File

/-!
# Directories

* A `Directory` holds what lies below the working directory of a command, each entry under the
  names that lead to it. A place above an entry is a directory too.
* `Directory.content` follows a path name by name: `.` and an empty name stay, `..` goes up, and no
  name leads on from a file. What lies outside is not known, so only the directories above are
  found there.
-/

namespace ConsoleLisp

/-- The entries below a directory, under the names that lead to them. -/
abbrev Directory := List (List Text × FileContent)

namespace Directory

/-- The names of a path, empty ones included. -/
def names (path : Text) : List Text := path.splitOn (unit '/')

/-- The name stays where it is. -/
def stays (name : Text) : Bool := name == [] || name == text "."

/-- The name goes up. -/
def goesUp (name : Text) : Bool := name == text ".."

/-- The directory with some files, each under its path. -/
def ofFiles (files : List (Text × FileContent)) : Directory :=
  files.map fun (path, content) => ((names path).filter fun name => !stays name, content)

/-- What lies at a place below the directory. -/
def get (d : Directory) (place : List Text) : FileContent :=
  match d.lookup place with
  | some content => content
  | none =>
    if place = [] ∨ d.any fun entry => place.isPrefixOf entry.1 then .directory else .missing

/-- What is found by following names from above the directory. -/
def outside (names : List Text) : FileContent :=
  if names.all fun name => stays name || goesUp name then .directory else .missing

/-- What is found by following names from a place below the directory. -/
def follow (d : Directory) (place : List Text) : List Text → FileContent
  | [] => d.get place
  | name :: rest =>
    match d.get place with
    | .directory =>
      if stays name then d.follow place rest
      else if goesUp name then
        if place = [] then outside rest else d.follow place.dropLast rest
      else d.follow (place ++ [name]) rest
    | .file _ => .belowFile
    | other => other

/-- What is found under a path. A path that starts with a slash leads outside; the empty path leads
nowhere. -/
def content (d : Directory) (path : Text) : FileContent :=
  match path with
  | [] => .missing
  | u :: _ => if u = unit '/' then outside (names path) else d.follow [] (names path)

end Directory

end ConsoleLisp
