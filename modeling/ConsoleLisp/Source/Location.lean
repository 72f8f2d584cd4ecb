import ConsoleLisp.Text

/-!
# Places in a source text

* A `Location` counts lines and columns from 1 and offsets from 0, all in code units.
* `Location.advance` passes one unit: a line feed starts a new line, any other unit a new column.
* A `Cursor` is the rest of a text together with the place where it starts.
-/

namespace ConsoleLisp

/-- A place in a source text. -/
structure Location where
  line : Nat
  column : Nat
  offset : Nat
  deriving DecidableEq, Repr

namespace Location

/-- The start of every text. -/
def start : Location := ⟨1, 1, 0⟩

/-- The place after one unit. -/
def advance (place : Location) (u : CodeUnit) : Location :=
  if u = unit '\n' then ⟨place.line + 1, 1, place.offset + 1⟩
  else ⟨place.line, place.column + 1, place.offset + 1⟩

/-- The place after a text. -/
def after (place : Location) (t : Text) : Location := t.foldl advance place

/-- The line and the column, as they end a message. -/
def suffix (place : Location) : Text :=
  text " at " ++ decimal place.line ++ unit ':' :: decimal place.column

end Location

/-- The rest of a text and the place where it starts. -/
structure Cursor where
  rest : Text
  place : Location
  deriving DecidableEq, Repr

namespace Cursor

/-- A text from its start. -/
def ofText (t : Text) : Cursor := ⟨t, .start⟩

/-- Past the longest leading run of units that satisfy `p`. -/
def skipWhile (p : CodeUnit → Bool) (c : Cursor) : Cursor :=
  ⟨c.rest.dropWhile p, c.place.after (c.rest.takeWhile p)⟩

end Cursor

end ConsoleLisp
