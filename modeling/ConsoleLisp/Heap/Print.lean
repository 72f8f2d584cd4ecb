import ConsoleLisp.Heap.Basic

/-!
# Printing

* `Heap.format` renders a value as source text of bounded length. Shared structure is printed once
  for each occurrence; a pair that is already being printed, and any list below `maxPrintDepth`
  others, appears as `cycleMarker`.
* A `Writer` takes pieces of text while they fit. The first that does not is cut, ends the output
  and has `truncationMarker` put behind it.
-/

namespace ConsoleLisp

/-- Printed in place of a list that is not printed again or not as deep. -/
def cycleMarker : Text := text "..."

/-- Put behind a text that was cut. -/
def truncationMarker : Text := text " ..."

/-- Deepest nesting of lists that is printed. -/
def maxPrintDepth : Nat := 256

/-- The length limit when none is asked for. -/
def maxPrintLength : Nat := 10000

/-- A string as its literal. -/
def quoteString (value : Text) : Text :=
  let body : Text := value.flatMap fun u =>
    if u = unit '\\' then text "\\\\"
    else if u = unit '"' then text "\\\""
    else if u = unit '\n' then text "\\n"
    else if u = unit '\r' then text "\\r"
    else if u = unit '\t' then text "\\t"
    else [u]
  body.inDoubleQuotes

/-! ## Length limits -/

/-- How much text may be written. -/
inductive PrintLimit
  | unlimited
  | atMost (units : Nat)
  /-- A limit below zero: the first piece is cut by that many units at its end, or altogether. -/
  | belowZero (units : Option Nat)
  deriving DecidableEq, Repr

/-- The limit that a number sets. A fraction counts as the whole number towards zero, and between
-1 and 0 nothing is left of the first piece. -/
def PrintLimit.ofNumber (n : Number) : PrintLimit :=
  if Number.isNaN n then .unlimited
  else if Number.isNegative n && Number.scaled n != 0 then
    if Number.isFinite n && Number.wholePart n != 0 then .belowZero (some (Number.wholePart n))
    else .belowZero none
  else match Number.floor? n with
    | some units => .atMost units
    | none => .unlimited

/-! ## Writers -/

/-- Text being written. -/
structure Writer where
  /-- What is written, the newest unit first. -/
  written : Text
  room : PrintLimit
  isCut : Bool
  deriving DecidableEq, Repr

namespace Writer

/-- A writer with nothing written. -/
def empty (limit : PrintLimit) : Writer := ⟨[], limit, false⟩

/-- Write a piece, or as much of it as there is room for. -/
def emit (w : Writer) (piece : Text) : Writer :=
  if w.isCut then w
  else match w.room with
    | .unlimited => { w with written := piece.reverseAux w.written }
    | .atMost units =>
      if piece.length ≤ units then
        { w with written := piece.reverseAux w.written, room := .atMost (units - piece.length) }
      else ⟨(piece.take units).reverseAux w.written, .atMost 0, true⟩
    | .belowZero (some units) =>
      ⟨(piece.take (piece.length - units)).reverseAux w.written, w.room, true⟩
    | .belowZero none => { w with isCut := true }

/-- What was written, and the marker behind it when it was cut. -/
def toText (w : Writer) : Text := w.written.reverse ++ if w.isCut then truncationMarker else []

end Writer

/-! ## Values -/

/-- The text of a cell that is no pair. -/
def Cell.atomPiece {κ : Type} : Cell κ → Text
  | .nil => text "()"
  | .number value => Number.toText value
  | .symbol name => name
  | .string value => quoteString value
  | .native procedure => text "<native " ++ procedure.name ++ text ">"
  | .pair .. => cycleMarker

namespace Heap

variable {κ : Type}

/-- Write the items of a list from `cursor` on. `path` holds the slots of the pairs being printed,
and `fuel` bounds the items, which are pairs off the path. -/
def writeItems (heap : Heap κ) (writeItem : List Nat → Handle → Writer → Except Fault Writer) :
    Nat → List Nat → Bool → Handle → Writer → Except Fault Writer
  | 0, _, _, _, w => .ok w
  | fuel + 1, path, isFirst, cursor, w =>
    if w.isCut then .ok w
    else match heap.inspect cursor with
      | .error fault => .error fault
      | .ok .nil => .ok w
      | .ok (.pair head tail) =>
        if path.contains cursor.index then .ok (w.emit (text " . " ++ cycleMarker))
        else
          let path := cursor.index :: path
          match writeItem path head (if isFirst then w else w.emit [unit ' ']) with
          | .error fault => .error fault
          | .ok w => heap.writeItems writeItem fuel path false tail w
      | .ok _ => writeItem path cursor (w.emit (text " . "))

/-- Write a value, with lists nested to the given depth at most. -/
def write (heap : Heap κ) : Nat → List Nat → Handle → Writer → Except Fault Writer
  | depth, path, e, w =>
    if w.isCut then .ok w
    else match heap.inspect e with
      | .error fault => .error fault
      | .ok (.pair _ _) =>
        if path.contains e.index then .ok (w.emit cycleMarker)
        else match depth with
          | 0 => .ok (w.emit cycleMarker)
          | depth + 1 =>
            match heap.writeItems (heap.write depth) (heap.slots.size + 1) path true e
                (w.emit [unit '(']) with
            | .error fault => .error fault
            | .ok w => .ok (w.emit [unit ')'])
      | .ok cell => .ok (w.emit cell.atomPiece)

/-- The text of a value within a length limit. -/
def formatWithin (limit : PrintLimit) (heap : Heap κ) (e : Handle) : Except Fault Text :=
  (heap.write maxPrintDepth [] e (.empty limit)).map Writer.toText

/-- The text of a value within the usual limit. -/
def format (heap : Heap κ) (e : Handle) : Except Fault Text :=
  heap.formatWithin (.atMost maxPrintLength) e

/-- Like `format`, but a string stands for itself. -/
def display (heap : Heap κ) (e : Handle) : Except Fault Text := do
  match ← heap.inspect e with
  | .string value => return value
  | _ => heap.format e

end Heap

end ConsoleLisp
