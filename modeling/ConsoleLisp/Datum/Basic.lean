import ConsoleLisp.Number.Literal

/-!
# Data as written

A `Datum` is what one written expression denotes before it is given a place in a heap: atoms, lists
and quotations. `Datum.ofAtom` decides between numbers and symbols.
-/

namespace ConsoleLisp

/-- A written expression. A list is a chain of `cons` that ends in `nil`. -/
inductive Datum
  | nil
  | number (value : Number)
  | symbol (name : Text)
  | string (value : Text)
  | quoted (datum : Datum)
  | cons (head tail : Datum)
  deriving DecidableEq

namespace Datum

/-- The list of some data. -/
def ofList (items : List Datum) : Datum := items.foldr cons nil

/-- A bare atom is a number when it is a number literal, otherwise a symbol. -/
def ofAtom (t : Text) : Datum :=
  match Literal.parse? t with
  | some literal => .number literal.value
  | none => .symbol t

end Datum

end ConsoleLisp
