import ConsoleLisp.Text

/-!
# The order of keyed entries

* A mapping keeps its entries in the order of first insertion, except that keys written like array
  indices come first, in the order of the indices (`Keyed.inOrder`).
* A repeated key keeps its first place and takes the last value (`Keyed.put`).
-/

namespace ConsoleLisp

/-- Entries under keys. -/
abbrev Keyed (α : Type) := List (Text × α)

/-- The index that a key denotes when it is the decimal of a number below `2 ^ 32 - 1`. -/
def indexKey? (key : Text) : Option Nat :=
  let value := Text.digitsValue key
  if key = decimal value ∧ value < Nat.pow 2 32 - 1 then some value else none

namespace Keyed

variable {α β : Type}

/-- The value under a key. -/
def get? (key : Text) (entries : Keyed α) : Option α :=
  (entries.find? fun entry => entry.1 == key).map Prod.snd

/-- Set the value under a key: in its place when it has one, otherwise behind all others. -/
def put (key : Text) (value : α) : Keyed α → Keyed α
  | [] => [(key, value)]
  | (other, old) :: rest =>
    if other = key then (other, value) :: rest else (other, old) :: put key value rest

/-- Whether the index of one entry is not above that of another. -/
def indexLe (a b : Text × α) : Bool := (indexKey? a.1).getD 0 ≤ (indexKey? b.1).getD 0

/-- The entries with array indices first, in their order, then the others in theirs. -/
def inOrder (entries : Keyed α) : Keyed α :=
  (entries.filter fun entry => (indexKey? entry.1).isSome).mergeSort indexLe
    ++ entries.filter fun entry => (indexKey? entry.1).isNone

/-- The mapping that the assignments of a list make, one after another. -/
def ofList (assignments : Keyed α) : Keyed α :=
  inOrder (assignments.foldl (fun entries entry => entries.put entry.1 entry.2) [])

end Keyed

end ConsoleLisp
