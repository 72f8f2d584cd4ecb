import ConsoleLisp.Datum.Basic
import ConsoleLisp.Heap.Print

/-!
# Values as trees

A `Tree` is what is left of a value when one forgets where it is stored: no handles, no sharing.
Its natives carry actions of a type `β` of their own, which need not be that of a heap.

* `Tree.render` is the text of a tree with lists elided below a depth, `Tree.format` the same cut
  at the usual length. Both are written without a writer, a path or a heap.
* `Datum.toTree` is the tree that a written expression denotes.
-/

namespace ConsoleLisp

/-- A text within a length limit: the part that fits and a marker behind it, when not all fits. -/
def Text.cutAt (limit : Nat) (t : Text) : Text :=
  if t.length ≤ limit then t else t.take limit ++ truncationMarker

/-- A value without a place. -/
inductive Tree (β : Type)
  | nil
  | number (value : Number)
  | symbol (name : Text)
  | string (value : Text)
  | native (procedure : Native β)
  | pair (head tail : Tree β)
  deriving DecidableEq

namespace Tree

variable {β : Type}

/-! ## Lists -/

/-- The proper list of some trees. -/
def ofList (items : List (Tree β)) : Tree β := items.foldr pair nil

/-- The items of a proper list. -/
def items? : Tree β → Option (List (Tree β))
  | nil => some []
  | pair head tail => tail.items?.map (head :: ·)
  | _ => none

/-- The number of pairs along the tails. -/
def spine : Tree β → Nat
  | pair _ tail => tail.spine + 1
  | _ => 0

/-- The number of pairs. -/
def size : Tree β → Nat
  | pair head tail => head.size + tail.size + 1
  | _ => 0

/-- How deep lists with items are nested. -/
def nesting : Tree β → Nat
  | pair head tail => max (head.nesting + 1) tail.nesting
  | _ => 0

/-- The cell of a tree that is no pair, with its native's action embedded. -/
def atom? {κ : Type} (embed : β → κ) : Tree β → Option (Cell κ)
  | nil => some .nil
  | number value => some (.number value)
  | symbol name => some (.symbol name)
  | string value => some (.string value)
  | native procedure => some (.native ⟨procedure.name, embed procedure.action⟩)
  | pair .. => none

def number? : Tree β → Option Number
  | number value => some value
  | _ => none

def symbolName? : Tree β → Option Text
  | symbol name => some name
  | _ => none

def pair? : Tree β → Option (Tree β × Tree β)
  | pair head tail => some (head, tail)
  | _ => none

/-! ## Text -/

/-- The text of a tree that is no pair. -/
def atomText : Tree β → Text
  | nil => text "()"
  | number value => Number.toText value
  | symbol name => name
  | string value => quoteString value
  | native procedure => text "<native " ++ procedure.name ++ text ">"
  | pair .. => cycleMarker

mutual

/-- The text of a tree, with lists nested to the given depth at most. -/
def render : Tree β → Nat → Text
  | pair _ _, 0 => cycleMarker
  | pair head tail, depth + 1 =>
    unit '(' :: (head.render depth ++ (tail.renderTail depth ++ [unit ')']))
  | t, _ => t.atomText

/-- The text between the first item of a list and its end. -/
def renderTail : Tree β → Nat → Text
  | nil, _ => []
  | pair head tail, depth => unit ' ' :: (head.render depth ++ tail.renderTail depth)
  | t, _ => text " . " ++ t.atomText

end

/-- The text of a tree within the usual limit. -/
def format (t : Tree β) : Text := Text.cutAt maxPrintLength (t.render maxPrintDepth)

/-- Like `format`, but a string stands for itself. -/
def display : Tree β → Text
  | string value => value
  | t => t.format

end Tree

/-- The tree that a written expression denotes. -/
def Datum.toTree {β : Type} : Datum → Tree β
  | .nil => .nil
  | .number value => .number value
  | .symbol name => .symbol name
  | .string value => .string value
  | .quoted datum => .ofList [.symbol (text "quote"), datum.toTree]
  | .cons head tail => .pair head.toTree tail.toTree

end ConsoleLisp
