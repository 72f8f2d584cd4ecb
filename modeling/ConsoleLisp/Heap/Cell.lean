import ConsoleLisp.Number.Binary

/-!
# Cells and handles

* A `Cell` is the content of one heap slot. The parts of a pair are handles, so structure may be
  shared and, once pairs are changed, cyclic.
* A `Handle` names one allocation: its heap, its slot and the slot's generation at the time. A host
  may make up others, with numbers that no slot has, so slot and generation are integers.
* A native procedure is data: a name and an action of type `κ`. What the action does is said where
  procedures are called, so cells can be compared and copied like any other value.
-/

namespace ConsoleLisp

/-- The name of one allocation of one heap. -/
structure Handle where
  heap : Nat
  slot : Int
  generation : Int
  deriving DecidableEq, Repr

/-- The slot as a position in the arena; only a made-up handle has none of its own. -/
def Handle.index (e : Handle) : Nat := e.slot.toNat

/-- A host procedure that scripts can call. -/
structure Native (κ : Type) where
  name : Text
  action : κ
  deriving DecidableEq

/-- The content of a slot. -/
inductive Cell (κ : Type)
  | nil
  | number (value : Number)
  | symbol (name : Text)
  | string (value : Text)
  | pair (head tail : Handle)
  | native (procedure : Native κ)
  deriving DecidableEq

/-- The kind of a cell. -/
inductive Kind
  | nil
  | number
  | symbol
  | string
  | pair
  | native
  deriving DecidableEq, Repr

/-- The public name of the kind. -/
def Kind.name : Kind → Text
  | nil => text "nil"
  | number => text "number"
  | symbol => text "symbol"
  | string => text "string"
  | pair => text "pair"
  | native => text "native"

namespace Cell

variable {κ : Type}

def kind : Cell κ → Kind
  | nil => .nil
  | number _ => .number
  | symbol _ => .symbol
  | string _ => .string
  | pair .. => .pair
  | native _ => .native

def number? : Cell κ → Option Number
  | number value => some value
  | _ => none

def symbolName? : Cell κ → Option Text
  | symbol name => some name
  | _ => none

def pair? : Cell κ → Option (Handle × Handle)
  | pair head tail => some (head, tail)
  | _ => none

/-- The text of a symbol or a string. -/
def atomText? : Cell κ → Option Text
  | symbol name => some name
  | string value => some value
  | _ => none

/-- The slots that a cell points to. -/
def links : Cell κ → List Nat
  | pair head tail => [head.index, tail.index]
  | _ => []

end Cell

end ConsoleLisp
