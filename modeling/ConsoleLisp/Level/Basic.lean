import ConsoleLisp.Fault

/-!
# Levels

A `Level` holds rigid rectangles under distinct ids, in the order in which they were added. Forces
on a rectangle add up until they are taken.
-/

namespace ConsoleLisp

/-- A vector of the plane. -/
structure Vec where
  x : Number
  y : Number
  deriving DecidableEq

namespace Vec

def zero : Vec := ⟨0, 0⟩

def add (a b : Vec) : Vec := ⟨a.x + b.x, a.y + b.y⟩

end Vec

/-- A rigid rectangle and the force on it. -/
structure Rect where
  id : Text
  position : Vec
  size : Vec
  force : Vec
  deriving DecidableEq

/-- A rectangle at rest: at the origin and of unit size unless told otherwise. -/
def Rect.atRest (id : Text) (position size : Option Vec) : Rect :=
  ⟨id, position.getD .zero, size.getD ⟨1, 1⟩, .zero⟩

/-- The rectangles that scripts can reach. -/
structure Level where
  rects : List Rect
  deriving DecidableEq

namespace Level

def empty : Level := ⟨[]⟩

/-- The rectangle with an id. -/
def rect? (level : Level) (id : Text) : Option Rect := level.rects.find? (·.id == id)

/-- Add a rectangle under a new id. -/
def add (level : Level) (rect : Rect) : Except Fault Level :=
  if (level.rect? rect.id).isSome then .error (.duplicateRect rect.id)
  else .ok ⟨level.rects ++ [rect]⟩

/-- The level of some rectangles. -/
def ofRects (rects : List Rect) : Except Fault Level := rects.foldlM add empty

/-- Change the force on the rectangle with an id, if there is one. -/
def updateForce (level : Level) (id : Text) (f : Vec → Vec) : Level :=
  ⟨level.rects.map fun rect => if rect.id = id then { rect with force := f rect.force } else rect⟩

/-- Add to the force on a rectangle. -/
def applyForce (level : Level) (id : Text) (force : Vec) : Level :=
  level.updateForce id (·.add force)

/-- The force on a rectangle, which is then reset. -/
def takeForce (level : Level) (id : Text) : Option Vec × Level :=
  ((level.rect? id).map Rect.force, level.updateForce id fun _ => .zero)

end Level

end ConsoleLisp
