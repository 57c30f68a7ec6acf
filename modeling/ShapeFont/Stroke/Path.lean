import ShapeFont.Stroke

/-!
# Recorded paths

A path keeps the strokes it was given, in order, and counts the characters they belong to.
-/

namespace ShapeFont

universe u

/-- What drawing a text tells, in order: its strokes, and the end of every glyph. -/
inductive Event (α : Type u) where
  | stroke (stroke : Stroke α)
  | characterEnd
  deriving Repr, DecidableEq

namespace Event

variable {α : Type u}

def stroke? : Event α → Option (Stroke α)
  | stroke drawn => some drawn
  | characterEnd => none

def strokes (events : List (Event α)) : List (Stroke α) := events.filterMap stroke?

/-- For every end of a character, how many strokes came before it. -/
def characterEnds (events : List (Event α)) : List Nat :=
  let step := fun (seen : Nat × Array Nat) (event : Event α) =>
    match event with
    | stroke _ => (seen.1 + 1, seen.2)
    | characterEnd => (seen.1, seen.2.push seen.1)
  (events.foldl step (0, #[])).2.toList

end Event

structure Bounds (α : Type u) where
  lower : Point α
  upper : Point α
  deriving Repr, DecidableEq

namespace Bounds

variable {α : Type u} [Scalar α]

def single (point : Point α) : Bounds α := ⟨point, point⟩

/-- A coordinate only moves a side that it lies beyond; one that is not a number moves none. -/
def extend (bounds : Bounds α) (point : Point α) : Bounds α :=
  { lower :=
      ⟨if point.x < bounds.lower.x then point.x else bounds.lower.x,
        if point.y < bounds.lower.y then point.y else bounds.lower.y⟩
    upper :=
      ⟨if bounds.upper.x < point.x then point.x else bounds.upper.x,
        if bounds.upper.y < point.y then point.y else bounds.upper.y⟩ }

def ofPoints? : List (Point α) → Option (Bounds α)
  | [] => none
  | point :: points => some (points.foldl extend (single point))

end Bounds

structure Path (α : Type u) where
  strokes : List (Stroke α) := []
  characters : Nat := 0
  deriving Repr, DecidableEq

namespace Path

variable {α : Type u}

def empty : Path α := {}

def record (path : Path α) (events : List (Event α)) : Path α :=
  { strokes := path.strokes ++ Event.strokes events
    characters := path.characters + (Event.characterEnds events).length }

variable [Scalar α]

/-- The extent of the start and end points; none when the path holds breaks only. -/
def bounds? (path : Path α) : Option (Bounds α) :=
  Bounds.ofPoints? (path.strokes.flatMap Stroke.endPoints)

def scale (path : Path α) (sx sy : α) : Path α :=
  { path with strokes := path.strokes.map (Stroke.mapPoints fun point => point.scale sx sy) }

def translate (path : Path α) (tx ty : α) : Path α :=
  { path with strokes := path.strokes.map (Stroke.mapPoints fun point => point.translate tx ty) }

end Path

end ShapeFont
