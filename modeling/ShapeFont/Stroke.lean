import ShapeFont.Geometry.Plane

/-!
# Strokes

What a glyph program draws: moves, lines, circular arcs, and breaks between parts of a glyph. The
control point of an arc lies on the arc.
-/

namespace ShapeFont

universe u

inductive Stroke (α : Type u) where
  /-- The pen lifts between two parts of a glyph. -/
  | newPath
  | move (target : Point α)
  | line (start target : Point α)
  | arc (start control target : Point α)
  deriving Repr, DecidableEq

inductive StrokeKind where
  | newPath
  | move
  | line
  | arc
  deriving Repr, DecidableEq

namespace Stroke

variable {α : Type u}

def kind : Stroke α → StrokeKind
  | newPath => .newPath
  | move _ => .move
  | line .. => .line
  | arc .. => .arc

/-- Applies `change` to every point of a stroke. -/
def mapPoints (change : Point α → Point α) : Stroke α → Stroke α
  | newPath => newPath
  | move target => move (change target)
  | line start target => line (change start) (change target)
  | arc start control target => arc (change start) (change control) (change target)

/-- Where the stroke starts and ends. The control point of an arc is left out. -/
def endPoints : Stroke α → List (Point α)
  | newPath => []
  | move target => [target]
  | line start target => [start, target]
  | arc start _ target => [start, target]

/-- Where the pen is after the stroke. -/
def target? : Stroke α → Option (Point α)
  | newPath => none
  | move target => some target
  | line _ target => some target
  | arc _ _ target => some target

end Stroke

end ShapeFont
