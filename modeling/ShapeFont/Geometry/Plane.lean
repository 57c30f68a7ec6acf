import ShapeFont.Geometry.Scalar

/-!
# Points, and the circle through three of them

Coordinates are in the caller's units with y upwards.
-/

namespace ShapeFont

universe u

structure Point (α : Type u) where
  x : α
  y : α
  deriving Repr, DecidableEq

structure Circle (α : Type u) where
  center : Point α
  radius : α
  deriving Repr, DecidableEq

variable {α : Type u} [Scalar α]

namespace Point

def origin : Point α := ⟨zero, zero⟩

def translate (point : Point α) (dx dy : α) : Point α := ⟨point.x + dx, point.y + dy⟩

def scale (point : Point α) (sx sy : α) : Point α := ⟨point.x * sx, point.y * sy⟩

/-- The same point with y downwards. -/
def flip (point : Point α) : Point α := ⟨point.x, -point.y⟩

def distance (first second : Point α) : α := hypot (second.x - first.x) (second.y - first.y)

def agrees (first second : Point α) : Bool := first.x == second.x && first.y == second.y

/-- Twice the area of the triangle `base`, `left`, `right`; positive when it turns to the left. -/
def turn (base left right : Point α) : α :=
  (left.x - base.x) * (right.y - base.y) - (left.y - base.y) * (right.x - base.x)

end Point

namespace Circle

/-- Points count as collinear when the sine of the angle at the first one is under the tolerance,
or when the angle has no sides. -/
def collinear (a b c : Point α) : Bool :=
  let sides := a.distance b * a.distance c
  sides == zero || magnitude (Point.turn a b c) / sides < tolerance

def through? (a b c : Point α) : Option (Circle α) :=
  if collinear a b c then none
  else
    let divisor := ofInt 2 * (a.x * (b.y - c.y) + b.x * (c.y - a.y) + c.x * (a.y - b.y))
    let squareA := a.x * a.x + a.y * a.y
    let squareB := b.x * b.x + b.y * b.y
    let squareC := c.x * c.x + c.y * c.y
    let center : Point α :=
      ⟨(squareA * (b.y - c.y) + squareB * (c.y - a.y) + squareC * (a.y - b.y)) / divisor,
        (squareA * (c.x - b.x) + squareB * (a.x - c.x) + squareC * (b.x - a.x)) / divisor⟩
    some ⟨center, hypot (a.x - center.x) (a.y - center.y)⟩

end Circle

end ShapeFont
