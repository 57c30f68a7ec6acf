import ShapeFont.Number.Hypot

/-!
# The numbers that drawing computes with

Pen movements, layout and path data are written once for any type of numbers that has these
operations. Programs run them on floats; over an exact field the same definitions can be reasoned
about with the laws of arithmetic. The order of operations is part of every definition, because
float results depend on it.
-/

namespace ShapeFont

universe u

/-- The functions and constants that a number type must bring beside its arithmetic. -/
class Elementary (α : Type u) where
  ofInt : Int → α
  hypot : α → α → α
  /-- The angle of the vector with the given ordinate and abscissa, in this order. -/
  atan2 : α → α → α
  sin : α → α
  cos : α → α
  /-- A full turn. -/
  tau : α

export Elementary (ofInt hypot atan2 tau)

class Scalar (α : Type u) extends
    Add α, Sub α, Mul α, Div α, Neg α, LT α, LE α, BEq α, Elementary α where
  decidableLT : DecidableLT α
  decidableLE : DecidableLE α

attribute [reducible, instance] Scalar.decidableLT Scalar.decidableLE

/-- Sine and cosine are the platform's; the constant is the float nearest to a full turn. -/
instance : Elementary Float where
  ofInt := Float.ofInt
  hypot := Hypot.hypot
  atan2 := Float.atan2
  sin := Float.sin
  cos := Float.cos
  tau := 6.283185307179586

instance : Scalar Float where
  decidableLT := inferInstance
  decidableLE := inferInstance

section

variable {α : Type u} [Scalar α]

def zero : α := ofInt 0

def half (value : α) : α := value / ofInt 2

/-- One eighth of a full turn, the unit of arc angles in glyph programs. -/
def octant : α := tau / ofInt 8

def magnitude (value : α) : α := if value < zero then -value else value

/-- The bound under which a sine or a ratio of lengths counts as zero. -/
def tolerance : α := ofInt 1 / ofInt 1000000000

end

end ShapeFont
