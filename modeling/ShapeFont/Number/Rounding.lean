/-!
# Rounding ratios

Numbers are read and printed through exact ratios of natural numbers. A ratio is rounded once, to
the nearest integer, with ties to the even neighbour.
-/

namespace ShapeFont

/-- `num / den` rounded to the nearest integer; a tie goes to the even neighbour. -/
def roundHalfEven (num den : Nat) : Nat :=
  let quotient := num / den
  let twice := 2 * (num % den)
  if twice < den then quotient
  else if den < twice then quotient + 1
  else quotient + quotient % 2

def scaleRatio (num den base : Nat) (power : Int) : Nat × Nat :=
  if 0 ≤ power then (num * Nat.pow base power.toNat, den)
  else (num, den * Nat.pow base (-power).toNat)

/-- The least `count` with `value < 10 ^ count`. -/
def digitCount (value : Nat) : Nat :=
  if value = 0 then 0 else digitCount (value / 10) + 1
termination_by value
decreasing_by omega

end ShapeFont
