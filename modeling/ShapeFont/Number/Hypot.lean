/-!
# The length of a vector in floats

The square root of the sum of squares loses up to a unit in the last place, and its squares
overflow or vanish long before the length does. `hypot` scales extreme arguments by a power of two
and takes one correction step with the residual of the square root.
-/

namespace ShapeFont.Hypot

/-- The scaled square root with its correction, for `0 ≤ short ≤ long` whose squares neither
overflow nor vanish. The residual of the squares is worked out from differences, which are exact or
nearly so. -/
def corrected (long short : Float) : Float :=
  let root := (long * long + short * short).sqrt
  if root ≤ 2 * short then
    let delta := root - short
    let first := long * (2 * delta - long)
    let second := (delta - 2 * (long - short)) * delta
    root - (first + second) / (2 * root)
  else
    let delta := root - long
    let first := 2 * delta * (long - 2 * short)
    let second := (4 * delta - short) * short + delta * delta
    root - (first + second) / (2 * root)

/-- Below this share of the longer side the shorter one only shows in the rounding of the sum. -/
def negligible : Float := Float.scaleB 1 (-54)

def scaleDown : Float := Float.scaleB 1 (-600)

def scaleUp : Float := Float.scaleB 1 600

def huge : Float := Float.scaleB 1 511

def tiny : Float := Float.scaleB 1 (-459)

def ordered (long short : Float) : Float :=
  if long > huge then
    if short ≤ long * negligible then long + short
    else corrected (long * scaleDown) (short * scaleDown) * scaleUp
  else if short < tiny then
    if long ≥ short / negligible then long + short
    else corrected (long * scaleUp) (short * scaleUp) * scaleDown
  else if short ≤ long * negligible then long + short
  else corrected long short

/-- An infinite side makes the length infinite, even beside one that is not a number. -/
def hypot (x y : Float) : Float :=
  if x.isInf || y.isInf then 1 / 0
  else if x.isNaN || y.isNaN then x + y
  else if x.abs < y.abs then ordered y.abs x.abs
  else ordered x.abs y.abs

end ShapeFont.Hypot
