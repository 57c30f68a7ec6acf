import Mathlib.Tactic.FieldSimp
import Mathlib.Tactic.LinearCombination
import ShapeFont.Proofs.Geometry.Exact

/-!
# The circle through three points

With exact numbers and Euclidean lengths the circle that is found through three points has them all
on it. The test for points on one line keeps the divisor of its formulas from being zero, because that
divisor is twice the turn which the test measures.
-/

namespace ShapeFont

universe u

structure PlaneFunctions.EuclideanLength (α : Type u) [Field α] [LinearOrder α]
    [PlaneFunctions α] : Prop where
  nonneg (x y : α) : 0 ≤ PlaneFunctions.hypot x y
  square (x y : α) : PlaneFunctions.hypot x y ^ 2 = x ^ 2 + y ^ 2

theorem PlaneFunctions.euclidean_length : @EuclideanLength ℝ _ _ euclidean := by
  let functions := euclidean
  constructor
  · intro x y
    exact Real.sqrt_nonneg _
  · intro x y
    exact Real.sq_sqrt (add_nonneg (sq_nonneg x) (sq_nonneg y))

variable {α : Type u} [Field α]

def Point.quadrance (first second : Point α) : α :=
  (second.x - first.x) ^ 2 + (second.y - first.y) ^ 2

theorem Point.quadrance_comm (first second : Point α) :
    first.quadrance second = second.quadrance first := by
  simp only [quadrance]
  ring

def Circle.Holds (circle : Circle α) (point : Point α) : Prop :=
  circle.center.quadrance point = circle.radius ^ 2

variable [LinearOrder α]

section

variable [PlaneFunctions α]

theorem tolerance_exact : (tolerance : α) = 1 / 1000000000 := by
  simp [tolerance]

theorem turn_exact (base left right : Point α) :
    Point.turn base left right =
      (left.x - base.x) * (right.y - base.y) - (left.y - base.y) * (right.x - base.x) := rfl

theorem Point.ne_of_turn_ne_zero {base left right : Point α} (bent : turn base left right ≠ 0) :
    base ≠ left ∧ base ≠ right := by
  rw [turn_exact] at bent
  constructor
  · intro same
    rw [same] at bent
    exact bent (by ring)
  · intro same
    rw [same] at bent
    exact bent (by ring)

theorem Point.turn_flip (base left right : Point α) :
    turn base.flip left.flip right.flip = -turn base left right := by
  rw [turn_exact, turn_exact]
  simp only [flip]
  ring

theorem Point.quadrance_flip (first second : Point α) :
    first.flip.quadrance second.flip = first.quadrance second := by
  simp only [quadrance, flip]
  ring

namespace PlaneFunctions.EuclideanLength

variable (lengths : PlaneFunctions.EuclideanLength α)

include lengths

theorem distance_nonneg (first second : Point α) : 0 ≤ first.distance second := lengths.nonneg _ _

theorem distance_square (first second : Point α) :
    first.distance second ^ 2 = first.quadrance second := lengths.square _ _

end PlaneFunctions.EuclideanLength

end

variable [IsStrictOrderedRing α]

namespace Point

theorem quadrance_nonneg (first second : Point α) : 0 ≤ first.quadrance second :=
  add_nonneg (sq_nonneg _) (sq_nonneg _)

theorem quadrance_eq_zero_iff {first second : Point α} :
    first.quadrance second = 0 ↔ first = second := by
  rw [quadrance, add_eq_zero_iff_of_nonneg (sq_nonneg _) (sq_nonneg _), sq_eq_zero_iff,
    sq_eq_zero_iff, sub_eq_zero, sub_eq_zero]
  constructor
  · intro same
    cases first
    cases second
    rw [Point.mk.injEq]
    exact ⟨same.1.symm, same.2.symm⟩
  · intro same
    rw [same]
    exact ⟨rfl, rfl⟩

end Point

variable [PlaneFunctions α]

theorem tolerance_pos : (0 : α) < tolerance := by
  rw [tolerance_exact]
  positivity

theorem PlaneFunctions.EuclideanLength.distance_eq_zero_iff
    (lengths : PlaneFunctions.EuclideanLength α) {first second : Point α} :
    first.distance second = 0 ↔ first = second := by
  rw [← sq_eq_zero_iff, lengths.distance_square, Point.quadrance_eq_zero_iff]

namespace Circle

theorem turn_ne_zero_of_not_collinear {a b c : Point α} (apart : collinear a b c = false) :
    Point.turn a b c ≠ 0 := by
  intro flat
  have none : magnitude (Point.turn a b c) = 0 := by simp [magnitude, flat]
  have ratio : magnitude (Point.turn a b c) / (a.distance b * a.distance c) < tolerance := by
    rw [none, zero_div]
    exact tolerance_pos
  simp [collinear, ratio] at apart

/-- The divisor of the center formulas is not zero, so they can be multiplied out. -/
theorem center_of_through {a b c : Point α} {circle : Circle α}
    (found : through? a b c = some circle) :
    Point.turn a b c ≠ 0 ∧
      2 * Point.turn a b c * circle.center.x = (a.x ^ 2 + a.y ^ 2) * (b.y - c.y) +
        (b.x ^ 2 + b.y ^ 2) * (c.y - a.y) + (c.x ^ 2 + c.y ^ 2) * (a.y - b.y) ∧
      2 * Point.turn a b c * circle.center.y = (a.x ^ 2 + a.y ^ 2) * (c.x - b.x) +
        (b.x ^ 2 + b.y ^ 2) * (a.x - c.x) + (c.x ^ 2 + c.y ^ 2) * (b.x - a.x) ∧
      circle.radius = circle.center.distance a := by
  unfold through? at found
  cases flat : collinear a b c with
  | true => simp [flat] at found
  | false =>
      rw [flat, if_neg Bool.false_ne_true] at found
      have bent := turn_ne_zero_of_not_collinear flat
      have divisor : (ofInt 2 : α) * (a.x * (b.y - c.y) + b.x * (c.y - a.y) + c.x * (a.y - b.y)) =
          2 * Point.turn a b c := by
        rw [of_int_exact, turn_exact]
        push_cast
        ring
      rw [← Option.some.inj found, divisor]
      have nonzero : 2 * Point.turn a b c ≠ 0 := mul_ne_zero two_ne_zero bent
      refine ⟨bent, ?_, ?_, rfl⟩
      · rw [mul_div_cancel₀ _ nonzero]
        ring
      · rw [mul_div_cancel₀ _ nonzero]
        ring

theorem equidistant_of_through {a b c : Point α} {circle : Circle α}
    (found : through? a b c = some circle) :
    circle.center.quadrance b = circle.center.quadrance a ∧
      circle.center.quadrance c = circle.center.quadrance a := by
  have ⟨bent, x, y, _⟩ := center_of_through found
  have nonzero : 2 * Point.turn a b c ≠ 0 := mul_ne_zero two_ne_zero bent
  rw [turn_exact] at x y nonzero
  unfold Point.quadrance
  constructor
  · apply mul_left_cancel₀ nonzero
    linear_combination -2 * (b.x - a.x) * x - 2 * (b.y - a.y) * y
  · apply mul_left_cancel₀ nonzero
    linear_combination -2 * (c.x - a.x) * x - 2 * (c.y - a.y) * y

theorem holds_of_through (lengths : PlaneFunctions.EuclideanLength α) {a b c : Point α}
    {circle : Circle α} (found : through? a b c = some circle) :
    0 < circle.radius ∧ circle.Holds a ∧ circle.Holds b ∧ circle.Holds c := by
  have ⟨bent, _, _, radius⟩ := center_of_through found
  have ⟨second, third⟩ := equidistant_of_through found
  have first : circle.Holds a := by
    rw [Holds, radius, lengths.distance_square]
  refine ⟨?_, first, second.trans first, third.trans first⟩
  rw [radius]
  refine lt_of_le_of_ne (lengths.distance_nonneg _ _) fun none => bent ?_
  have same := lengths.distance_eq_zero_iff.mp none.symm
  have other := Point.quadrance_eq_zero_iff.mp
    (second.trans (Point.quadrance_eq_zero_iff.mpr same))
  rw [turn_exact, ← other, same]
  ring

end Circle

end ShapeFont
