import Mathlib.Algebra.Order.ToIntervalMod
import Mathlib.Analysis.SpecialFunctions.Trigonometric.Angle
import ShapeFont.Glyph.Pen
import ShapeFont.Proofs.Geometry.Circumcircle

/-!
# Turns on a circle

Over the real numbers the points of a circle are those at its angles, and a part of it is a start with
the signed angle that is turned from there. On which side of its chord a point or the center lies says
whether such a part runs through the point and whether it is more than half of the circle.
-/

namespace ShapeFont

open Real

namespace RealPlane

/-- Where this namespace is open the real plane has its usual length and angles. -/
noncomputable scoped instance functions : PlaneFunctions ℝ := PlaneFunctions.euclidean

end RealPlane

open scoped RealPlane

/-- A part of a circle, or with an extent of more than a full turn a repetition of it. -/
structure Turn where
  center : Point ℝ
  radius : ℝ
  angle : ℝ
  extent : ℝ

noncomputable def Turn.pointAt (turn : Turn) (part : ℝ) : Point ℝ :=
  Pen.onCircle turn.center turn.radius (turn.angle + part * turn.extent)

/-- Less than a full turn, by growing angles or by shrinking ones. -/
def Extends (growing : Bool) (extent : ℝ) : Prop :=
  if growing then 0 < extent ∧ extent < tau else -tau < extent ∧ extent < 0

/-- The side of its chord on which the points of a turn lie, as the sign of an area. -/
def Outward (growing : Bool) (side : ℝ) : Prop := if growing then side < 0 else 0 < side

theorem ne_zero_of_outward {growing : Bool} {side : ℝ} (outward : Outward growing side) :
    side ≠ 0 := by
  cases growing with
  | true => exact ne_of_lt outward
  | false => exact ne_of_gt outward

theorem outward_mul_iff {growing : Bool} {factor side : ℝ} (positive : 0 < factor) :
    Outward growing (factor * side) ↔ Outward growing side := by
  cases growing with
  | true =>
      show factor * side < 0 ↔ side < 0
      rw [← neg_pos, ← mul_neg, mul_pos_iff_of_pos_left positive, neg_pos]
  | false => exact mul_pos_iff_of_pos_left positive

theorem on_circle_exact (center : Point ℝ) (radius angle : ℝ) :
    Pen.onCircle center radius angle =
      ⟨center.x + radius * cos angle, center.y + radius * sin angle⟩ := rfl

theorem exists_angle {center point : Point ℝ} {radius : ℝ} (positive : 0 < radius)
    (on : center.quadrance point = radius ^ 2) :
    ∃ angle, Pen.onCircle center radius angle = point := by
  let vector : ℂ := ⟨point.x - center.x, point.y - center.y⟩
  have length : ‖vector‖ = radius := by
    rw [← sq_eq_sq₀ (norm_nonneg vector) positive.le, ← on, Complex.sq_norm, Complex.normSq_mk,
      Point.quadrance]
    ring
  have abscissa := Complex.norm_mul_cos_arg vector
  have ordinate := Complex.norm_mul_sin_arg vector
  rw [length] at abscissa ordinate
  refine ⟨vector.arg, ?_⟩
  rw [on_circle_exact, abscissa, ordinate]
  simp [vector]

theorem on_circle_add_turns (center : Point ℝ) (radius angle : ℝ) (turns : ℤ) :
    Pen.onCircle center radius (angle + turns * (2 * π)) = Pen.onCircle center radius angle := by
  rw [on_circle_exact, on_circle_exact, cos_add_int_mul_two_pi, sin_add_int_mul_two_pi]

theorem turns_of_on_circle_eq {center : Point ℝ} {radius : ℝ} (positive : 0 < radius)
    {first second : ℝ}
    (same : Pen.onCircle center radius first = Pen.onCircle center radius second) :
    ∃ turns : ℤ, first = second + turns * (2 * π) := by
  rw [on_circle_exact, on_circle_exact, Point.mk.injEq, add_right_inj, add_right_inj] at same
  have cosines := mul_left_cancel₀ positive.ne' same.1
  have sines := mul_left_cancel₀ positive.ne' same.2
  have ⟨turns, apart⟩ := Real.Angle.angle_eq_iff_two_pi_dvd_sub.mp
    (Real.Angle.cos_sin_inj cosines sines)
  exact ⟨turns, by linear_combination apart⟩

theorem exists_least_angle (angle : ℝ) :
    ∃ (least : ℝ) (turns : ℤ), 0 ≤ least ∧ least < 2 * π ∧ least + turns * (2 * π) = angle := by
  have ⟨lower, upper⟩ := toIcoMod_mem_Ico two_pi_pos 0 angle
  have split := toIcoMod_add_toIcoDiv_zsmul two_pi_pos 0 angle
  rw [zsmul_eq_mul] at split
  rw [zero_add] at upper
  exact ⟨_, _, lower, upper, split⟩

theorem exists_extent {center point : Point ℝ} {radius : ℝ} (positive : 0 < radius)
    (on : center.quadrance point = radius ^ 2) (angle : ℝ)
    (other : Pen.onCircle center radius angle ≠ point) (growing : Bool) :
    ∃ extent, Extends growing extent ∧ Pen.onCircle center radius (angle + extent) = point := by
  have ⟨goal, reached⟩ := exists_angle positive on
  have ⟨least, turns, lower, upper, split⟩ := exists_least_angle (goal - angle)
  have arrives (extra : ℤ) :
      Pen.onCircle center radius (angle + (least + extra * (2 * π))) = point := by
    rw [← reached, ← on_circle_add_turns center radius _ (turns - extra)]
    congr 1
    push_cast
    linear_combination split
  have nonzero : 0 ≠ least := by
    intro none
    apply other
    have law := arrives 0
    rwa [← none, Int.cast_zero, zero_mul, add_zero, add_zero] at law
  cases growing with
  | true =>
      refine ⟨least, ?_, ?_⟩
      · exact ⟨lt_of_le_of_ne lower nonzero, upper⟩
      · simpa using arrives 0
  | false =>
      refine ⟨least + (-1 : ℤ) * (2 * π), ?_, arrives (-1)⟩
      have above := lt_of_le_of_ne lower nonzero
      show -(2 * π) < _ ∧ _ < 0
      push_cast
      constructor <;> linarith

theorem sin_half_of_extends {growing : Bool} {extent : ℝ} (proper : Extends growing extent) :
    if growing then 0 < sin (extent / 2) else sin (extent / 2) < 0 := by
  cases growing with
  | true =>
      obtain ⟨lower, upper⟩ : 0 < extent ∧ extent < 2 * π := proper
      exact sin_pos_of_pos_of_lt_pi (by linarith) (by linarith)
  | false =>
      obtain ⟨lower, upper⟩ : -(2 * π) < extent ∧ extent < 0 := proper
      exact sin_neg_of_neg_of_neg_pi_lt (by linarith) (by linarith)

/-- The side of a chord on which a third point of the circle lies. -/
theorem turn_of_points (center : Point ℝ) (radius angle extent reached : ℝ) :
    Point.turn (Pen.onCircle center radius angle) (Pen.onCircle center radius (angle + extent))
        (Pen.onCircle center radius (angle + reached)) =
      -(4 * radius ^ 2) *
        (sin (extent / 2) * sin (reached / 2) * sin ((extent - reached) / 2)) := by
  have abscissa (further : ℝ) : center.x + radius * cos (angle + further) -
      (center.x + radius * cos angle) =
        radius * (-2 * sin (angle + further / 2) * sin (further / 2)) := by
    have chord := cos_sub_cos (angle + further) angle
    rw [add_sub_cancel_left, show (angle + further + angle) / 2 = angle + further / 2 by ring]
      at chord
    linear_combination radius * chord
  have ordinate (further : ℝ) : center.y + radius * sin (angle + further) -
      (center.y + radius * sin angle) =
        radius * (2 * sin (further / 2) * cos (angle + further / 2)) := by
    have chord := sin_sub_sin (angle + further) angle
    rw [add_sub_cancel_left, show (angle + further + angle) / 2 = angle + further / 2 by ring]
      at chord
    linear_combination radius * chord
  have between : sin ((extent - reached) / 2) =
      sin (angle + extent / 2) * cos (angle + reached / 2) -
        cos (angle + extent / 2) * sin (angle + reached / 2) := by
    rw [← sin_sub]
    congr 1
    ring
  rw [turn_exact, on_circle_exact, on_circle_exact, on_circle_exact, abscissa, abscissa, ordinate,
    ordinate, between]
  ring

theorem turn_of_center (center : Point ℝ) (radius angle extent : ℝ) :
    Point.turn (Pen.onCircle center radius angle) (Pen.onCircle center radius (angle + extent))
        center = radius ^ 2 * sin extent := by
  have sine : sin extent = sin (angle + extent) * cos angle - cos (angle + extent) * sin angle := by
    rw [← sin_sub, add_sub_cancel_left]
  rw [turn_exact, on_circle_exact, on_circle_exact, sine]
  ring

/-- A turn runs through the points that lie on its side of the chord. -/
theorem passes_of_side {growing : Bool} {extent reached : ℝ} (proper : Extends growing extent)
    (within : Extends growing reached) {center : Point ℝ} {radius angle : ℝ}
    (side : Outward growing (Point.turn (Pen.onCircle center radius angle)
      (Pen.onCircle center radius (angle + extent))
      (Pen.onCircle center radius (angle + reached)))) :
    ∃ part, 0 < part ∧ part < 1 ∧ part * extent = reached := by
  have first := sin_half_of_extends proper
  have second := sin_half_of_extends within
  have square := sq_nonneg radius
  rw [turn_of_points] at side
  cases growing with
  | true =>
      obtain ⟨lower, upper⟩ : 0 < extent ∧ extent < 2 * π := proper
      obtain ⟨above, below⟩ : 0 < reached ∧ reached < 2 * π := within
      have shorter : reached < extent := by
        by_contra farther
        have turned : sin ((extent - reached) / 2) ≤ 0 :=
          sin_nonpos_of_nonpos_of_neg_pi_le (by linarith) (by linarith)
        have product : sin (extent / 2) * sin (reached / 2) * sin ((extent - reached) / 2) ≤ 0 :=
          mul_nonpos_of_nonneg_of_nonpos (mul_pos first second).le turned
        have beside : 0 ≤ -(4 * radius ^ 2) *
            (sin (extent / 2) * sin (reached / 2) * sin ((extent - reached) / 2)) :=
          mul_nonneg_of_nonpos_of_nonpos (by linarith) product
        exact absurd side beside.not_gt
      exact ⟨reached / extent, div_pos above lower, (div_lt_one lower).mpr shorter,
        div_mul_cancel₀ _ lower.ne'⟩
  | false =>
      obtain ⟨lower, upper⟩ : -(2 * π) < extent ∧ extent < 0 := proper
      obtain ⟨above, below⟩ : -(2 * π) < reached ∧ reached < 0 := within
      have shorter : extent < reached := by
        by_contra farther
        have turned : 0 ≤ sin ((extent - reached) / 2) :=
          sin_nonneg_of_nonneg_of_le_pi (by linarith) (by linarith)
        have product : 0 ≤ sin (extent / 2) * sin (reached / 2) * sin ((extent - reached) / 2) :=
          mul_nonneg (mul_pos_of_neg_of_neg first second).le turned
        have beside : -(4 * radius ^ 2) *
            (sin (extent / 2) * sin (reached / 2) * sin ((extent - reached) / 2)) ≤ 0 :=
          mul_nonpos_of_nonpos_of_nonneg (by linarith) product
        exact absurd side beside.not_gt
      exact ⟨reached / extent, div_pos_of_neg_of_neg below upper,
        (div_lt_one_of_neg upper).mpr shorter, div_mul_cancel₀ _ upper.ne⟩

theorem sin_neg_iff_of_growing {extent : ℝ} (lower : 0 < extent) (upper : extent < 2 * π) :
    sin extent < 0 ↔ π < extent := by
  constructor
  · intro negative
    by_contra short
    exact absurd negative (sin_nonneg_of_nonneg_of_le_pi lower.le (le_of_not_gt short)).not_gt
  · intro beyond
    rw [← sin_sub_two_pi]
    exact sin_neg_of_neg_of_neg_pi_lt (by linarith) (by linarith)

theorem half_turn_lt_iff {growing : Bool} {extent : ℝ} (proper : Extends growing extent) :
    π < |extent| ↔ Outward growing (sin extent) := by
  cases growing with
  | true =>
      obtain ⟨lower, upper⟩ : 0 < extent ∧ extent < 2 * π := proper
      rw [abs_of_pos lower, Outward, if_pos rfl, sin_neg_iff_of_growing lower upper]
  | false =>
      obtain ⟨lower, upper⟩ : -(2 * π) < extent ∧ extent < 0 := proper
      rw [abs_of_neg upper, Outward, if_neg Bool.false_ne_true,
        ← sin_neg_iff_of_growing (neg_pos.mpr upper) (neg_lt.mp lower), sin_neg, neg_lt_zero]

/-- Two half turns one after the other, each of them for one unit of `part`. -/
noncomputable def Turn.pointAlong (first second : Turn) (part : ℝ) : Point ℝ :=
  if part < 1 then first.pointAt part else second.pointAt (part - 1)

/-- A full turn down from any angle meets each point of the circle once. -/
theorem meets_once {center point : Point ℝ} {radius : ℝ} (positive : 0 < radius)
    (on : center.quadrance point = radius ^ 2) (angle : ℝ) :
    ∃! part, 0 ≤ part ∧ part < 2 ∧ Pen.onCircle center radius (angle - part * π) = point := by
  have ⟨goal, reached⟩ := exists_angle positive on
  have ⟨least, turns, lower, upper, split⟩ := exists_least_angle (angle - goal)
  refine ⟨least / π, ⟨div_nonneg lower pi_pos.le, (div_lt_iff₀ pi_pos).mpr upper, ?_⟩, ?_⟩
  · rw [← reached, ← on_circle_add_turns center radius goal turns, div_mul_cancel₀ _ pi_pos.ne']
    congr 1
    linear_combination -split
  · intro part ⟨above, below, here⟩
    rw [← reached] at here
    have ⟨extra, apart⟩ := turns_of_on_circle_eq positive here
    have scaled : part * π = least + ((turns - extra : ℤ) : ℝ) * (2 * π) := by
      push_cast
      linear_combination -split - apart
    have none : turns - extra = 0 := by
      have most : ((turns - extra : ℤ) : ℝ) * (2 * π) < 1 * (2 * π) := by
        have far : part * π < 2 * π := mul_lt_mul_of_pos_right below pi_pos
        linarith
      have fewest : (-1) * (2 * π) < ((turns - extra : ℤ) : ℝ) * (2 * π) := by
        have near : 0 ≤ part * π := mul_nonneg above pi_pos.le
        linarith
      have belowOne : turns - extra < 1 := by
        exact_mod_cast lt_of_mul_lt_mul_right most two_pi_pos.le
      have aboveMinusOne : -1 < turns - extra := by
        exact_mod_cast lt_of_mul_lt_mul_right fewest two_pi_pos.le
      omega
    rw [eq_div_iff pi_pos.ne', scaled, none, Int.cast_zero, zero_mul, add_zero]

end ShapeFont
