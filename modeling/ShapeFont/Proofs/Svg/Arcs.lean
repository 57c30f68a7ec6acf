import ShapeFont.Proofs.Geometry.Turns
import ShapeFont.Svg.Command

/-!
# What arc commands stand for

An arc command does not name its center. Its radius leaves two, one on either side of the chord, and
two parts of each circle; the flags select one of the four arcs. With exact numbers the commands of an
arc select the one through its control point, and a closed arc becomes two half turns that make up
the circle.
-/

namespace ShapeFont

open Real
open scoped RealPlane

noncomputable def Point.middle (first second : Point ℝ) : Point ℝ :=
  ⟨half (first.x + second.x), half (first.y + second.y)⟩

namespace Svg

/-- The center that an arc command stands for when it is executed at `source`, by the rule for equal
and unrotated radii. It is on the positive side of the chord when the flags differ. -/
noncomputable def arcCenter (source : Point ℝ) (radius : ℝ) (large sweep : Bool)
    (target : Point ℝ) : Point ℝ :=
  let dx := half (source.x - target.x)
  let dy := half (source.y - target.y)
  let size := √((radius ^ 2 * radius ^ 2 - radius ^ 2 * dy ^ 2 - radius ^ 2 * dx ^ 2) /
    (radius ^ 2 * dy ^ 2 + radius ^ 2 * dx ^ 2))
  let factor := if large = sweep then -size else size
  ⟨factor * (radius * dy / radius) + half (source.x + target.x),
    factor * -(radius * dx / radius) + half (source.y + target.y)⟩

/-- The turn that an arc command stands for. Angles grow along it if the sweep flag is set. -/
structure Denotes (source : Point ℝ) (radius : ℝ) (large sweep : Bool) (target : Point ℝ)
    (turn : Turn) : Prop where
  center : turn.center = arcCenter source radius large sweep target
  size : turn.radius = radius
  starts : turn.pointAt 0 = source
  ends : turn.pointAt 1 = target
  extent : Extends sweep turn.extent

/-- The sweep flag is chosen so that what lies on the measured side lies outward. -/
theorem outward_of_sign {side : ℝ} (nonzero : side ≠ 0) : Outward (!decide (0 < side)) side := by
  by_cases positive : 0 < side
  · rw [decide_eq_true positive]
    exact positive
  · rw [decide_eq_false positive]
    exact lt_of_le_of_ne (le_of_not_gt positive) nonzero

theorem mul_pos_iff_outward {side other : ℝ} (nonzero : side ≠ 0) :
    0 < other * side ↔ Outward (!decide (0 < side)) other := by
  by_cases positive : 0 < side
  · rw [decide_eq_true positive]
    exact mul_pos_iff_of_pos_right positive
  · rw [decide_eq_false positive]
    have negative : side < 0 := lt_of_le_of_ne (le_of_not_gt positive) nonzero
    show 0 < other * side ↔ other < 0
    rw [← neg_mul_neg, mul_pos_iff_of_pos_right (neg_pos.mpr negative), neg_pos]

theorem side_of_flags {large sweep : Bool} {side : ℝ} (beyond : large = true ↔ Outward sweep side) :
    if large = sweep then side ≤ 0 else 0 ≤ side := by
  cases sweep with
  | true =>
      cases large with
      | true => exact (beyond.mp rfl).le
      | false => exact le_of_not_gt fun negative => Bool.false_ne_true (beyond.mpr negative)
  | false =>
      cases large with
      | true => exact (beyond.mp rfl).le
      | false => exact le_of_not_gt fun positive => Bool.false_ne_true (beyond.mpr positive)

theorem beside_of_equidistant {center source target : Point ℝ} (apart : source ≠ target)
    (same : center.quadrance source = center.quadrance target) :
    ∃ factor, center.x = factor * ((source.y - target.y) / 2) + (source.x + target.x) / 2 ∧
      center.y = factor * -((source.x - target.x) / 2) + (source.y + target.y) / 2 := by
  have square : (source.x - target.x) ^ 2 + (source.y - target.y) ^ 2 ≠ 0 := by
    intro none
    apply apart
    rw [← Point.quadrance_eq_zero_iff, Point.quadrance]
    linear_combination none
  rw [Point.quadrance, Point.quadrance] at same
  refine ⟨((2 * center.x - source.x - target.x) * (source.y - target.y) -
    (2 * center.y - source.y - target.y) * (source.x - target.x)) /
      ((source.x - target.x) ^ 2 + (source.y - target.y) ^ 2), ?_, ?_⟩
  · field_simp
    linear_combination -(source.x - target.x) * same
  · field_simp
    linear_combination -(source.y - target.y) * same

theorem arc_center_eq {center source target : Point ℝ} {radius : ℝ} (positive : 0 < radius)
    (apart : source ≠ target) (first : center.quadrance source = radius ^ 2)
    (second : center.quadrance target = radius ^ 2) {large sweep : Bool}
    (side : if large = sweep then Point.turn source target center ≤ 0
      else 0 ≤ Point.turn source target center) :
    arcCenter source radius large sweep target = center := by
  -- The square root of the rule only gives the absolute value of this factor. Its sign is the side of
  -- the chord that the center lies on, which the flags agree with.
  have ⟨factor, x, y⟩ := beside_of_equidistant apart (first.trans second.symm)
  have chord : 0 < source.quadrance target :=
    lt_of_le_of_ne (Point.quadrance_nonneg _ _)
      fun none => apart (Point.quadrance_eq_zero_iff.mp none.symm)
  have height : Point.turn source target center = factor * (source.quadrance target / 2) := by
    rw [turn_exact, x, y, Point.quadrance]
    ring
  have size : radius ^ 2 = (1 + factor ^ 2) * (source.quadrance target / 4) := by
    rw [← first, Point.quadrance, Point.quadrance, x, y]
    ring
  have ratio : (radius ^ 2 * radius ^ 2 - radius ^ 2 * ((source.y - target.y) / 2) ^ 2 -
      radius ^ 2 * ((source.x - target.x) / 2) ^ 2) /
        (radius ^ 2 * ((source.y - target.y) / 2) ^ 2 +
          radius ^ 2 * ((source.x - target.x) / 2) ^ 2) = factor ^ 2 := by
    have divisor : radius ^ 2 * ((source.y - target.y) / 2) ^ 2 +
        radius ^ 2 * ((source.x - target.x) / 2) ^ 2 = radius ^ 2 * (source.quadrance target / 4) := by
      rw [Point.quadrance]
      ring
    have nonzero : radius ^ 2 * (source.quadrance target / 4) ≠ 0 := by positivity
    rw [divisor, div_eq_iff nonzero]
    linear_combination radius ^ 2 * size - divisor
  have signed : (if large = sweep then -|factor| else |factor|) = factor := by
    rw [height] at side
    split at side
    · next same =>
        rw [if_pos same, abs_of_nonpos (nonpos_of_mul_nonpos_left side (by positivity)), neg_neg]
    · next differ =>
        rw [if_neg differ, abs_of_nonneg (nonneg_of_mul_nonneg_left side (by positivity))]
  unfold arcCenter
  simp only [half_exact]
  rw [ratio, sqrt_sq_eq_abs, signed, mul_div_cancel_left₀ _ positive.ne',
    mul_div_cancel_left₀ _ positive.ne', ← x, ← y]

section

variable {center source target : Point ℝ} {radius : ℝ} {large sweep : Bool}

theorem exists_denotes (positive : 0 < radius) (apart : source ≠ target)
    (first : center.quadrance source = radius ^ 2) (second : center.quadrance target = radius ^ 2)
    (middle : arcCenter source radius large sweep target = center) :
    ∃ turn, Denotes source radius large sweep target turn := by
  have ⟨angle, started⟩ := exists_angle positive first
  have ⟨extent, proper, reached⟩ := exists_extent positive second angle (started.trans_ne apart) sweep
  refine ⟨⟨center, radius, angle, extent⟩, middle.symm, rfl, ?_, ?_, proper⟩
  · rw [Turn.pointAt, zero_mul, add_zero]
    exact started
  · rw [Turn.pointAt, one_mul]
    exact reached

theorem Denotes.ends_on_circle {turn : Turn} (denotes : Denotes source radius large sweep target turn)
    (middle : arcCenter source radius large sweep target = center) :
    (∀ part, turn.pointAt part = Pen.onCircle center radius (turn.angle + part * turn.extent)) ∧
      Pen.onCircle center radius turn.angle = source ∧
      Pen.onCircle center radius (turn.angle + turn.extent) = target := by
  have ⟨named, size, starts, ends, _⟩ := denotes
  rw [middle] at named
  rw [Turn.pointAt, named, size, zero_mul, add_zero] at starts
  rw [Turn.pointAt, named, size, one_mul] at ends
  refine ⟨fun part => ?_, starts, ends⟩
  rw [Turn.pointAt, named, size]

/-- With the control point on its outward side and the center there just when the large flag is set,
a command has that center, runs through the control point, and the large flag tells whether it is
more than half a turn. -/
theorem turn_of_denotes {control : Point ℝ} (positive : 0 < radius)
    (first : center.quadrance source = radius ^ 2) (second : center.quadrance control = radius ^ 2)
    (third : center.quadrance target = radius ^ 2)
    (side : Outward sweep (Point.turn source target control))
    (beyond : large = true ↔ Outward sweep (Point.turn source target center)) :
    arcCenter source radius large sweep target = center ∧
      (∃ turn, Denotes source radius large sweep target turn) ∧
      ∀ turn, Denotes source radius large sweep target turn →
        (∃ part, 0 < part ∧ part < 1 ∧ turn.pointAt part = control) ∧
          (large = true ↔ π < |turn.extent|) := by
  have ⟨apart, away⟩ := Point.ne_of_turn_ne_zero (ne_zero_of_outward side)
  have middle : arcCenter source radius large sweep target = center :=
    arc_center_eq positive apart first third (side_of_flags beyond)
  refine ⟨middle, exists_denotes positive apart first third middle, ?_⟩
  intro turn denotes
  have ⟨points, starts, ends⟩ := denotes.ends_on_circle middle
  have proper := denotes.extent
  -- The control point is reached in the direction of the command after less than a full turn. Whether
  -- that is before the end is a matter of the side of the chord.
  have ⟨reached, within, passed⟩ :=
    exists_extent positive second turn.angle (starts.trans_ne away) sweep
  constructor
  · rw [← starts, ← ends, ← passed] at side
    have ⟨part, above, below, here⟩ := passes_of_side proper within side
    refine ⟨part, above, below, ?_⟩
    rw [points, here, passed]
  · rw [beyond, half_turn_lt_iff proper, ← starts, ← ends, turn_of_center,
      outward_mul_iff (by positivity)]

/-- An arc command across a diameter is a half turn, against the angles if its sweep flag is not
set. -/
theorem half_turn_of_denotes (positive : 0 < radius)
    (diameter : source.quadrance target = (2 * radius) ^ 2) :
    arcCenter source radius false false target = source.middle target ∧
      (∃ turn, Denotes source radius false false target turn) ∧
      ∀ turn, Denotes source radius false false target turn → turn.extent = -π := by
  have apart : source ≠ target := by
    intro same
    rw [Point.quadrance_eq_zero_iff.mpr same] at diameter
    exact pow_ne_zero 2 (mul_ne_zero two_ne_zero positive.ne') diameter.symm
  have first : (source.middle target).quadrance source = radius ^ 2 := by
    rw [Point.quadrance] at diameter
    rw [Point.quadrance, Point.middle, half_exact, half_exact]
    linear_combination diameter / 4
  have second : (source.middle target).quadrance target = radius ^ 2 := by
    rw [Point.quadrance] at diameter
    rw [Point.quadrance, Point.middle, half_exact, half_exact]
    linear_combination diameter / 4
  have flat : Point.turn source target (source.middle target) = 0 := by
    rw [turn_exact, Point.middle, half_exact, half_exact]
    ring
  have middle : arcCenter source radius false false target = source.middle target := by
    apply arc_center_eq positive apart first second
    rw [if_pos rfl, flat]
  refine ⟨middle, exists_denotes positive apart first second middle, ?_⟩
  intro turn denotes
  obtain ⟨_, starts, ends⟩ := denotes.ends_on_circle middle
  obtain ⟨lower, upper⟩ : -(2 * π) < turn.extent ∧ turn.extent < 0 := denotes.extent
  have height := turn_of_center (source.middle target) radius turn.angle turn.extent
  rw [starts, ends, flat] at height
  have still : sin (turn.extent + π) = 0 := by
    rw [sin_add_pi, neg_eq_zero]
    exact (mul_eq_zero_iff_left (pow_ne_zero 2 positive.ne')).mp height.symm
  have none := (sin_eq_zero_iff_of_lt_of_lt (by linarith) (by linarith)).mp still
  linarith

/-- The two commands of a closed arc are half turns about one center, the second from where the
first ends, and together they meet every point of the circle once. -/
theorem full_turn_of_denotes (positive : 0 < radius)
    (diameter : source.quadrance target = (2 * radius) ^ 2) {first second : Turn}
    (onward : Denotes source radius false false target first)
    (back : Denotes target radius false false source second) :
    first.center = source.middle target ∧ second.center = source.middle target ∧
      first.extent = -π ∧ second.extent = -π ∧
      ∀ point, (source.middle target).quadrance point = radius ^ 2 →
        ∃! part, 0 ≤ part ∧ part < 2 ∧ first.pointAlong second part = point := by
  have reverse : target.quadrance source = (2 * radius) ^ 2 := by
    rw [← diameter, Point.quadrance_comm]
  have same : target.middle source = source.middle target := by
    rw [Point.middle, Point.middle, add_comm target.x, add_comm target.y]
  have ⟨middle, _, half⟩ := half_turn_of_denotes positive diameter
  have ⟨behind, _, rest⟩ := half_turn_of_denotes positive reverse
  rw [same] at behind
  have ⟨there, _, goal⟩ := onward.ends_on_circle middle
  have ⟨again, begun, _⟩ := back.ends_on_circle behind
  rw [half first onward] at there goal
  rw [rest second back] at again
  have ⟨turns, joined⟩ := turns_of_on_circle_eq positive (begun.trans goal.symm)
  have along (part : ℝ) : first.pointAlong second part =
      Pen.onCircle (source.middle target) radius (first.angle - part * π) := by
    unfold Turn.pointAlong
    split
    · rw [there, mul_neg, ← sub_eq_add_neg]
    · rw [again, joined, ← on_circle_add_turns _ _ (first.angle - part * π) turns]
      congr 1
      ring
  refine ⟨onward.center.trans middle, back.center.trans behind, half first onward, rest second back,
    fun point on => ?_⟩
  have once := meets_once positive on first.angle
  simpa only [along] using once

end

theorem bend_eq (start control target : Point ℝ) :
    bend start control target = Point.turn start.flip target.flip control.flip := by
  rw [Point.turn_flip, turn_exact, bend]
  ring

/-- A chord is no longer than the diameter, so that the radius of a command need not be enlarged. -/
theorem distance_le_diameter {circle : Circle ℝ} (positive : 0 < circle.radius)
    {first second : Point ℝ} (one : circle.Holds first) (other : circle.Holds second) :
    first.distance second ≤ 2 * circle.radius := by
  have lengths := PlaneFunctions.euclidean_length
  rw [← sq_le_sq₀ (lengths.distance_nonneg _ _) (by positivity), lengths.distance_square]
  unfold Circle.Holds Point.quadrance at one other
  unfold Point.quadrance
  nlinarith [sq_nonneg (first.x + second.x - 2 * circle.center.x),
    sq_nonneg (first.y + second.y - 2 * circle.center.y)]

theorem arc_commands_eq_arc {start control target goal : Point ℝ} {radius : ℝ} {large sweep : Bool}
    (single : arcCommands start control target = [.arcTo radius large sweep goal]) :
    ∃ circle, Circle.through? start control target = some circle ∧ radius = circle.radius ∧
      goal = target.flip ∧
      Outward sweep (Point.turn start.flip target.flip control.flip) ∧
      (large = true ↔ Outward sweep (Point.turn start.flip target.flip circle.center.flip)) := by
  unfold arcCommands at single
  split at single
  · simp [fullCircle] at single
  · split at single
    · simp at single
    · next circle found =>
        have ⟨bent, _⟩ := Circle.center_of_through found
        simp only [List.cons.injEq, Command.arcTo.injEq, and_true] at single
        have ⟨size, flag, growing, reached⟩ := single
        have turned : Point.turn start.flip target.flip control.flip ≠ 0 := by
          rw [Point.turn_flip]
          intro flat
          apply bent
          rw [turn_exact] at flat ⊢
          linear_combination flat
        rw [bend_eq, zero_exact] at growing
        rw [← neg_mul_neg, ← Point.turn_flip, ← Point.turn_flip, zero_exact] at flag
        rw [← flag, ← growing, decide_eq_true_iff]
        exact ⟨circle, found, size.symm, reached.symm, outward_of_sign turned,
          mul_pos_iff_outward turned⟩

theorem arc_commands_of_closed {start control : Point ℝ} (apart : control ≠ start) :
    arcCommands start control start =
      [.arcTo (start.distance control / 2) false false control.flip,
        .arcTo (start.distance control / 2) false false start.flip] ∧
      0 < start.distance control := by
  have lengths := PlaneFunctions.euclidean_length
  have reach : 0 < start.distance control :=
    lt_of_le_of_ne (lengths.distance_nonneg _ _)
      fun none => apart (lengths.distance_eq_zero_iff.mp none.symm).symm
  have nowhere : start.distance start = 0 := lengths.distance_eq_zero_iff.mpr rfl
  have closed : closes start control start = true := by
    have within : (0 : ℝ) ≤ tolerance * start.distance control := (mul_pos tolerance_pos reach).le
    simp [closes, nowhere, reach, within]
  refine ⟨?_, reach⟩
  rw [arcCommands, if_pos closed, fullCircle, half_exact]

/-- A single arc command of an arc stands for the part of the mirrored circle through its three
points that runs from the start over the control point to the end. An arc that closes is two half
turns about the middle of its start and its control point, in one direction, which meet every point
of their circle once. -/
theorem arc_commands_stand_for_arc (start control target : Point ℝ) :
    (∀ radius large sweep goal,
      arcCommands start control target = [.arcTo radius large sweep goal] →
      ∃ circle, Circle.through? start control target = some circle ∧
        circle.Holds start ∧ circle.Holds control ∧ circle.Holds target ∧
        radius = circle.radius ∧ 0 < radius ∧ goal = target.flip ∧
        start.distance target ≤ 2 * radius ∧
        arcCenter start.flip radius large sweep goal = circle.center.flip ∧
        (∃ turn, Denotes start.flip radius large sweep goal turn) ∧
        ∀ turn, Denotes start.flip radius large sweep goal turn →
          (∃ part, 0 < part ∧ part < 1 ∧ turn.pointAt part = control.flip) ∧
          (large = true ↔ π < |turn.extent|)) ∧
    (target = start → control ≠ start →
      let radius := start.distance control / 2
      let middle := start.flip.middle control.flip
      arcCommands start control target =
        [.arcTo radius false false control.flip, .arcTo radius false false target.flip] ∧
      0 < radius ∧
      (∃ turn, Denotes start.flip radius false false control.flip turn) ∧
      (∃ turn, Denotes control.flip radius false false target.flip turn) ∧
      ∀ first second, Denotes start.flip radius false false control.flip first →
        Denotes control.flip radius false false target.flip second →
        first.center = middle ∧ second.center = middle ∧
        first.extent = -π ∧ second.extent = -π ∧
        ∀ point, middle.quadrance point = radius ^ 2 →
          ∃! part, 0 ≤ part ∧ part < 2 ∧ first.pointAlong second part = point) := by
  have lengths := PlaneFunctions.euclidean_length
  constructor
  · intro radius large sweep goal single
    have ⟨circle, found, size, reached, side, beyond⟩ := arc_commands_eq_arc single
    have ⟨positive, first, second, third⟩ := Circle.holds_of_through lengths found
    rw [size, reached]
    refine ⟨circle, found, first, second, third, rfl, positive, rfl, ?_, ?_⟩
    · exact distance_le_diameter positive first third
    · apply turn_of_denotes positive _ _ _ side beyond
      · rw [Point.quadrance_flip]
        exact first
      · rw [Point.quadrance_flip]
        exact second
      · rw [Point.quadrance_flip]
        exact third
  · intro same apart radius middle
    rw [same]
    have ⟨halves, reach⟩ := arc_commands_of_closed apart
    have positive : 0 < radius := half_pos reach
    have diameter : start.flip.quadrance control.flip = (2 * radius) ^ 2 := by
      rw [Point.quadrance_flip, mul_div_cancel₀ _ two_ne_zero, lengths.distance_square]
    have reverse : control.flip.quadrance start.flip = (2 * radius) ^ 2 := by
      rw [← diameter, Point.quadrance_comm]
    refine ⟨halves, positive, (half_turn_of_denotes positive diameter).2.1,
      (half_turn_of_denotes positive reverse).2.1, ?_⟩
    intro first second onward back
    exact full_turn_of_denotes positive diameter onward back

/-- Three points of the circle with radius 25 / 8, of which the arc leaves out less than half. -/
theorem arc_of_more_than_half :
    let start : Point ℝ := ⟨0, 0⟩
    let control : Point ℝ := ⟨4, 3⟩
    let target : Point ℝ := ⟨4, -3⟩
    arcCommands start control target = [.arcTo (25 / 8) true true ⟨4, 3⟩] ∧
      (∀ turn, Denotes start.flip (25 / 8) true true ⟨4, 3⟩ turn →
        (∃ part, 0 < part ∧ part < 1 ∧ turn.pointAt part = control.flip) ∧ π < |turn.extent|) ∧
      control ≠ start ∧
      ∃ turn, Denotes start.flip (start.distance control / 2) false false control.flip turn := by
  intro start control target
  have lengths := PlaneFunctions.euclidean_length
  have reach : start.distance control = 5 := by
    rw [← sq_eq_sq₀ (lengths.distance_nonneg _ _) (by norm_num), lengths.distance_square]
    norm_num [Point.quadrance, start, control]
  have chord : start.distance target = 5 := by
    rw [← sq_eq_sq₀ (lengths.distance_nonneg _ _) (by norm_num), lengths.distance_square]
    norm_num [Point.quadrance, start, target]
  have opened : closes start control target = false := by
    norm_num [closes, reach, chord, tolerance_exact]
  have bent : Circle.collinear start control target = false := by
    norm_num [Circle.collinear, reach, chord, tolerance_exact, magnitude, turn_exact, start, control,
      target]
  have through : Circle.through? start control target = some ⟨⟨25 / 8, 0⟩, 25 / 8⟩ := by
    have radius : hypot (-(25 / 8) : ℝ) 0 = 25 / 8 := by
      show PlaneFunctions.hypot (-(25 / 8) : ℝ) 0 = 25 / 8
      rw [← sq_eq_sq₀ (lengths.nonneg _ _) (by norm_num), lengths.square]
      norm_num
    rw [Circle.through?, bent, if_neg Bool.false_ne_true]
    norm_num [start, control, target, radius]
  have single : arcCommands start control target = [.arcTo (25 / 8) true true ⟨4, 3⟩] := by
    rw [arcCommands, opened, through]
    norm_num [bend, turn_exact, Point.flip, start, control, target]
  have apart : control ≠ start := by
    norm_num [start, control]
  obtain ⟨_, _, _, _, _, _, _, _, _, _, _, turns⟩ :=
    (arc_commands_stand_for_arc start control target).1 _ _ _ _ single
  obtain ⟨_, _, half, _⟩ := (arc_commands_stand_for_arc start control start).2 rfl apart
  refine ⟨single, fun turn denotes => ?_, apart, half⟩
  obtain ⟨passes, large⟩ := turns turn denotes
  exact ⟨passes, large.mp rfl⟩

end Svg

end ShapeFont
