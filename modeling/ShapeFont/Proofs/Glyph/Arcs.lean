import ShapeFont.Proofs.Geometry.Turns
import ShapeFont.Proofs.Glyph.Step
import ShapeFont.Proofs.Instruction.Spelling

/-!
# Where arcs run

An arc instruction leads the pen along a circle through its position, by the angle that the operands
tell, and gives the point after half of that angle as the control point. A bulge leads it over a point
straight across the middle of the chord. Of sine, cosine and the angle of a vector this takes a few
equations, which they satisfy over the real numbers.
-/

namespace ShapeFont

universe u

/-- Sine and cosine are the coordinates of the unit circle, where half a turn leads to the other side,
and a vector that is turned to the right by a quarter has the length and the angle for it. -/
structure PlaneFunctions.Circular (α : Type u) [Field α] [LinearOrder α] [PlaneFunctions α] :
    Prop where
  unit (angle : α) : Elementary.cos angle ^ 2 + Elementary.sin angle ^ 2 = 1
  opposite_cos (angle : α) : Elementary.cos (angle + tau / 2) = -Elementary.cos angle
  opposite_sin (angle : α) : Elementary.sin (angle + tau / 2) = -Elementary.sin angle
  rightwards_cos (dx dy : α) : hypot dx dy * Elementary.cos (atan2 dy dx - tau / 4) = dy
  rightwards_sin (dx dy : α) : hypot dx dy * Elementary.sin (atan2 dy dx - tau / 4) = -dx

theorem PlaneFunctions.euclidean_circular : @Circular ℝ _ _ euclidean := by
  let functions := euclidean
  have quarter : 2 * Real.pi / 4 = Real.pi / 2 := by ring
  have length (dx dy : ℝ) : √(dx ^ 2 + dy ^ 2) = ‖(⟨dx, dy⟩ : ℂ)‖ := by
    rw [Complex.norm_def, Complex.normSq_mk, sq, sq]
  constructor
  · intro angle
    exact Real.cos_sq_add_sin_sq angle
  · intro angle
    show Real.cos (angle + 2 * Real.pi / 2) = -Real.cos angle
    rw [mul_div_cancel_left₀ _ two_ne_zero, Real.cos_add_pi]
  · intro angle
    show Real.sin (angle + 2 * Real.pi / 2) = -Real.sin angle
    rw [mul_div_cancel_left₀ _ two_ne_zero, Real.sin_add_pi]
  · intro dx dy
    show √(dx ^ 2 + dy ^ 2) * Real.cos (Complex.arg ⟨dx, dy⟩ - 2 * Real.pi / 4) = dy
    rw [quarter, Real.cos_sub_pi_div_two, length, Complex.norm_mul_sin_arg]
  · intro dx dy
    show √(dx ^ 2 + dy ^ 2) * Real.sin (Complex.arg ⟨dx, dy⟩ - 2 * Real.pi / 4) = -dx
    rw [quarter, Real.sin_sub_pi_div_two, length, mul_neg, Complex.norm_mul_cos_arg]

variable {α : Type u} [Field α] [LinearOrder α] [PlaneFunctions α]

def Point.halfway (first second : Point α) : Point α :=
  ⟨half (first.x + second.x), half (first.y + second.y)⟩

/-- The point beside the middle of the chord, by a part of half the chord turned to the right. -/
def Point.beside (start : Point α) (dx dy part : α) : Point α :=
  ⟨start.x + half dx + part * half dy, start.y + half dy + part * -half dx⟩

/-- A circle on which the control point is half of the way from the start to the target. -/
structure ArcRun (center : Point α) (radius angle swept : α) (start control target : Point α) :
    Prop where
  starts : Pen.onCircle center radius angle = start
  passes : Pen.onCircle center radius (angle + swept / 2) = control
  ends : Pen.onCircle center radius (angle + swept) = target
  equidistant : center.quadrance start = radius ^ 2 ∧ center.quadrance control = radius ^ 2 ∧
    center.quadrance target = radius ^ 2

/-- Two points have the same distance from a line, straight across from each other. -/
structure Mirrored (first second point image : Point α) : Prop where
  across : (image.x - point.x) * (second.x - first.x) +
    (image.y - point.y) * (second.y - first.y) = 0
  between : Point.turn first second (point.halfway image) = 0

namespace PlaneFunctions.Circular

variable (laws : PlaneFunctions.Circular α)

include laws

theorem quadrance_on_circle (center : Point α) (radius angle : α) :
    center.quadrance (Pen.onCircle center radius angle) = radius ^ 2 := by
  rw [Point.quadrance, Pen.onCircle]
  linear_combination radius ^ 2 * laws.unit angle

theorem arc_run (center : Point α) (radius angle swept : α) :
    ArcRun center radius angle swept (Pen.onCircle center radius angle)
      (Pen.onCircle center radius (angle + swept / 2))
      (Pen.onCircle center radius (angle + swept)) where
  starts := rfl
  passes := rfl
  ends := rfl
  equidistant := ⟨laws.quadrance_on_circle .., laws.quadrance_on_circle ..,
    laws.quadrance_on_circle ..⟩

theorem on_circle_half_turn (center : Point α) (radius angle : α) :
    Pen.onCircle center radius (angle + tau / 2) =
      ⟨center.x - radius * Elementary.cos angle, center.y - radius * Elementary.sin angle⟩ := by
  rw [Pen.onCircle, laws.opposite_cos, laws.opposite_sin, mul_neg, mul_neg, ← sub_eq_add_neg,
    ← sub_eq_add_neg]

variable [IsStrictOrderedRing α]

theorem full_turn {center start control target : Point α} {radius angle : α}
    (run : ArcRun center radius angle tau start control target) :
    target = start ∧ center = start.halfway control := by
  have passes := run.passes
  have ends := run.ends
  rw [laws.on_circle_half_turn] at passes
  rw [← add_halves (tau : α), ← add_assoc, laws.on_circle_half_turn, laws.opposite_cos,
    laws.opposite_sin, mul_neg, mul_neg, sub_neg_eq_add, sub_neg_eq_add] at ends
  constructor
  · rw [← ends, ← run.starts]
    rfl
  · rw [← run.starts, ← passes, Pen.onCircle, Point.halfway, half_exact, half_exact]
    cases center
    rw [Point.mk.injEq]
    constructor <;> ring

end PlaneFunctions.Circular

def startOctant (sweep : UInt8) : Int :=
  if 128 ≤ sweep.toNat then -(sweep.toNat / 16 % 8 : Nat) else (sweep.toNat / 16 % 8 : Nat)

def spannedOctants (sweep : UInt8) : Nat :=
  if sweep.toNat % 8 = 0 then 8 else sweep.toNat % 8

def ArcSpec.startOffset (spec : ArcSpec) : Nat := spec.offsets.elim 0 Prod.fst

def ArcSpec.endOffset (spec : ArcSpec) : Nat := spec.offsets.elim 0 Prod.snd

namespace Pen

variable [IsStrictOrderedRing α]

def startAngle (spec : ArcSpec) : α := (spec.start + spec.startOffset / 256) * (tau / 8)

def sweptAngle (spec : ArcSpec) : α :=
  (spec.span + spec.endOffset / 256 - spec.startOffset / 256) * (tau / 8)

omit [IsStrictOrderedRing α] in
theorem start_angle_of_octants (radius : Nat) (sweep : UInt8) :
    startAngle (.ofOperands none radius sweep) = (startOctant sweep * (tau / 8) : α) := by
  show (startOctant sweep + (0 : Nat) / 256 : α) * (tau / 8) = _
  rw [Nat.cast_zero, zero_div, add_zero]

omit [IsStrictOrderedRing α] in
theorem swept_angle_of_octants (radius : Nat) (sweep : UInt8) :
    sweptAngle (.ofOperands none radius sweep) = (spannedOctants sweep * (tau / 8) : α) := by
  show (spannedOctants sweep + (0 : Nat) / 256 - (0 : Nat) / 256 : α) * (tau / 8) = _
  rw [Nat.cast_zero, zero_div, add_zero, sub_zero]

theorem full_span {sweep : UInt8} (full : sweep.toNat % 8 = 0) :
    (spannedOctants sweep * (tau / 8) : α) = tau := by
  rw [spannedOctants, if_pos full]
  push_cast
  ring

omit [IsStrictOrderedRing α] in
theorem octant_exact : (octant : α) = tau / 8 := by simp [octant]

omit [IsStrictOrderedRing α] in
theorem offset_angle_exact (offset : Nat) :
    (offsetAngle offset : α) = offset / 256 * (tau / 8) := by
  rw [offsetAngle, octant_exact]
  simp only [of_int_exact]
  push_cast
  ring

omit [IsStrictOrderedRing α] in
theorem draw_arc_eq (pen : Pen α) (spec : ArcSpec) :
    pen.drawArc spec = pen.sweepArc (ofInt spec.radius * pen.scale) spec.start spec.span
      (offsetAngle spec.startOffset) (offsetAngle spec.endOffset) := by
  obtain ⟨radius, start, span, offsets⟩ := spec
  cases offsets with
  | none =>
      have nothing : (offsetAngle 0 : α) = zero := by simp [offset_angle_exact]
      simp only [drawArc, ArcSpec.startOffset, ArcSpec.endOffset, Option.elim_none, nothing]
  | some offsets => rfl

/-- The center is found from the position, so the arc starts there. -/
theorem draw_arc_exact (pen : Pen α) (spec : ArcSpec) :
    ∃ center : Point α, ∃ radius : α, radius = spec.radius * pen.scale ∧
      onCircle center radius (startAngle spec) = pen.position ∧
      pen.drawArc spec =
        pen.finish (onCircle center radius (startAngle spec + sweptAngle spec))
          (.arc pen.last (onCircle center radius (startAngle spec + sweptAngle spec / 2))
            (onCircle center radius (startAngle spec + sweptAngle spec))) := by
  have start : offsetAngle spec.startOffset + ofInt spec.start * octant =
      (startAngle spec : α) := by
    rw [offset_angle_exact, octant_exact, of_int_exact, startAngle]
    ring
  have stop : ofInt (spec.span + spec.start) * octant + offsetAngle spec.endOffset =
      (startAngle spec + sweptAngle spec : α) := by
    rw [offset_angle_exact, octant_exact, of_int_exact, startAngle, sweptAngle]
    push_cast
    ring
  have middle : half (startAngle spec + (startAngle spec + sweptAngle spec)) =
      (startAngle spec + sweptAngle spec / 2 : α) := by
    rw [half_exact]
    ring
  have radius : ofInt spec.radius * pen.scale = spec.radius * pen.scale := by
    rw [of_int_exact, Int.cast_natCast]
  refine ⟨⟨pen.position.x - spec.radius * pen.scale * Elementary.cos (startAngle spec),
    pen.position.y - spec.radius * pen.scale * Elementary.sin (startAngle spec)⟩, _, rfl, ?_, ?_⟩
  · rw [onCircle, sub_add_cancel, sub_add_cancel]
  · rw [draw_arc_eq, radius]
    simp only [sweepArc]
    rw [start, stop, middle]

theorem arc_run_of_draw_arc (laws : PlaneFunctions.Circular α) (pen : Pen α) (spec : ArcSpec) :
    ∃ center control target : Point α,
      pen.drawArc spec = pen.finish target (.arc pen.last control target) ∧
      ArcRun center (spec.radius * pen.scale) (startAngle spec) (sweptAngle spec) pen.position
        control target := by
  obtain ⟨center, radius, rfl, starts, drawn⟩ := draw_arc_exact pen spec
  refine ⟨center, _, _, drawn, ?_⟩
  rw [← starts]
  exact laws.arc_run ..

/-- The way over the angle of the chord leads to the point beside its middle. -/
theorem draw_bulge_exact (laws : PlaneFunctions.Circular α) (pen : Pen α) (dx dy : α)
    (height : Int) :
    let target := pen.position.translate dx dy
    pen.drawBulge dx dy height = pen.finish target
      (if height = 0 then .line pen.last target
        else .arc pen.last (pen.position.beside dx dy (height / 127)) target) := by
  intro target
  have control : onCircle (pen.position.translate (half dx) (half dy))
      (half (hypot dx dy) * (ofInt height / ofInt 127)) (atan2 dy dx - tau / ofInt 4) =
        pen.position.beside dx dy (height / 127) := by
    have x := laws.rightwards_cos dx dy
    have y := laws.rightwards_sin dx dy
    simp only [onCircle, Point.beside, Point.translate, half_exact, of_int_exact, Int.cast_ofNat,
      Point.mk.injEq]
    constructor
    · linear_combination (height / 127 / 2 : α) * x
    · linear_combination (height / 127 / 2 : α) * y
  have flat : (ofInt height / ofInt 127 : α) == zero ↔ height = 0 := by
    rw [beq_iff_eq, zero_exact, of_int_exact, of_int_exact, div_eq_zero_iff, Int.cast_eq_zero,
      Int.cast_eq_zero]
    simp
  simp only [drawBulge]
  rw [control]
  simp only [flat]
  rfl

end Pen

namespace Point

variable [IsStrictOrderedRing α] (start : Point α) (dx dy part : α)

theorem quadrance_beside : (start.beside dx dy part).quadrance start =
    (start.beside dx dy part).quadrance (start.translate dx dy) := by
  simp only [quadrance, beside, translate, half_exact]
  ring

theorem mirrored_beside : Mirrored start (start.translate dx dy) (start.beside dx dy part)
    (start.beside dx dy (-part)) where
  across := by
    simp only [beside, translate, half_exact]
    ring
  between := by
    simp only [turn_exact, halfway, beside, translate, half_exact]
    ring

end Point

namespace Glyph

/-- The next step reads up to `more` and ends a stroke at `target`, which is the drawn one while the
pen is down. It only reads when it is to be skipped. -/
def Draws {α : Type u} [Scalar α] (setting : Setting) (pen : Pen α) (stream : CodeStream)
    (more : Bytes) (target : Point α) (drawn : Stroke α) : Prop :=
  ∃ rest : CodeStream, rest.unread = more ∧ step setting pen stream =
    if pen.skipNext then .next [] { pen with skipNext := false } rest
    else .next [if pen.down then drawn else .move target] (pen.moveTo target) rest

section

variable {β : Type u} [Scalar β] {setting : Setting} {pen : Pen β} {stream : CodeStream}
  {byte : UInt8} {more : Bytes} {target : Point β} {drawn : Stroke β}

theorem draws_of_spells (operands : Bytes)
    (spells : Instruction.Spells setting.font.kind byte operands)
    (nonzero : byte.toNat ≠ 0) (front : stream.unread = byte :: (operands ++ more))
    (plain : ∀ code, Instruction.decode setting.font.kind byte.toNat operands ≠ .subshape code)
    (performed : pen.perform setting.vertical
      (Instruction.decode setting.font.kind byte.toNat operands) =
        .ok ([(pen.finish target drawn).1], (pen.finish target drawn).2)) :
    Draws setting pen stream more target drawn := by
  refine ⟨stream.advance (1 + operands.length), ?_, ?_⟩
  · rw [CodeStream.unread_advance, front, Nat.add_comm, List.drop_succ_cons, List.drop_left]
  · unfold step
    rw [Instruction.fetch_of_spells spells front, Instruction.behind, if_neg nonzero]
    dsimp only
    rw [perform_of_plain plain, performed]
    rfl

end

variable [IsStrictOrderedRing α]

theorem draws_of_arc (laws : PlaneFunctions.Circular α) (setting : Setting) (pen : Pen α)
    {stream : CodeStream} {byte : UInt8} {more : Bytes} (operands : Bytes) {spec : ArcSpec}
    (spells : Instruction.Spells setting.font.kind byte operands) (nonzero : byte.toNat ≠ 0)
    (front : stream.unread = byte :: (operands ++ more))
    (decoded : Instruction.decode setting.font.kind byte.toNat operands = .arc spec) :
    ∃ center control target : Point α,
      Draws setting pen stream more target (.arc pen.last control target) ∧
      ArcRun center (spec.radius * pen.scale) (Pen.startAngle spec) (Pen.sweptAngle spec)
        pen.position control target := by
  obtain ⟨center, control, target, drawn, run⟩ := Pen.arc_run_of_draw_arc laws pen spec
  refine ⟨center, control, target, ?_, run⟩
  apply draws_of_spells operands spells nonzero front
  · intro code
    rw [decoded]
    exact nofun
  · rw [decoded, ← drawn]
    rfl

/-- From any pen, an arc with or without offsets leads along one circle by the angle that its operands
tell, and its control point is half of the way. A full turn comes back by way of the opposite point. A
bulge ends where its chord does, with a control point beside the middle of the chord, and straight
across the chord from it when the height is the opposite one. -/
theorem arcs_run_as_told (laws : PlaneFunctions.Circular α) (setting : Setting) (pen : Pen α)
    (stream : CodeStream) (more : Bytes) :
    (∀ size sweep : UInt8, stream.unread = 10 :: size :: sweep :: more →
      ∃ center control target : Point α,
        Draws setting pen stream more target (.arc pen.last control target) ∧
        ArcRun center (size.toNat * pen.scale) (startOctant sweep * (tau / 8))
          (spannedOctants sweep * (tau / 8)) pen.position control target ∧
        (sweep.toNat % 8 = 0 → target = pen.position ∧ center = pen.position.halfway control)) ∧
    (∀ startOffset endOffset high low sweep : UInt8,
      stream.unread = 11 :: startOffset :: endOffset :: high :: low :: sweep :: more →
      ∃ center control target : Point α,
        Draws setting pen stream more target (.arc pen.last control target) ∧
        ArcRun center ((256 * high.toNat + low.toNat : Nat) * pen.scale)
          ((startOctant sweep + startOffset.toNat / 256) * (tau / 8))
          ((spannedOctants sweep + endOffset.toNat / 256 - startOffset.toNat / 256) * (tau / 8))
          pen.position control target) ∧
    ∀ x y height : UInt8, stream.unread = 12 :: x :: y :: height :: more →
      ∀ dx dy : α, dx = signed8 x * pen.scale → dy = signed8 y * pen.scale →
      let target := pen.position.translate dx dy
      let control := pen.position.beside dx dy (signed8 height / 127)
      Draws setting pen stream more target
          (if signed8 height = 0 then .line pen.last target else .arc pen.last control target) ∧
        control.quadrance pen.position = control.quadrance target ∧
        ∀ opposite : UInt8, signed8 opposite = -signed8 height →
          Mirrored pen.position target control
            (pen.position.beside dx dy (signed8 opposite / 127)) := by
  refine ⟨?_, ?_, ?_⟩
  · intro size sweep front
    obtain ⟨center, control, target, draws, run⟩ := draws_of_arc laws setting pen
      [size, sweep] ⟨rfl, rfl⟩ (by decide) front rfl
    rw [Pen.start_angle_of_octants, Pen.swept_angle_of_octants] at run
    refine ⟨center, control, target, draws, run, ?_⟩
    intro full
    rw [Pen.full_span full] at run
    exact laws.full_turn run
  · intro startOffset endOffset high low sweep front
    exact draws_of_arc laws setting pen [startOffset, endOffset, high, low, sweep] ⟨rfl, rfl⟩
      (by decide) front rfl
  · intro x y height front dx dy across upwards target control
    refine ⟨?_, Point.quadrance_beside _ dx dy _, ?_⟩
    · apply draws_of_spells [x, y, height] ⟨rfl, rfl⟩ (by decide) front
      · exact nofun
      · have drawn := Pen.draw_bulge_exact laws pen dx dy (signed8 height)
        rw [← drawn, across, upwards]
        rfl
    · intro opposite negated
      rw [negated, Int.cast_neg, neg_div]
      exact Point.mirrored_beside _ dx dy _

open scoped RealPlane in
/-- A full circle to the left of its start, a part of a circle, and two bulges as high as half of their
chord. -/
theorem circle_and_half_circles :
    let setting : Setting := { font := Font.empty }
    let pen : Pen ℝ := Pen.ready ⟨0, 0⟩ 1
    Draws setting pen (CodeStream.start [10, 5, 0]) [] ⟨0, 0⟩ (.arc ⟨0, 0⟩ ⟨-10, 0⟩ ⟨0, 0⟩) ∧
    (∃ center control target : Point ℝ,
      Draws setting pen (CodeStream.start [11, 64, 128, 1, 44, 162, 0]) [0] target
        (.arc ⟨0, 0⟩ control target) ∧
      center.quadrance control = 300 ^ 2 ∧ center.quadrance target = 300 ^ 2) ∧
    Draws setting pen (CodeStream.start [12, 4, 0, 127]) [] ⟨4, 0⟩
      (.arc ⟨0, 0⟩ ⟨2, -2⟩ ⟨4, 0⟩) ∧
    Mirrored (⟨0, 0⟩ : Point ℝ) ⟨4, 0⟩ ⟨2, -2⟩ ⟨2, 2⟩ := by
  intro setting pen
  let laws := PlaneFunctions.euclidean_circular
  refine ⟨?_, ?_, ?_⟩
  · obtain ⟨center, control, target, draws, run, full⟩ :=
      (arcs_run_as_told laws setting pen (CodeStream.start [10, 5, 0]) []).1 5 0 rfl
    obtain ⟨rfl, middle⟩ := full rfl
    have there : center.x = -5 ∧ center.y = 0 := by
      have starts := run.starts
      rw [on_circle_exact, show startOctant 0 = 0 from rfl, Int.cast_zero, zero_mul, Real.cos_zero,
        Real.sin_zero, show UInt8.toNat 5 = 5 from rfl, Point.mk.injEq] at starts
      norm_num [pen, Pen.ready] at starts
      exact ⟨by linarith [starts.1], starts.2⟩
    have opposite : control = ⟨-10, 0⟩ := by
      norm_num [middle, pen, Pen.ready, Point.halfway] at there
      cases control
      rw [Point.mk.injEq]
      exact ⟨by linarith [there.1], there.2⟩
    rwa [opposite] at draws
  · obtain ⟨center, control, target, draws, run⟩ :=
      (arcs_run_as_told laws setting pen (CodeStream.start [11, 64, 128, 1, 44, 162, 0]) [0]).2.1
        64 128 1 44 162 rfl
    have ⟨_, first, second⟩ := run.equidistant
    rw [show 256 * UInt8.toNat 1 + UInt8.toNat 44 = 300 from rfl] at first second
    norm_num [pen, Pen.ready] at first second
    norm_num
    exact ⟨center, control, target, draws, first, second⟩
  · have across : (4 : ℝ) = signed8 4 * pen.scale := by
      norm_num [pen, Pen.ready, show signed8 4 = 4 from rfl]
    have level : (0 : ℝ) = signed8 0 * pen.scale := by
      norm_num [show signed8 0 = 0 from rfl]
    have ⟨draws, _, mirrored⟩ :=
      (arcs_run_as_told laws setting pen (CodeStream.start [12, 4, 0, 127]) []).2.2 4 0 127 rfl
        4 0 across level
    have image := mirrored 129 rfl
    norm_num [pen, Pen.ready, Point.beside, Point.translate, show signed8 127 = 127 from rfl,
      show signed8 129 = -127 from rfl] at draws image
    exact ⟨draws, image⟩

end Glyph

end ShapeFont
