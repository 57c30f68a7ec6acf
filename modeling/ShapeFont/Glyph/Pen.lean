import ShapeFont.Glyph.Instruction
import ShapeFont.Stroke

/-!
# The pen

The pen has a position, the end of the last stroke, and a scale from design units to output units.
Every movement ends a stroke: a drawn one while the pen is down, a move while it is up. Positions
can be saved, at most three at a time.
-/

namespace ShapeFont

universe u

structure Pen (α : Type u) where
  position : Point α
  /-- Where the next stroke starts. -/
  last : Point α
  down : Bool := true
  scale : α
  /-- The next instruction is read but not carried out. -/
  skipNext : Bool := false
  /-- Saved positions, the latest first. -/
  saved : List (Point α) := []
  deriving Repr, DecidableEq

namespace Pen

def savedLimit : Nat := 3

variable {α : Type u}

def ready (point : Point α) (scale : α) : Pen α := { position := point, last := point, scale }

/-- Position and last point carry over from glyph to glyph, which makes the advance; all else
starts afresh. -/
def beginGlyph (pen : Pen α) (scale : α) : Pen α :=
  { position := pen.position, last := pen.last, scale }

def moveTo (pen : Pen α) (point : Point α) : Pen α := { pen with position := point, last := point }

/-- Ends a stroke at `target`: `drawn` if the pen is down, otherwise a move. -/
def finish (pen : Pen α) (target : Point α) (drawn : Stroke α) : Stroke α × Pen α :=
  (if pen.down then drawn else .move target, pen.moveTo target)

variable [Scalar α]

def displace (pen : Pen α) (dx dy : α) : Stroke α × Pen α :=
  let target := pen.position.translate dx dy
  pen.finish target (.line pen.last target)

def onCircle (center : Point α) (radius angle : α) : Point α :=
  ⟨center.x + radius * Elementary.cos angle, center.y + radius * Elementary.sin angle⟩

/-- The pen stands on the circle at the start angle, which fixes the center. -/
def sweepArc (pen : Pen α) (radius : α) (start : Int) (span : Nat) (startOffset endOffset : α) :
    Stroke α × Pen α :=
  let startAngle := startOffset + ofInt start * octant
  let endAngle := ofInt (span + start) * octant + endOffset
  let middleAngle := half (startAngle + endAngle)
  let center : Point α :=
    ⟨pen.position.x - radius * Elementary.cos startAngle,
      pen.position.y - radius * Elementary.sin startAngle⟩
  let target := onCircle center radius endAngle
  pen.finish target (.arc pen.last (onCircle center radius middleAngle) target)

def offsetAngle (offset : Nat) : α := octant * ofInt offset / ofInt 256

def drawArc (pen : Pen α) (spec : ArcSpec) : Stroke α × Pen α :=
  let radius := ofInt spec.radius * pen.scale
  match spec.offsets with
  | none => pen.sweepArc radius spec.start spec.span zero zero
  | some (first, last) =>
      pen.sweepArc radius spec.start spec.span (offsetAngle first) (offsetAngle last)

theorem draw_arc_sweeps (spec : ArcSpec) : ∃ first last : α, ∀ pen : Pen α,
    pen.drawArc spec =
      pen.sweepArc (ofInt spec.radius * pen.scale) spec.start spec.span first last := by
  obtain ⟨radius, start, span, offsets⟩ := spec
  cases offsets with
  | none => exact ⟨zero, zero, fun _ => rfl⟩
  | some offsets => exact ⟨offsetAngle offsets.1, offsetAngle offsets.2, fun _ => rfl⟩

/-- The control point lies beside the middle of the chord, a quarter turn to the right of its
direction. The height is not scaled, only the chord. No height makes a straight line. -/
def drawBulge (pen : Pen α) (dx dy : α) (height : Int) : Stroke α × Pen α :=
  let reach := half (hypot dx dy)
  let bulge := ofInt height / ofInt 127
  let middle := pen.position.translate (half dx) (half dy)
  let angle := atan2 dy dx - tau / ofInt 4
  let control := onCircle middle (reach * bulge) angle
  let target := pen.position.translate dx dy
  pen.finish target
    (if bulge == zero then .line pen.last target else .arc pen.last control target)

def drawLeg (pen : Pen α) : Leg → Stroke α × Pen α
  | .straight dx dy => pen.displace (ofInt dx * pen.scale) (ofInt dy * pen.scale)
  | .bulge dx dy height => pen.drawBulge (ofInt dx * pen.scale) (ofInt dy * pen.scale) height

def drawLegs (pen : Pen α) (legs : List Leg) : List (Stroke α) × Pen α :=
  let step := fun (state : Array (Stroke α) × Pen α) (leg : Leg) =>
    let (stroke, pen) := state.2.drawLeg leg
    (state.1.push stroke, pen)
  let (strokes, pen) := legs.foldl step (#[], pen)
  (strokes.toList, pen)

@[simp] theorem draw_legs_nil (pen : Pen α) : pen.drawLegs [] = ([], pen) := rfl

theorem draw_legs_cons (pen : Pen α) (leg : Leg) (legs : List Leg) :
    pen.drawLegs (leg :: legs) =
      ((pen.drawLeg leg).1 :: ((pen.drawLeg leg).2.drawLegs legs).1,
        ((pen.drawLeg leg).2.drawLegs legs).2) := by
  have shift (done : Array (Stroke α)) (pen : Pen α) :
      legs.foldl (fun state leg => (state.1.push (state.2.drawLeg leg).1, (state.2.drawLeg leg).2))
          (done, pen) =
        (done ++ (pen.drawLegs legs).1, (pen.drawLegs legs).2) := by
    unfold drawLegs
    induction legs generalizing done pen with
    | nil => simp
    | cons leg legs ih =>
        simp only [List.foldl_cons]
        rw [ih (done.push _), ih (#[].push _)]
        simp
  show (_, _) = _
  simp only [drawLegs]
  rw [shift]
  simp [drawLegs]

theorem draw_legs_append (pen : Pen α) (first second : List Leg) :
    pen.drawLegs (first ++ second) =
      ((pen.drawLegs first).1 ++ ((pen.drawLegs first).2.drawLegs second).1,
        ((pen.drawLegs first).2.drawLegs second).2) := by
  induction first generalizing pen with
  | nil => rfl
  | cons leg first ih =>
      rw [List.cons_append, draw_legs_cons, draw_legs_cons, ih]
      rfl

/-- The sixteen directions in halves of a unit. Diagonals end on the unit square. -/
def directions : List (Int × Int) :=
  [(2, 0), (2, 1), (2, 2), (1, 2), (0, 2), (-1, 2), (-2, 2), (-2, 1),
    (-2, 0), (-2, -1), (-2, -2), (-1, -2), (0, -2), (1, -2), (2, -2), (2, -1)]

def direction (index : Nat) : Int × Int := directions.getD index (0, 0)

def drawVector (pen : Pen α) (length index : Nat) : Stroke α × Pen α :=
  let (dx, dy) := direction index
  pen.displace (half (ofInt dx) * ofInt length * pen.scale)
    (half (ofInt dy) * ofInt length * pen.scale)

/-- Going back to a saved position is a move, even with the pen down. -/
def restore (pen : Pen α) : Except GlyphFault (List (Stroke α) × Pen α) :=
  match pen.saved with
  | [] => .error .stackUnderflow
  | point :: saved => .ok ([.move point], { pen.moveTo point with saved })

def save (pen : Pen α) : Except GlyphFault (List (Stroke α) × Pen α) :=
  if pen.saved.length < savedLimit then
    .ok ([], { pen with saved := pen.position :: pen.saved })
  else .error .stackOverflow

/-- Carries out an instruction. `vertical` says that instructions for vertical text are wanted.
Calls of subshapes change the code stream and leave the pen alone. -/
def perform (pen : Pen α) (vertical : Bool) :
    Instruction → Except GlyphFault (List (Stroke α) × Pen α)
  | .vector length index =>
      let (stroke, pen) := pen.drawVector length index
      .ok ([stroke], pen)
  | .endOfShape => .ok ([.newPath], pen)
  | .setPen down => .ok ([], { pen with down })
  | .divideScale factor => .ok ([], { pen with scale := pen.scale / ofInt factor })
  | .multiplyScale factor => .ok ([], { pen with scale := pen.scale * ofInt factor })
  | .savePosition => pen.save
  | .restorePosition => pen.restore
  | .travel legs => .ok (pen.drawLegs legs)
  | .arc spec =>
      let (stroke, pen) := pen.drawArc spec
      .ok ([stroke], pen)
  | .verticalOnly => .ok ([], { pen with skipNext := !vertical })
  | .subshape _ | .unassigned => .ok ([], pen)

end Pen

end ShapeFont
