import ShapeFont.Stroke

/-!
# SVG path commands

Strokes become the commands of an SVG path, with y downwards. A move is put in only where the
current point is not the start of the next stroke already. Arcs become elliptical arc commands; an
arc that ends where it starts is a full circle and is written as two halves.
-/

namespace ShapeFont.Svg

universe u

/-- Path commands with absolute coordinates. Both radii of an arc are equal and unrotated. -/
inductive Command (α : Type u) where
  | moveTo (target : Point α)
  | lineTo (target : Point α)
  | arcTo (radius : α) (large sweep : Bool) (target : Point α)
  deriving Repr, DecidableEq

variable {α : Type u} [Scalar α]

/-- The control point of a closed arc is the far end of the diameter. -/
def closes (start control target : Point α) : Bool :=
  let reach := start.distance control
  zero < reach && start.distance target ≤ tolerance * reach

def fullCircle (start control target : Point α) : List (Command α) :=
  let radius := half (start.distance control)
  [.arcTo radius false false control.flip, .arcTo radius false false target.flip]

/-- Positive when the way over the control point turns to the left there. -/
def bend (start control target : Point α) : α :=
  (control.x - start.x) * (target.y - control.y) - (control.y - start.y) * (target.x - control.x)

/-- An arc takes more than half a turn when its center is on the control point's side of the
chord. With y downwards a turn to the left sweeps against the positive angle. -/
def arcCommands (start control target : Point α) : List (Command α) :=
  if closes start control target then fullCircle start control target
  else match Circle.through? start control target with
    | none => [.lineTo target.flip]
    | some circle =>
        let large : Bool :=
          zero < Point.turn start target circle.center * Point.turn start target control
        let leftward : Bool := zero < bend start control target
        [.arcTo circle.radius large (!leftward) target.flip]

/-- Takes the current point to the start of a stroke. -/
def approach (current : Option (Point α)) (start : Point α) : List (Command α) :=
  match current with
  | none => [.moveTo start.flip]
  | some point => if point.agrees start then [] else [.moveTo start.flip]

def strokeCommands (current : Option (Point α)) : Stroke α → List (Command α)
  | .newPath => []
  | .move target => [.moveTo target.flip]
  | .line start target => approach current start ++ [.lineTo target.flip]
  | .arc start control target => approach current start ++ arcCommands start control target

/-- The commands of a path, behind those in `done`. A break in the path forgets the current
point. -/
def pathCommands (done : Array (Command α)) (current : Option (Point α)) :
    List (Stroke α) → List (Command α)
  | [] => done.toList
  | stroke :: strokes => pathCommands (done ++ strokeCommands current stroke) stroke.target? strokes

def commands (strokes : List (Stroke α)) : List (Command α) := pathCommands #[] none strokes

end ShapeFont.Svg
