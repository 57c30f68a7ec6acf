import ShapeFont.Stroke.Path

/-!
# Recordings

A recording keeps a segment for every stroke, with room for the points of all kinds. Scaling changes
points that the kind does not use as well. The extent is measured in bounds that the caller holds:
what they hold counts for nothing once the first point has come, and stays where none comes. Seen as a
path, a recording is what was drawn.
-/

namespace ShapeFont

universe u

structure Segment (α : Type u) where
  kind : StrokeKind
  start : Point α
  control : Point α
  target : Point α
  deriving Repr, DecidableEq

structure Recording (α : Type u) where
  segments : List (Segment α) := []
  characters : Nat := 0
  deriving Repr, DecidableEq

/-- The bounds that a measurement holds, and whether a point has come already. -/
structure Measurement (α : Type u) where
  started : Bool := false
  held : Bounds α
  deriving Repr, DecidableEq

namespace Segment

variable {α : Type u}

def stroke (segment : Segment α) : Stroke α :=
  match segment.kind with
  | .newPath => .newPath
  | .move => .move segment.target
  | .line => .line segment.start segment.target
  | .arc => .arc segment.start segment.control segment.target

variable [Scalar α]

/-- Points that the kind does not use are at the origin to begin with. -/
def ofStroke : Stroke α → Segment α
  | .newPath => ⟨.newPath, Point.origin, Point.origin, Point.origin⟩
  | .move target => ⟨.move, Point.origin, Point.origin, target⟩
  | .line start target => ⟨.line, start, Point.origin, target⟩
  | .arc start control target => ⟨.arc, start, control, target⟩

def scale (segment : Segment α) (sx sy : α) : Segment α :=
  { segment with
    start := segment.start.scale sx sy
    control := segment.control.scale sx sy
    target := segment.target.scale sx sy }

def translate (segment : Segment α) (tx ty : α) : Segment α :=
  if segment.kind = .newPath then segment
  else
    { segment with
      start := segment.start.translate tx ty
      control := segment.control.translate tx ty
      target := segment.target.translate tx ty }

end Segment

namespace Measurement

variable {α : Type u} [Scalar α]

def track (measurement : Measurement α) (point : Point α) : Measurement α :=
  let held := measurement.held
  { started := true
    held :=
      { lower :=
          ⟨if !measurement.started || point.x < held.lower.x then point.x else held.lower.x,
            if !measurement.started || point.y < held.lower.y then point.y else held.lower.y⟩
        upper :=
          ⟨if !measurement.started || held.upper.x < point.x then point.x else held.upper.x,
            if !measurement.started || held.upper.y < point.y then point.y else held.upper.y⟩ } }

/-- Only moves, lines and arcs have ends. The start of a move is not one. -/
def trackSegment (measurement : Measurement α) (segment : Segment α) : Measurement α :=
  match segment.kind with
  | .newPath => measurement
  | .move => measurement.track segment.target
  | .line | .arc => (measurement.track segment.start).track segment.target

end Measurement

namespace Recording

variable {α : Type u}

def empty : Recording α := {}

/-- What was drawn. -/
def path (recording : Recording α) : Path α :=
  { strokes := recording.segments.map Segment.stroke, characters := recording.characters }

def count (recording : Recording α) (kind : StrokeKind) : Nat :=
  recording.segments.countP fun segment => segment.kind == kind

variable [Scalar α]

def append (recording : Recording α) (strokes : List (Stroke α)) : Recording α :=
  { recording with segments := recording.segments ++ strokes.map Segment.ofStroke }

def record (recording : Recording α) (events : List (Event α)) : Recording α :=
  { segments := recording.segments ++ (Event.strokes events).map Segment.ofStroke
    characters := recording.characters + (Event.characterEnds events).length }

def scale (recording : Recording α) (sx sy : α) : Recording α :=
  { recording with segments := recording.segments.map fun segment => segment.scale sx sy }

def translate (recording : Recording α) (tx ty : α) : Recording α :=
  { recording with segments := recording.segments.map fun segment => segment.translate tx ty }

/-- Whether there is an extent, and the bounds that the caller has afterwards. -/
def measure (recording : Recording α) (held : Bounds α) : Bool × Bounds α :=
  let last := recording.segments.foldl Measurement.trackSegment { held }
  (last.started, last.held)

end Recording

end ShapeFont
