import ShapeFont.Layout.Line
import ShapeFont.Layout.Selection

/-!
# Drawing a text of several lines

Lines are drawn from top to bottom. Under `middle` and `finish` the whole text is measured first
from x = 0, which tells where each line has to start; a fault found by measuring leaves nothing
drawn.
-/

namespace ShapeFont

universe u

structure LineInfo (α : Type u) where
  start : Point α
  maxX : α
  width : α
  height : α
  deriving Repr, DecidableEq

/-- What drawing a text gives. A fault leaves no line infos. -/
structure Rendering (α : Type u) where
  events : List (Event α) := []
  lines : List (LineInfo α) := []
  fault : Option GlyphFault := none
  deriving Repr, DecidableEq

namespace Layout

variable {α : Type u} [Scalar α]

structure Row (α : Type u) where
  startX : α
  programs : List Bytes
  deriving Repr, DecidableEq

/-- How far the drawing of a text has come. -/
structure BlockState (α : Type u) where
  pen : Pen α
  /-- The baseline of the next row in design units. -/
  offset : α
  events : Array (Event α) := #[]
  lines : Array (LineInfo α) := #[]

def BlockState.initial : BlockState α := { pen := Pen.ready Point.origin (ofInt 1), offset := zero }

def BlockState.rowStart (job : Typesetting α) (state : BlockState α) (startX : α) : Point α :=
  ⟨startX, state.offset * job.baseScale⟩

def drawRow (job : Typesetting α) (state : BlockState α) (row : Row α) :
    BlockState α × Option GlyphFault :=
  let start := state.rowStart job row.startX
  match drawLine job state.pen start row.programs with
  | (line, some fault) =>
      ({ state with pen := line.pen, events := state.events ++ line.events }, some fault)
  | (line, none) =>
      let info : LineInfo α :=
        { start, maxX := line.maxX, width := line.maxX - row.startX
          height := job.baseScale * job.lineHeight }
      ({ pen := line.pen
         offset := state.offset - job.options.vSpacing * job.lineHeight
         events := state.events ++ line.events
         lines := state.lines.push info }, none)

def drawRows (job : Typesetting α) : BlockState α → List (Row α) → BlockState α × Option GlyphFault :=
  untilFault (drawRow job)

/-- Draws the rows below each other. -/
def draw (job : Typesetting α) (rows : List (Row α)) : Rendering α :=
  match drawRows job .initial rows with
  | (state, some fault) => { events := state.events.toList, fault := some fault }
  | (state, none) => { events := state.events.toList, lines := state.lines.toList }

def widest : List (LineInfo α) → α
  | [] => zero
  | line :: lines =>
      lines.foldl (fun widest line => if widest < line.maxX then line.maxX else widest) line.maxX

/-- Where a line has to start that ended at `maxX` when it was measured. -/
def alignedStart (align : Align) (widest maxX : α) : α :=
  match align with
  | .start => zero
  | .middle => half (-widest) + half (widest - maxX)
  | .finish => -maxX

def alignRows (align : Align) (lines : List (LineInfo α)) (texts : List (List Bytes)) :
    List (Row α) :=
  List.zipWith (fun line programs => ⟨alignedStart align (widest lines) line.maxX, programs⟩)
    lines texts

def plainRows (texts : List (List Bytes)) : List (Row α) := texts.map fun programs => ⟨zero, programs⟩

/-- Draws a text. The empty text has no lines at all. -/
def render (job : Typesetting α) (text : Bytes) : Rendering α :=
  if text.isEmpty then {}
  else
    let texts := (splitLines text).map (select job.font)
    if job.options.align = .start then draw job (plainRows texts)
    else
      let measured := draw job (plainRows texts)
      match measured.fault with
      | some fault => { fault := some fault }
      | none => draw job (alignRows job.options.align measured.lines texts)

end Layout

end ShapeFont
