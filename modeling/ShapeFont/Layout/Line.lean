import ShapeFont.Glyph.Run
import ShapeFont.Stroke.Path

/-!
# Drawing one line

The glyphs of a line are drawn one after the other, each from where the pen was left by the one
before. The first of them takes the pen from the line above, moved to the start of its own line.
-/

namespace ShapeFont

universe u v

inductive Align where
  | start
  /-- The block of lines is centered on x = 0. -/
  | middle
  /-- Every line ends at x = 0. -/
  | finish
  deriving Repr, DecidableEq

structure Options (α : Type u) where
  horizontal : Bool := true
  /-- Output units for the height of the font above the baseline. -/
  fontSize : α
  /-- Multiplies the advance of every glyph. -/
  hSpacing : α
  /-- Multiplies the distance of the lines. -/
  vSpacing : α
  align : Align := .start
  deriving Repr, DecidableEq

structure Typesetting (α : Type u) where
  font : Font
  options : Options α

variable {α : Type u} [Scalar α]

def Options.standard : Options α :=
  { fontSize := ofInt 12, hSpacing := ofInt 1, vSpacing := ofInt 11 / ofInt 10 }

namespace Typesetting

def setting (job : Typesetting α) : Setting :=
  { font := job.font, horizontal := job.options.horizontal }

/-- Output units for one design unit. A font without a height above the baseline counts as one
unit high. -/
def baseScale (job : Typesetting α) : α :=
  job.options.fontSize / ofInt (if 0 < job.font.above then job.font.above else 1)

/-- The height of a line in design units. -/
def lineHeight (job : Typesetting α) : α := ofInt (job.font.above + job.font.below)

end Typesetting

namespace Layout

structure LineState (α : Type u) where
  pen : Pen α
  /-- The furthest right that the pen was after a glyph, or the start of the line. -/
  maxX : α
  events : Array (Event α) := #[]

/-- Moves the pen on by the part of its advance that the spacing adds. A spacing of one leaves the
pen alone. -/
def advance (spacing startX : α) (pen : Pen α) : Pen α :=
  if spacing == ofInt 1 then pen
  else
    let shift := (spacing - ofInt 1) * (pen.last.x - startX)
    { pen with
      last := ⟨pen.last.x + shift, pen.last.y⟩
      position := ⟨pen.position.x + shift, pen.position.y⟩ }

/-- Draws one glyph. A fault keeps the strokes drawn before it, and the glyph has no end. -/
def drawGlyph (job : Typesetting α) (state : LineState α) (program : Bytes) :
    LineState α × Option GlyphFault :=
  let outcome := Glyph.execute job.setting program (state.pen.beginGlyph job.baseScale)
  let drawn := state.events ++ outcome.strokes.map Event.stroke
  match outcome.fault with
  | some fault => ({ state with pen := outcome.pen, events := drawn }, some fault)
  | none =>
      let pen := advance job.options.hSpacing state.pen.last.x outcome.pen
      let maxX := if state.maxX < pen.position.x then pen.position.x else state.maxX
      ({ pen, maxX, events := drawn.push .characterEnd }, none)

/-- Goes through the items in order, up to the first fault. -/
def untilFault {σ : Type u} {ι : Type v} (act : σ → ι → σ × Option GlyphFault) :
    σ → List ι → σ × Option GlyphFault
  | state, [] => (state, none)
  | state, item :: items =>
      match act state item with
      | (state, some fault) => (state, some fault)
      | (state, none) => untilFault act state items

def drawGlyphs (job : Typesetting α) : LineState α → List Bytes → LineState α × Option GlyphFault :=
  untilFault (drawGlyph job)

/-- Draws a line from `start` on, with the pen that the line above left. -/
def drawLine (job : Typesetting α) (pen : Pen α) (start : Point α) (programs : List Bytes) :
    LineState α × Option GlyphFault :=
  drawGlyphs job { pen := pen.moveTo start, maxX := start.x } programs

end Layout

end ShapeFont
