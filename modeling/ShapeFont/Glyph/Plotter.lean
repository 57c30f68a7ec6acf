import ShapeFont.Glyph.PositionStack
import ShapeFont.Glyph.Run

/-!
# Opcode by opcode

A plotter is a pen as it lies in memory, with slots for the saved positions. `turn` reads an opcode and
leaves the rest to the routine for it, which reads the operands and carries them out as it goes. There is
no decoder that could skip an instruction: every routine asks by itself whether the order to skip stands,
most of them behind their operands, and the lists of displacements at every member.
-/

namespace ShapeFont

universe u

structure Plotter (α : Type u) where
  position : Point α
  last : Point α
  down : Bool := true
  scale : α
  skipNext : Bool := false
  saved : PositionStack α
  deriving Repr, DecidableEq

/-- What a turn comes to. -/
inductive Plotter.Turn (α : Type u) where
  | finished
  | faulty (drawn : List (Stroke α)) (plotter : Plotter α) (fault : GlyphFault)
  | next (drawn : List (Stroke α)) (plotter : Plotter α) (rest : CodeStream)
  deriving Repr, DecidableEq

namespace Plotter

open CodeStream Instruction

variable {α : Type u}

def toPen (plotter : Plotter α) : Pen α :=
  { position := plotter.position, last := plotter.last, down := plotter.down
    scale := plotter.scale, skipNext := plotter.skipNext, saved := plotter.saved.toList }

def ready (point : Point α) (scale : α) : Plotter α :=
  { position := point, last := point, scale, saved := .empty point }

def beginGlyph (plotter : Plotter α) (scale : α) : Plotter α :=
  { plotter with down := true, scale, skipNext := false, saved := plotter.saved.clear }

def moveTo (plotter : Plotter α) (point : Point α) : Plotter α :=
  { plotter with position := point, last := point }

theorem to_pen_begin_glyph (plotter : Plotter α) (scale : α) :
    (plotter.beginGlyph scale).toPen = plotter.toPen.beginGlyph scale := rfl

/-- Goes on, unless the order to skip stands: it is then taken back, and nothing else is done. -/
def unlessSkipped (plotter : Plotter α) (stream : CodeStream) (carried : Turn α) : Turn α :=
  if plotter.skipNext then .next [] { plotter with skipNext := false } stream else carried

/-- Goes on behind the operands, unless they are cut or the order to skip stands. -/
def afterOperands {Item : Type} (plotter : Plotter α) (cut : GlyphFault)
    (read : Option (Item × CodeStream)) (carry : Item → CodeStream → Turn α) : Turn α :=
  match read with
  | none => .faulty [] plotter cut
  | some (item, rest) => plotter.unlessSkipped rest (carry item rest)

/-- A movement changes the position and the last point. -/
def moved (plotter : Plotter α) (movement : Pen α → Stroke α × Pen α) : Stroke α × Plotter α :=
  let (stroke, pen) := movement plotter.toPen
  (stroke, { plotter with position := pen.position, last := pen.last })

def draw (plotter : Plotter α) (movement : Pen α → Stroke α × Pen α) (stream : CodeStream) :
    Turn α :=
  let (stroke, plotter) := plotter.moved movement
  .next [stroke] plotter stream

/-! ### The routines -/

section

variable [Scalar α] (setting : Setting) (plotter : Plotter α) (stream : CodeStream)

def vector (length direction : Nat) : Turn α :=
  plotter.unlessSkipped stream (plotter.draw (·.drawVector length direction) stream)

/-- What is left of the program goes even if the end of the shape is skipped. -/
def endShape : Turn α :=
  let rest := stream.discardThroughZero
  plotter.unlessSkipped rest (.next [.newPath] plotter rest)

def setDown (down : Bool) : Turn α :=
  plotter.unlessSkipped stream (.next [] { plotter with down } stream)

/-- The factor is looked at before the order to skip. -/
def scaleBy (rescale : α → α → α) (zeroFault : GlyphFault) : Turn α :=
  match stream.next? with
  | none => .faulty [] plotter .operandCut
  | some (factor, rest) =>
      if factor = 0 then .faulty [] plotter zeroFault
      else
        plotter.unlessSkipped rest
          (.next [] { plotter with scale := rescale plotter.scale (ofInt factor.toNat) } rest)

def save : Turn α :=
  plotter.unlessSkipped stream <|
    match plotter.saved.push? plotter.position with
    | none => .faulty [] plotter .stackOverflow
    | some saved => .next [] { plotter with saved } stream

def restore : Turn α :=
  plotter.unlessSkipped stream <|
    match plotter.saved.pop? with
    | none => .faulty [] plotter .stackUnderflow
    | some (point, saved) => .next [.move point] { plotter.moveTo point with saved } stream

/-- The glyph is looked up behind the order to skip, so that a skipped number may name none. -/
def callSubshape : Turn α :=
  plotter.afterOperands .subshapeKeyCut (readKey? setting.font.kind stream) fun code rest =>
    match setting.font.glyph? code with
    | none => .faulty [] plotter .missingSubshape
    | some program =>
        match rest.call? program.wrapped with
        | none => .faulty [] plotter .nestingLimit
        | some called => .next [] plotter called

def travel (read : Option (Leg × CodeStream)) : Turn α :=
  plotter.afterOperands .operandCut read fun leg => plotter.draw (·.drawLeg leg)

/-- The order to skip stands until the list has ended, and where it is cut it still does. -/
def travelList (bulged : Bool) (drawn : Array (Stroke α)) (plotter : Plotter α)
    (stream : CodeStream) : Turn α :=
  match _member : readListed? bulged stream with
  | none => .faulty drawn.toList plotter .operandCut
  | some (none, rest) => .next drawn.toList { plotter with skipNext := false } rest
  | some (some leg, rest) =>
      if plotter.skipNext then travelList bulged drawn plotter rest
      else
        let (stroke, plotter) := plotter.moved (·.drawLeg leg)
        travelList bulged (drawn.push stroke) plotter rest
termination_by stream.unread.length
decreasing_by all_goals exact (follows_of_read_listed _member).shorter

theorem travel_list_unfold (bulged : Bool) (drawn : Array (Stroke α)) (plotter : Plotter α)
    (stream : CodeStream) :
    travelList bulged drawn plotter stream = match readListed? bulged stream with
      | none => .faulty drawn.toList plotter .operandCut
      | some (none, rest) => .next drawn.toList { plotter with skipNext := false } rest
      | some (some leg, rest) =>
          if plotter.skipNext then travelList bulged drawn plotter rest
          else travelList bulged (drawn.push (plotter.moved (·.drawLeg leg)).1)
            (plotter.moved (·.drawLeg leg)).2 rest := by
  rw [travelList]
  split <;> simp_all

def arc (read : Option (ArcSpec × CodeStream)) : Turn α :=
  plotter.afterOperands .operandCut read fun spec => plotter.draw (·.drawArc spec)

def skipUnlessVertical : Turn α :=
  plotter.unlessSkipped stream <|
    if setting.vertical then .next [] plotter stream
    else .next [] { plotter with skipNext := true } stream

def ignore : Turn α := .next [] { plotter with skipNext := false } stream

/-- The routine for an opcode, on the stream behind it. -/
def routine (opcode : Nat) : Turn α :=
  match opcode with
  | 0 => plotter.endShape stream
  | 1 => plotter.setDown stream true
  | 2 => plotter.setDown stream false
  | 3 => plotter.scaleBy stream (· / ·) .divideByZero
  | 4 => plotter.scaleBy stream (· * ·) .multiplyByZero
  | 5 => plotter.save stream
  | 6 => plotter.restore stream
  | 7 => plotter.callSubshape setting stream
  | 8 => plotter.travel (readStraight? stream)
  | 9 => travelList false #[] plotter stream
  | 10 => plotter.arc (readOctantArc? stream)
  | 11 => plotter.arc (readFractionalArc? stream)
  | 12 => plotter.travel (readBulge? stream)
  | 13 => travelList true #[] plotter stream
  | 14 => plotter.skipUnlessVertical setting stream
  | _ => plotter.ignore stream

def turn : Turn α :=
  match stream.next? with
  | none => .finished
  | some (byte, rest) =>
      if 16 ≤ byte.toNat then plotter.vector rest (byte.toNat / 16) (byte.toNat % 16)
      else plotter.routine setting rest byte.toNat

end

end Plotter

end ShapeFont
