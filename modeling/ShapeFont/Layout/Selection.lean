import ShapeFont.Font
import ShapeFont.Text.Fallback
import ShapeFont.Text.Utf8

/-!
# The glyphs of a line of text

A text is cut into lines at its line feeds. Each code point of a line selects the glyph of its
number; where the font has none, its plain spelling, if it has one, selects the glyphs of those
letters. What selects no glyph is passed over.
-/

namespace ShapeFont.Layout

/-- The lines of a text. A line feed at the end opens one more, empty line. -/
def splitLines (text : Bytes) : List Bytes := text.splitOn 10

/-- The glyph numbers that a code point asks for. -/
def spell (font : Font) (code : Nat) : List Nat :=
  if font.hasGlyph code then [code]
  else match Fallback.spelling? code with
    | some spelling => Fallback.letters spelling
    | none => [code]

/-- The numbers of the glyphs that a line draws, in order. -/
def selectCodes (font : Font) (line : Bytes) : List Nat :=
  ((Utf8.codes line).flatMap (spell font)).filter font.hasGlyph

/-- The programs of the glyphs that a line draws, in order. -/
def select (font : Font) (line : Bytes) : List Bytes :=
  (selectCodes font line).filterMap font.glyph?

end ShapeFont.Layout
