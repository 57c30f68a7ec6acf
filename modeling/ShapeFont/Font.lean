import Std.Data.TreeMap
import ShapeFont.Bytes

/-!
# Shape fonts

A font is a table of glyph programs under 16-bit numbers, with the metrics that layout needs. The
three kinds of file differ in their tables and in how a program names another glyph; the programs
are otherwise the same.
-/

namespace ShapeFont

inductive FontKind where
  | shapes
  | bigFont
  | unifont
  deriving Repr, DecidableEq

def FontKind.word : FontKind → String
  | shapes => "shapes"
  | bigFont => "bigfont"
  | unifont => "unifont"

def FontKind.ofWord? (word : Bytes) : Option FontKind :=
  [FontKind.shapes, .bigFont, .unifont].find? fun kind => word == Bytes.ofString kind.word

structure Font where
  format : Bytes := []
  kind : FontKind := .shapes
  version : Bytes := []
  /-- Empty for bigfonts and for shapes files without a font info record. -/
  name : Bytes := []
  /-- Design units above and below the baseline. -/
  above : Int := 0
  below : Int := 0
  /-- Zero for horizontal text only, two where programs can also be set vertically. -/
  modes : Int := 0
  encoding : Int := 0
  embeddable : Int := 0
  /-- A font info record was present. -/
  hasMetrics : Bool := false
  glyphs : Std.TreeMap Nat Bytes := {}
  /-- Names of shapes, by which no text is ever drawn. -/
  aliases : Std.TreeMap Bytes Nat := {}

namespace Font

def empty : Font := {}

instance : Inhabited Font := ⟨empty⟩

/-- Glyph numbers have 16 bits; no larger code names a glyph. -/
def glyph? (font : Font) (code : Nat) : Option Bytes :=
  if code ≤ 0xFFFF then font.glyphs[code]? else none

def hasGlyph (font : Font) (code : Nat) : Bool := (font.glyph? code).isSome

def alias? (font : Font) (name : Bytes) : Option Nat := font.aliases[name]?

def glyphCount (font : Font) : Nat := font.glyphs.size

def insertGlyph (font : Font) (index : Nat) (program : Bytes) : Font :=
  { font with glyphs := font.glyphs.insert index program }

theorem get_insert_glyph (font : Font) (index other : Nat) (program : Bytes) :
    (font.insertGlyph index program).glyphs[other]? =
      if index = other then some program else font.glyphs[other]? := by
  rw [insertGlyph, Std.TreeMap.getElem?_insert]
  by_cases same : index = other
  · simp [same]
  · simp [same]

/-- The font honours instructions that are meant for vertical text only. -/
def isDual (font : Font) : Bool := font.modes == 2

end Font

end ShapeFont
