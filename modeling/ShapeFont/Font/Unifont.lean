import ShapeFont.Bytes.Reader
import ShapeFont.Fault
import ShapeFont.Font

/-!
# The records of a unifont file

A count and a word that is not used come first. Then the font info record is read, from the sixth
byte of the file on. The count includes that record; the others follow it, each with its glyph
number and its length in front.
-/

namespace ShapeFont.Font.Unifont

def infoStart : Int := 5

def readInfo (font : Font) (reader : Reader) : Except LoadFault (Font × Reader) := do
  let (name, reader) := reader.takeText
  let (above, reader) := reader.uint 1
  let (below, reader) := reader.uint 1
  let (modes, reader) := reader.uint 1
  let (encoding, reader) := reader.uint 1
  let (embeddable, reader) := reader.uint 1
  let (_reserved, reader) := reader.uint 1
  if reader.shortRead then throw .fontInfoCut
  return ({ font with name, above, below, modes, encoding, embeddable, hasMetrics := true }, reader)

/-- The loop ends with the file, however large the count: each record takes at least four bytes. -/
def readRecords (font : Font) : Nat → Reader → Except LoadFault (Font × Reader)
  | 0, reader => .ok (font, reader)
  | count + 1, reader =>
      let (index, reader) := reader.uint 2
      let (length, reader) := reader.uint 2
      let (program, reader) := reader.take length
      if reader.shortRead then .error .unifontGlyphCut
      else readRecords (font.insertGlyph index program) count reader

def read (font : Font) (reader : Reader) : Except LoadFault (Font × Reader) := do
  let (count, reader) := reader.uint 4
  let (_length, reader) := reader.uint 2
  if reader.shortRead then throw .unifontCountsCut
  let (font, reader) ← readInfo font (reader.seek infoStart)
  readRecords font (count - 1) reader

end ShapeFont.Font.Unifont
