import ShapeFont.Bytes.Reader
import ShapeFont.Fault
import ShapeFont.Font

/-!
# The table of a bigfont file

Counts come first, then the ranges of bytes that begin a character of two bytes, then the entries.
Each entry gives a glyph number, a length and the place of its record in the file, so records may
lie in any order and overlap. Number zero stands for the font metrics.
-/

namespace ShapeFont.Font.BigFont

structure Entry where
  index : Nat
  length : Nat
  offset : Nat
  deriving Repr, DecidableEq

def readEntry (reader : Reader) : Entry × Reader :=
  let (index, reader) := reader.uint 2
  let (length, reader) := reader.uint 2
  let (offset, reader) := reader.uint 4
  ({ index, length, offset }, reader)

/-- Glyphs are looked up by their full number, so the ranges have no use here. -/
def readRange (reader : Reader) : (Nat × Nat) × Reader :=
  let (first, reader) := reader.uint 2
  let (last, reader) := reader.uint 2
  ((first, last), reader)

def readInfo (font : Font) (reader : Reader) : Except LoadFault (Font × Reader) :=
  let (above, reader) := reader.uint 1
  let (below, reader) := reader.uint 1
  let (modes, reader) := reader.uint 1
  if reader.shortRead then .error .bigFontInfoOutside
  else .ok ({ font with above, below, modes, hasMetrics := true }, reader)

def readRecord (font : Font) (entry : Entry) (reader : Reader) :
    Except LoadFault (Font × Reader) :=
  let reader := reader.seek entry.offset
  if entry.index = 0 then readInfo font reader
  else
    let (program, reader) := reader.take entry.length
    if reader.shortRead then .error .bigFontGlyphOutside
    else .ok (font.insertGlyph entry.index program, reader)

def readRecords (font : Font) : List Entry → Reader → Except LoadFault (Font × Reader)
  | [], reader => .ok (font, reader)
  | entry :: entries, reader =>
      match readRecord font entry reader with
      | .error fault => .error fault
      | .ok (font, reader) => readRecords font entries reader

def read (font : Font) (reader : Reader) : Except LoadFault (Font × Reader) := do
  let (count, reader) := reader.uint 2
  let (_length, reader) := reader.uint 2
  let (rangeCount, reader) := reader.uint 2
  if reader.shortRead then throw .bigFontCountsCut
  let (_ranges, reader) := reader.many readRange rangeCount
  let (entries, reader) := reader.many readEntry count
  if reader.shortRead then throw .bigFontTableCut
  readRecords font entries reader

end ShapeFont.Font.BigFont
