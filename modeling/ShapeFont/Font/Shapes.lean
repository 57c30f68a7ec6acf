import ShapeFont.Bytes.Reader
import ShapeFont.Fault
import ShapeFont.Font

/-!
# The table of a shapes file

Three words come first, of which only the third counts: the number of entries. The entries give a
glyph number and a length each, and the records follow in the same order. Number zero stands for
the font info record, whose length field is not used.
-/

namespace ShapeFont.Font.Shapes

structure Entry where
  index : Nat
  length : Nat
  deriving Repr, DecidableEq

def readEntry (reader : Reader) : Entry × Reader :=
  let (index, reader) := reader.uint 2
  let (length, reader) := reader.uint 2
  ({ index, length }, reader)

/-- Names are written in capitals, digits, spaces and ampersands. -/
def isNameByte (byte : UInt8) : Bool :=
  (65 ≤ byte && byte ≤ 90) || (48 ≤ byte && byte ≤ 57) || byte == 32 || byte == 38

/-- Takes the name off a record. Two zeros say that there is none. After a single zero the bytes up
to the next zero are the name if they look like one; otherwise they are the program already. -/
def splitName : Bytes → Option Bytes × Bytes
  | 0 :: 0 :: program => (none, program)
  | 0 :: rest =>
      let name := rest.takeWhile (· != 0)
      match rest.dropWhile (· != 0) with
      | _ :: program => if name.all isNameByte then (some name, program) else (none, rest)
      | [] => (none, rest)
  | program => (none, program)

def store (font : Font) (index : Nat) (record : Bytes) : Font :=
  let (name?, program) := splitName record
  let named := match name? with
    | some name => { font with aliases := font.aliases.insert name index }
    | none => font
  named.insertGlyph index program

def readInfo (font : Font) (reader : Reader) : Except LoadFault (Font × Reader) := do
  if font.hasMetrics then throw .fontInfoTwice
  let (name, reader) := reader.takeText
  let (above, reader) := reader.uint 1
  let (below, reader) := reader.uint 1
  let (modes, reader) := reader.uint 1
  if reader.shortRead then throw .fontInfoCut
  return ({ font with name, above, below, modes, hasMetrics := true }, reader)

def readRecord (font : Font) (entry : Entry) (reader : Reader) :
    Except LoadFault (Font × Reader) :=
  if entry.index = 0 then readInfo font reader
  else
    let (record, reader) := reader.take entry.length
    if reader.shortRead then .error .shapesGlyphCut
    else .ok (store font entry.index record, reader)

def readRecords (font : Font) : List Entry → Reader → Except LoadFault (Font × Reader)
  | [], reader => .ok (font, reader)
  | entry :: entries, reader =>
      match readRecord font entry reader with
      | .error fault => .error fault
      | .ok (font, reader) => readRecords font entries reader

def read (font : Font) (reader : Reader) : Except LoadFault (Font × Reader) := do
  let (_first, reader) := reader.uint 2
  let (_last, reader) := reader.uint 2
  let (count, reader) := reader.uint 2
  if reader.shortRead then throw .shapesCountsCut
  let (entries, reader) := reader.many readEntry count
  if reader.shortRead then throw .shapesTableCut
  readRecords font entries reader

end ShapeFont.Font.Shapes
