import ShapeFont.Font.Header
import ShapeFont.Font.Shapes
import ShapeFont.Font.BigFont
import ShapeFont.Font.Unifont

/-!
# Font files

A file is its first line and the table of its kind. It is read as a whole or refused as a whole.
-/

namespace ShapeFont

/-- How the reading of a file ended. -/
inductive FileContents where
  | unopened
  /-- The file was opened, but could not be read to its end. -/
  | broken
  | whole (data : Bytes)
  deriving Repr, DecidableEq

namespace Font

/-- Reads what stands behind the first line. -/
def readTable (header : Header) (reader : Reader) : Except LoadFault (Font × Reader) :=
  let font : Font :=
    { format := header.format, kind := header.kind, version := header.version }
  match header.kind with
  | .shapes => Shapes.read font reader
  | .bigFont => BigFont.read font reader
  | .unifont => Unifont.read font reader

/-- Reads a font and says how far into the file the reading went. -/
def readFrom (reader : Reader) : Except LoadFault (Font × Reader) := do
  let (header, reader) ← Header.read reader
  readTable header reader

def ofBytes (data : Bytes) : Except LoadFault Font :=
  (readFrom (Reader.ofBytes data)).map Prod.fst

/-- Reads a file into a place that holds a font. A refused file leaves the empty font there, whatever
it held before. -/
def load (data : Bytes) : StateM Font (Option LoadFault) := do
  match ofBytes data with
  | .ok font =>
      set font
      return none
  | .error fault =>
      set empty
      return some fault

/-- Loads what reading a file brought. Of a file that broke off nothing is used. -/
def loadFile : FileContents → StateM Font (Option LoadFault)
  | .unopened => do
      set empty
      return some .cannotOpen
  | .broken => do
      set empty
      return some .cannotRead
  | .whole data => load data

end Font

end ShapeFont
