import ShapeFont.Bytes.Reader
import ShapeFont.Fault
import ShapeFont.Font
import ShapeFont.Text.Utf8

/-!
# The first line of a font file

It holds format, kind and version with one space between them and ends at a carriage return, a
line feed or a zero. Two bytes behind its end belong to it and are skipped.
-/

namespace ShapeFont.Font

/-- The tokens of the first line. Format and version may be empty. -/
structure Header where
  format : Bytes
  kind : FontKind
  version : Bytes
  deriving Repr, DecidableEq

namespace Header

def ofLine (line : Bytes) : Except LoadFault Header :=
  if Utf8.wellFormed line then
    match line.splitOn 32 with
    | [format, word, version] =>
        match FontKind.ofWord? word with
        | some kind => .ok { format, kind, version }
        | none => .error .unknownVariant
    | _ => .error .headerNotThreeParts
  else .error .headerNotText

def read (reader : Reader) : Except LoadFault (Header × Reader) := do
  let (line, reader) := reader.takeText
  let header ← ofLine line
  let (_, reader) := reader.take 2
  if reader.shortRead then throw .headerCut
  return (header, reader)

end Header

end ShapeFont.Font
