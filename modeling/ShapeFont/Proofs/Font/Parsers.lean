import ShapeFont.Font.File
import ShapeFont.Proofs.Reader.Parsing

/-!
# The parsers part by part

Each parser of a font file reads a part, refuses the file where that part was short, and goes on with
what it read. Here they are written so, with `checked`, and what is known of checked readings is known
of them.
-/

namespace ShapeFont

namespace Font

open Reader

def readMetrics (reader : Reader) : (Nat × Nat × Nat) × Reader :=
  let (above, reader) := reader.uint 1
  let (below, reader) := reader.uint 1
  let (modes, reader) := reader.uint 1
  ((above, below, modes), reader)

section

-- Readings are compared as they stand. Unfolded, each doubles the term behind it.
attribute [local irreducible] Reader.uint Reader.seek Reader.take Reader.takeText Reader.many

variable (font : Font)

namespace BigFont

def readCounts (reader : Reader) : (Nat × Nat) × Reader :=
  let (count, reader) := reader.uint 2
  let (_length, reader) := reader.uint 2
  let (rangeCount, reader) := reader.uint 2
  ((count, rangeCount), reader)

def readTables (counted : Nat × Nat) (reader : Reader) : List Entry × Reader :=
  let (_ranges, reader) := reader.many readRange counted.2
  reader.many readEntry counted.1

theorem read_eq : read font =
    checked readCounts .bigFontCountsCut fun counted =>
      checked (readTables counted) .bigFontTableCut fun entries => readRecords font entries := rfl

theorem read_record_info {entry : Entry} (info : entry.index = 0) : readRecord font entry =
    checked (fun reader => readMetrics (reader.seek entry.offset)) .bigFontInfoOutside
      fun (above, below, modes) reader =>
        .ok ({ font with above, below, modes, hasMetrics := true }, reader) := by
  funext reader
  rw [readRecord, if_pos info]
  rfl

theorem read_record_glyph {entry : Entry} (glyph : entry.index ≠ 0) : readRecord font entry =
    checked (fun reader => (reader.seek entry.offset).take entry.length) .bigFontGlyphOutside
      fun program reader => .ok (font.insertGlyph entry.index program, reader) := by
  funext reader
  rw [readRecord, if_neg glyph]
  rfl

theorem read_records_cons (entry : Entry) (entries : List Entry) (reader : Reader) :
    readRecords font (entry :: entries) reader =
      (readRecord font entry reader).bind fun found => readRecords found.1 entries found.2 := by
  rw [readRecords]
  cases readRecord font entry reader <;> rfl

end BigFont

namespace Shapes

def readCount (reader : Reader) : Nat × Reader :=
  let (_first, reader) := reader.uint 2
  let (_last, reader) := reader.uint 2
  reader.uint 2

def readNamed (reader : Reader) : (Bytes × Nat × Nat × Nat) × Reader :=
  let (name, reader) := reader.takeText
  let (metrics, reader) := readMetrics reader
  ((name, metrics), reader)

theorem read_eq : read font =
    checked readCount .shapesCountsCut fun count =>
      checked (fun reader => reader.many readEntry count) .shapesTableCut
        fun entries => readRecords font entries := rfl

theorem read_info_twice (twice : font.hasMetrics = true) :
    readInfo font = fun _ => .error .fontInfoTwice := by
  funext reader
  rw [readInfo, twice]
  rfl

theorem read_info_once (once : font.hasMetrics = false) : readInfo font =
    checked readNamed .fontInfoCut fun (name, above, below, modes) reader =>
      .ok ({ font with name, above, below, modes, hasMetrics := true }, reader) := by
  funext reader
  rw [readInfo, once]
  rfl

theorem read_record_info {entry : Entry} (info : entry.index = 0) :
    readRecord font entry = readInfo font := by
  funext reader
  rw [readRecord, if_pos info]

theorem read_record_glyph {entry : Entry} (glyph : entry.index ≠ 0) : readRecord font entry =
    checked (fun reader => reader.take entry.length) .shapesGlyphCut fun record reader =>
      .ok (store font entry.index record, reader) := by
  funext reader
  rw [readRecord, if_neg glyph]
  rfl

theorem read_records_cons (entry : Entry) (entries : List Entry) (reader : Reader) :
    readRecords font (entry :: entries) reader =
      (readRecord font entry reader).bind fun found => readRecords found.1 entries found.2 := by
  rw [readRecords]
  cases readRecord font entry reader <;> rfl

end Shapes

namespace Unifont

def readCount (reader : Reader) : Nat × Reader :=
  let (count, reader) := reader.uint 4
  let (_length, reader) := reader.uint 2
  (count, reader)

def readNamed (reader : Reader) : (Bytes × (Nat × Nat × Nat) × Nat × Nat) × Reader :=
  let (name, reader) := reader.takeText
  let (metrics, reader) := readMetrics reader
  let (encoding, reader) := reader.uint 1
  let (embeddable, reader) := reader.uint 1
  let (_reserved, reader) := reader.uint 1
  ((name, metrics, encoding, embeddable), reader)

def readGlyph (reader : Reader) : (Nat × Bytes) × Reader :=
  let (index, reader) := reader.uint 2
  let (length, reader) := reader.uint 2
  let (program, reader) := reader.take length
  ((index, program), reader)

theorem read_info_eq (reader : Reader) : readInfo font (reader.seek infoStart) =
    checked (fun reader => readNamed (reader.seek infoStart)) .fontInfoCut
      (fun (name, (above, below, modes), encoding, embeddable) reader =>
        .ok ({ font with name, above, below, modes, encoding, embeddable,
                         hasMetrics := true }, reader)) reader := rfl

theorem read_records_succ (count : Nat) : readRecords font (count + 1) =
    checked readGlyph .unifontGlyphCut fun (index, program) =>
      readRecords (font.insertGlyph index program) count := rfl

theorem read_eq : read font =
    checked readCount .unifontCountsCut fun count reader =>
      (readInfo font (reader.seek infoStart)).bind fun found =>
        readRecords found.1 (count - 1) found.2 := rfl

end Unifont

namespace Header

def readLine (reader : Reader) : Bytes × Reader :=
  let (line, reader) := reader.takeText
  let (_, reader) := reader.take 2
  (line, reader)

theorem read_eq (reader : Reader) :
    read reader = (ofLine (readLine reader).1).bind fun header =>
      if (readLine reader).2.shortRead then .error .headerCut
      else .ok (header, (readLine reader).2) := rfl

theorem ok_of_read {reader after : Reader} {header : Header}
    (done : read reader = .ok (header, after)) :
    ofLine (readLine reader).1 = .ok header ∧ (readLine reader).2.shortRead = false ∧
      (readLine reader).2 = after := by
  rw [read_eq] at done
  cases made : ofLine (readLine reader).1 with
  | error fault => simp [made, Except.bind] at done
  | ok found =>
      rw [made] at done
      dsimp only [Except.bind] at done
      split at done
      · simp at done
      · next full =>
          obtain ⟨rfl, rfl⟩ := Prod.mk.inj (Except.ok.inj done)
          exact ⟨rfl, by simpa using full, rfl⟩

end Header

end

theorem read_from_eq (reader : Reader) :
    readFrom reader = (Header.read reader).bind fun found => readTable found.1 found.2 := rfl

/-- What a file is read as, if all of it is seen. -/
def ofWhole (data : Bytes) : Except LoadFault Font := (readFrom (Reader.start data)).map Prod.fst

theorem of_bytes_eq (data : Bytes) : ofBytes data = ofWhole data.counted := rfl

theorem of_bytes_of_small {data : Bytes} (small : data.length < 0x80000000) :
    ofBytes data = ofWhole data := by
  rw [of_bytes_eq, Bytes.counted_of_small small]

theorem load_of_ok {data : Bytes} {font : Font} (read : ofBytes data = .ok font) (held : Font) :
    (load data).run held = (none, font) := by
  rw [load, read]
  rfl

theorem load_of_error {data : Bytes} {fault : LoadFault} (failed : ofBytes data = .error fault)
    (held : Font) : (load data).run held = (some fault, empty) := by
  rw [load, failed]
  rfl

end Font

end ShapeFont
