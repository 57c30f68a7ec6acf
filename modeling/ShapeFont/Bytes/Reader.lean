import ShapeFont.Bytes

/-!
# Reading a file front to back

A `Reader` is a file in memory with a cursor. A read that asks for more than is left yields zeros
(or what is left) and latches `shortRead`, so that a parser can read a whole record and ask once
whether all of it was there. `reach` remembers how far the cursor ever went: bytes behind it had no
part in what was read.
-/

namespace ShapeFont

structure Reader where
  data : Array UInt8
  cursor : Nat
  shortRead : Bool
  /-- The furthest position the cursor has been at. -/
  reach : Nat
  deriving Repr, DecidableEq

namespace Reader

def start (data : Bytes) : Reader :=
  { data := data.toArray, cursor := 0, shortRead := false, reach := 0 }

/-- Of a file whose size is no word, as much is read as a word can count. -/
def ofBytes (data : Bytes) : Reader := start data.counted

def size (reader : Reader) : Nat := reader.data.size

def remaining (reader : Reader) : Nat := reader.size - reader.cursor

/-- The bytes that are still ahead of the cursor. -/
def rest (reader : Reader) : Bytes := reader.data.toList.drop reader.cursor

/-- Every change of the cursor goes through here, which keeps `reach` up to date. -/
def moveTo (reader : Reader) (position : Nat) : Reader :=
  { reader with cursor := position, reach := max reader.reach position }

def markShort (reader : Reader) : Reader := { reader with shortRead := true }

/-- One byte, or zero past the end. -/
def byte (reader : Reader) : UInt8 × Reader :=
  match reader.data[reader.cursor]? with
  | some value => (value, reader.moveTo (reader.cursor + 1))
  | none => (0, reader.markShort)

/-- An unsigned number of `width` bytes, least significant first; missing bytes count as zero. -/
def uint (reader : Reader) : (width : Nat) → Nat × Reader
  | 0 => (0, reader)
  | width + 1 =>
      let (low, afterLow) := reader.byte
      let (high, afterHigh) := afterLow.uint width
      (low.toNat + 256 * high, afterHigh)

/-- A position outside the file latches `shortRead` and leaves the cursor at the end. -/
def seek (reader : Reader) (position : Int) : Reader :=
  if position < 0 ∨ reader.size < position then (reader.moveTo reader.size).markShort
  else reader.moveTo position.toNat

/-- The `length` bytes from `offset` on, or nothing unless all of them lie in the file. -/
def slice (reader : Reader) (offset length : Int) : Bytes :=
  if 0 ≤ offset ∧ 0 ≤ length ∧ offset + length ≤ reader.size then
    (reader.data.extract offset.toNat (offset + length).toNat).toList
  else []

/-- The next `count` bytes. A short tail is given as far as it goes and latches `shortRead`; a
negative count asks for nothing. -/
def take (reader : Reader) (count : Int) : Bytes × Reader :=
  let wanted := count.toNat
  let available := min wanted reader.remaining
  let taken := reader.slice reader.cursor available
  let moved := reader.moveTo (reader.cursor + available)
  (taken, if available < wanted then moved.markShort else moved)

/-- Carriage return, line feed and zero end a text in a font file. -/
def endsText (value : UInt8) : Bool := value == 13 || value == 10 || value == 0

/-- The bytes up to the next end of text, which is consumed and left out. A text that runs to the
end of the file is not a short read. -/
def takeText (reader : Reader) : Bytes × Reader :=
  let text := reader.rest.takeWhile fun value => !endsText value
  let stop := reader.cursor + text.length
  (text, reader.moveTo (if stop < reader.size then stop + 1 else stop))

section

variable {Item : Type}

def collect (read : Reader → Item × Reader) :
    (count : Nat) → Array Item → Reader → Array Item × Reader
  | 0, done, reader => (done, reader)
  | count + 1, done, reader =>
      let (item, reader) := read reader
      collect read count (done.push item) reader

/-- A table of `count` items, one after the other. -/
def many (reader : Reader) (read : Reader → Item × Reader) (count : Nat) : List Item × Reader :=
  let (items, reader) := collect read count #[] reader
  (items.toList, reader)

end

/-- What can be asked of a reader. Places and counts are signed words of 32 bits. -/
inductive Operation where
  | byte
  | uint16
  | uint32
  | uint (width : Int32)
  | seek (position : Int32)
  | take (count : Int32)
  | text
  | slice (offset length : Int32)
  deriving Repr, DecidableEq

inductive Answer (Part : Type) where
  | done
  | number (value : Nat)
  | part (part : Part)
  deriving Repr, DecidableEq

def perform (reader : Reader) : Operation → Answer Bytes × Reader
  | .byte => (reader.uint 1).map .number id
  | .uint16 => (reader.uint 2).map .number id
  | .uint32 => (reader.uint 4).map .number id
  | .uint width => (reader.uint width.toInt.toNat).map .number id
  | .seek position => (.done, reader.seek position.toInt)
  | .take count => (reader.take count.toInt).map .part id
  | .text => reader.takeText.map .part id
  | .slice offset length => (.part (reader.slice offset.toInt length.toInt), reader)

def performAll (reader : Reader) : List Operation → List (Answer Bytes) × Reader
  | [] => ([], reader)
  | operation :: operations =>
      let (answer, reader) := reader.perform operation
      let (answers, reader) := reader.performAll operations
      (answer :: answers, reader)

end Reader

end ShapeFont
