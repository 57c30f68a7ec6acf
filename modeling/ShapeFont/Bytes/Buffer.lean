import ShapeFont.Bytes.Reader

/-!
# A file in memory

A reader as it is laid out in memory: a window on the bytes of a file, and a position in it that is a
signed word of 32 bits. A sum that no word holds, a place that the memory does not have and a number
of no byte or of more than four are errors here, so that a law can say that there never is one. The
parts that a buffer gives out are windows on the same memory.
-/

namespace ShapeFont

open Reader (Operation Answer endsText)

/-- What no operation may come to. -/
inductive Misstep where
  | overflow (sum : Int)
  | outside (place : Int)
  | width (width : Int32)
  deriving Repr, DecidableEq

namespace Word

def ofInt (value : Int) : Except Misstep Int32 :=
  if -0x80000000 ≤ value ∧ value ≤ 0x7FFFFFFF then .ok (Int32.ofInt value)
  else .error (.overflow value)

def sum (left right : Int32) : Except Misstep Int32 := ofInt (left.toInt + right.toInt)

def difference (left right : Int32) : Except Misstep Int32 := ofInt (left.toInt - right.toInt)

def nonnegative (word : Int32) : Int32 := if word < 0 then 0 else word

def least (left right : Int32) : Int32 := if left < right then left else right

theorem to_int_of_sum {left right total : Int32} (summed : sum left right = .ok total) :
    total.toInt = left.toInt + right.toInt := by
  unfold sum ofInt at summed
  split at summed
  · next fits =>
      cases summed
      exact Int32.toInt_ofInt_of_le fits.1 (by omega)
  · contradiction

end Word

structure Window where
  memory : Array UInt8 := #[]
  /-- The place in memory where the window begins. -/
  start : Nat := 0
  size : Int32 := 0
  deriving Repr, DecidableEq

namespace Window

def empty : Window := {}

/-- Of a file whose size is no word, the window shows as much as a word can count. -/
def ofBytes (data : Bytes) : Window :=
  { memory := data.toArray, size := Int32.ofNat (min data.length 0x7FFFFFFF) }

/-- The place in memory of a position. There is one behind the last byte as well. -/
def place (window : Window) (position : Int32) : Except Misstep Nat :=
  let place : Int := window.start + position.toInt
  if 0 ≤ place ∧ place ≤ window.memory.size then .ok place.toNat else .error (.outside place)

def load (window : Window) (position : Int32) : Except Misstep UInt8 := do
  let place ← window.place position
  match window.memory[place]? with
  | some value => .ok value
  | none => .error (.outside place)

def bytes (window : Window) : Except Misstep Bytes := do
  let first ← window.place 0
  let last ← window.place window.size
  return (window.memory.extract first last).toList

/-- A part of the window, or nothing where it does not lie in it. -/
def slice (window : Window) (offset length : Int32) : Except Misstep Window := do
  if offset < 0 ∨ length < 0 ∨ window.size < offset then return empty
  let behind ← Word.difference window.size offset
  if behind < length then return empty
  let start ← window.place offset
  return { memory := window.memory, start, size := length }

/-- The position of the next end of text, or the size where there is none ahead. -/
def textEnd (window : Window) (position : Int32) : Except Misstep Int32 :=
  if _inside : position < window.size then
    match window.load position with
    | .error misstep => .error misstep
    | .ok value =>
        if endsText value then .ok position
        else
          match _summed : Word.sum position 1 with
          | .error misstep => .error misstep
          | .ok next => window.textEnd next
  else .ok position
termination_by (window.size.toInt - position.toInt).toNat
decreasing_by
  have further := Word.to_int_of_sum _summed
  have before := Int32.lt_iff_toInt_lt.mp _inside
  have one : (1 : Int32).toInt = 1 := by decide
  omega

end Window

/-- A window that is read from front to back. -/
structure Buffer extends Window where
  cursor : Int32 := 0
  shortRead : Bool := false
  deriving Repr, DecidableEq

namespace Buffer

def fresh (window : Window) : Buffer := { toWindow := window }

def ofBytes (data : Bytes) : Buffer := fresh (Window.ofBytes data)

def remaining (buffer : Buffer) : Except Misstep Int32 := Word.difference buffer.size buffer.cursor

def atEnd (buffer : Buffer) : Bool := buffer.size ≤ buffer.cursor

def byte (buffer : Buffer) : Except Misstep (UInt8 × Buffer) := do
  if buffer.size ≤ buffer.cursor then return (0, { buffer with shortRead := true })
  let value ← buffer.load buffer.cursor
  let cursor ← Word.sum buffer.cursor 1
  return (value, { buffer with cursor })

/-- Adds `count` more bytes to a number that has its lowest `index` bytes already. -/
def uintFrom (buffer : Buffer) (number : UInt32) (index : Nat) :
    (count : Nat) → Except Misstep (UInt32 × Buffer)
  | 0 => .ok (number, buffer)
  | count + 1 => do
      let (value, buffer) ← buffer.byte
      buffer.uintFrom (number ||| value.toUInt32 <<< (8 * index).toUInt32) (index + 1) count

def uint (buffer : Buffer) (width : Int32) : Except Misstep (UInt32 × Buffer) :=
  if 1 ≤ width ∧ width ≤ 4 then buffer.uintFrom 0 0 width.toInt.toNat else .error (.width width)

def seek (buffer : Buffer) (position : Int32) : Buffer :=
  if buffer.size < position ∨ position < 0 then
    { buffer with cursor := buffer.size, shortRead := true }
  else { buffer with cursor := position }

def take (buffer : Buffer) (count : Int32) : Except Misstep (Buffer × Buffer) := do
  let wanted := Word.nonnegative count
  let available := Word.nonnegative (← buffer.remaining)
  let taken := Word.least available wanted
  let part ← buffer.slice buffer.cursor taken
  let cursor ← Word.sum buffer.cursor taken
  return (fresh part, { buffer with cursor, shortRead := buffer.shortRead || available < wanted })

def takeText (buffer : Buffer) : Except Misstep (Buffer × Buffer) := do
  let stop ← buffer.textEnd buffer.cursor
  let length ← Word.difference stop buffer.cursor
  let part ← buffer.slice buffer.cursor length
  let cursor ← if stop < buffer.size then Word.sum stop 1 else pure stop
  return (fresh part, { buffer with cursor })

def answering {Value : Type} (answer : Value → Answer Buffer)
    (read : Except Misstep (Value × Buffer)) : Except Misstep (Answer Buffer × Buffer) :=
  read.map fun result => (answer result.1, result.2)

def perform (buffer : Buffer) : Operation → Except Misstep (Answer Buffer × Buffer)
  | .byte => answering (fun value => .number value.toNat) buffer.byte
  | .uint16 => answering (fun value => .number value.toNat) (buffer.uint 2)
  | .uint32 => answering (fun value => .number value.toNat) (buffer.uint 4)
  | .uint width => answering (fun value => .number value.toNat) (buffer.uint width)
  | .seek position => .ok (.done, buffer.seek position)
  | .take count => answering .part (buffer.take count)
  | .text => answering .part buffer.takeText
  | .slice offset length => do return (.part (fresh (← buffer.slice offset length)), buffer)

def performAll (buffer : Buffer) :
    List Operation → Except Misstep (List (Answer Buffer) × Buffer)
  | [] => .ok ([], buffer)
  | operation :: operations => do
      let (answer, buffer) ← buffer.perform operation
      let (answers, buffer) ← buffer.performAll operations
      return (answer :: answers, buffer)

def shown : Answer Buffer → Except Misstep (Answer Bytes)
  | .done => .ok .done
  | .number value => .ok (.number value)
  | .part part => do return .part (← part.bytes)

end Buffer

end ShapeFont
