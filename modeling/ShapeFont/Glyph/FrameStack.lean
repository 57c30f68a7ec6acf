import ShapeFont.Glyph.CodeStream

/-!
# Frames in fixed memory

A code stream as it is laid out in memory: seventeen slots, each a program with a cursor, of which
the lowest `height` are in use. Every slot and every byte is reached by its index, and an index that
does not exist is an error here, so that a law can say that there never is one. Slots above the
height keep what they held.
-/

namespace ShapeFont

/-- An access to a slot or to a byte that does not exist. -/
inductive OutOfRange where
  | slot (index : Nat)
  | byte (position : Nat)
  deriving Repr, DecidableEq

/-- A program and how far it was read. -/
structure Cursor where
  program : Array UInt8 := #[]
  position : Nat := 0
  deriving Repr, DecidableEq

namespace Cursor

def start (program : Bytes) : Cursor := { program := program.toArray }

def atEnd (cursor : Cursor) : Bool := cursor.program.size ≤ cursor.position

def unread (cursor : Cursor) : Bytes := cursor.program.toList.drop cursor.position

def read (cursor : Cursor) : Except OutOfRange (UInt8 × Cursor) :=
  match cursor.program[cursor.position]? with
  | some byte => .ok (byte, { cursor with position := cursor.position + 1 })
  | none => .error (.byte cursor.position)

theorem size_sub_position_of_read {cursor rest : Cursor} {byte : UInt8}
    (taken : cursor.read = .ok (byte, rest)) :
    rest.program.size - rest.position < cursor.program.size - cursor.position := by
  unfold read at taken
  split at taken
  · next found =>
      obtain ⟨-, rfl⟩ := by simpa using taken
      have inside := (Array.getElem?_eq_some_iff.mp found).1
      show cursor.program.size - (cursor.position + 1) < _
      omega
  · simp at taken

def skipThroughZero (cursor : Cursor) : Except OutOfRange Cursor :=
  if cursor.atEnd then .ok cursor
  else match _taken : cursor.read with
    | .error outside => .error outside
    | .ok (byte, rest) => if byte = 0 then .ok rest else rest.skipThroughZero
termination_by cursor.program.size - cursor.position
decreasing_by exact size_sub_position_of_read _taken

end Cursor

structure FrameStack where
  slots : Vector Cursor (CodeStream.maxDepth + 1)
  /-- How many slots are in use, from the lowest one on. -/
  height : Nat
  /-- How many programs were called since the start. -/
  calls : Nat
  deriving Repr, DecidableEq

namespace FrameStack

open CodeStream

def empty : FrameStack := { slots := .replicate _ {}, height := 0, calls := 0 }

def slot (stack : FrameStack) (index : Nat) : Except OutOfRange Cursor :=
  match stack.slots[index]? with
  | some cursor => .ok cursor
  | none => .error (.slot index)

def setSlot (stack : FrameStack) (index : Nat) (cursor : Cursor) : Except OutOfRange FrameStack :=
  if inside : index < maxDepth + 1 then
    .ok { stack with slots := stack.slots.set index cursor inside }
  else .error (.slot index)

/-- The height without the exhausted programs on top. -/
def heightInUse (stack : FrameStack) : (height : Nat) → Except OutOfRange Nat
  | 0 => .ok 0
  | height + 1 => do
      let top ← stack.slot height
      if top.atEnd then stack.heightInUse height else return height + 1

def reset (stack : FrameStack) (program : Bytes) : Except OutOfRange FrameStack := do
  let stack ← stack.setSlot 0 (Cursor.start program)
  return { stack with height := 1, calls := 0 }

/-- Exhausted programs are dropped only now, when a byte is asked for. -/
def pop (stack : FrameStack) : Except OutOfRange (Option UInt8 × FrameStack) := do
  let height ← stack.heightInUse stack.height
  let stack := { stack with height }
  if height = 0 then return (none, stack)
  let top ← stack.slot (height - 1)
  let (byte, rest) ← top.read
  let stack ← stack.setSlot (height - 1) rest
  return (some byte, stack)

def call (stack : FrameStack) (program : Bytes) : Except OutOfRange (Bool × FrameStack) := do
  if maxDepth < stack.height ∨ maxCalls ≤ stack.calls then return (false, stack)
  let filled ← stack.setSlot stack.height (Cursor.start program)
  return (true, { filled with height := stack.height + 1, calls := stack.calls + 1 })

def discardThroughZero (stack : FrameStack) : Except OutOfRange FrameStack := do
  if stack.height = 0 then return stack
  let top ← stack.slot (stack.height - 1)
  let rest ← top.skipThroughZero
  stack.setSlot (stack.height - 1) rest

def perform (stack : FrameStack) : Operation → Except OutOfRange (Answer × FrameStack)
  | .reset program => do return (.done, ← stack.reset program)
  | .call program => do
      let (accepted, stack) ← stack.call program
      return (if accepted then .called else .refused, stack)
  | .pop => do
      let (byte?, stack) ← stack.pop
      return (byte?.elim .exhausted .byte, stack)
  | .discard => do return (.done, ← stack.discardThroughZero)

def performAll (stack : FrameStack) : List Operation → Except OutOfRange (List Answer × FrameStack)
  | [] => .ok ([], stack)
  | operation :: operations => do
      let (answer, stack) ← stack.perform operation
      let (answers, stack) ← stack.performAll operations
      return (answer :: answers, stack)

/-- What the programs in the lowest `height` slots have left, the highest first. -/
def framesBelow (slots : Vector Cursor (maxDepth + 1)) : (height : Nat) → List Bytes
  | 0 => []
  | height + 1 => ((slots[height]?.map Cursor.unread).getD []) :: framesBelow slots height

def frames (stack : FrameStack) : List Bytes := framesBelow stack.slots stack.height

def unread (stack : FrameStack) : Bytes := stack.frames.flatten

/-- The same stream without its memory. -/
def toStream (stack : FrameStack) : CodeStream := { frames := stack.frames, calls := stack.calls }

end FrameStack

end ShapeFont
