import ShapeFont.Bytes

/-!
# The code stream of a glyph

A program can call another one, which is then read first. The stream keeps what is unread of every
program in a list of frames, the innermost first; read from top to bottom the frames are one string
of bytes, `unread`. There is no return instruction: a frame that has run dry is dropped when the
next byte is asked for. Until then it counts towards the depth, so that a program which calls itself
as its last act runs into the limit as well.
-/

namespace ShapeFont

structure CodeStream where
  /-- Unread bytes, one frame per program, innermost first. -/
  frames : List Bytes := []
  /-- How many programs were called since the start. -/
  calls : Nat := 0
  deriving Repr, DecidableEq

namespace CodeStream

def maxDepth : Nat := 16

def maxCalls : Nat := 1024

def reset (program : Bytes) : CodeStream := { frames := [program] }

/-- The stream that a run of a program starts with. -/
def start (program : Bytes) : CodeStream := reset program.counted

def depth (stream : CodeStream) : Nat := stream.frames.length

def unread (stream : CodeStream) : Bytes := stream.frames.flatten

def next? (stream : CodeStream) : Option (UInt8 × CodeStream) :=
  match stream.frames.dropWhile List.isEmpty with
  | (byte :: rest) :: frames => some (byte, { stream with frames := rest :: frames })
  | _ => none

/-- Like `next?`, for a stream that is kept: asking at the end drops the exhausted frames. -/
def pop (stream : CodeStream) : Option UInt8 × CodeStream :=
  match stream.next? with
  | some (byte, rest) => (some byte, rest)
  | none => (none, { stream with frames := [] })

/-- Puts a program in front, unless the nesting or the number of calls is at its limit. -/
def call? (stream : CodeStream) (program : Bytes) : Option CodeStream :=
  if maxDepth < stream.depth ∨ maxCalls ≤ stream.calls then none
  else some { frames := program :: stream.frames, calls := stream.calls + 1 }

/-- Skips the rest of the innermost program, up to and including its next zero byte. -/
def discardThroughZero (stream : CodeStream) : CodeStream :=
  match stream.frames with
  | [] => stream
  | frame :: frames => { stream with frames := (frame.dropWhile (· != 0)).drop 1 :: frames }

inductive Operation where
  | reset (program : Bytes)
  | call (program : Bytes)
  | pop
  | discard
  deriving Repr, DecidableEq

inductive Answer where
  | done
  | byte (value : UInt8)
  /-- There was no byte to read. -/
  | exhausted
  | called
  /-- A limit was in the way of the call. -/
  | refused
  deriving Repr, DecidableEq

def perform (stream : CodeStream) : Operation → Answer × CodeStream
  | .reset program => (.done, CodeStream.reset program)
  | .call program =>
      match stream.call? program with
      | some called => (.called, called)
      | none => (.refused, stream)
  | .pop =>
      let (byte?, rest) := stream.pop
      (byte?.elim .exhausted .byte, rest)
  | .discard => (.done, stream.discardThroughZero)

def performAll (stream : CodeStream) : List Operation → List Answer × CodeStream
  | [] => ([], stream)
  | operation :: operations =>
      let (answer, stream) := stream.perform operation
      let (answers, stream) := stream.performAll operations
      (answer :: answers, stream)

/-- `rest` is what remains of `stream` after some bytes were read and no program was called. -/
structure Follows (rest stream : CodeStream) : Prop where
  calls : rest.calls = stream.calls
  shorter : rest.unread.length < stream.unread.length

theorem Follows.trans {last middle first : CodeStream}
    (later : last.Follows middle) (earlier : middle.Follows first) : last.Follows first :=
  ⟨later.calls.trans earlier.calls, Nat.lt_trans later.shorter earlier.shorter⟩

theorem flatten_drop_exhausted (frames : List Bytes) :
    (frames.dropWhile List.isEmpty).flatten = frames.flatten := by
  induction frames with
  | nil => rfl
  | cons frame frames ih =>
      cases frame with
      | nil => simpa [List.dropWhile] using ih
      | cons byte rest => simp [List.dropWhile]

theorem unread_of_next {stream rest : CodeStream} {byte : UInt8}
    (read : stream.next? = some (byte, rest)) :
    stream.unread = byte :: rest.unread ∧ rest.calls = stream.calls := by
  unfold next? at read
  split at read
  · next tail frames front =>
      obtain ⟨rfl, rfl⟩ := by simpa using read
      refine ⟨?_, rfl⟩
      rw [unread, ← flatten_drop_exhausted, front]
      simp [unread]
  · simp at read

theorem follows_of_next {stream rest : CodeStream} {byte : UInt8}
    (read : stream.next? = some (byte, rest)) : rest.Follows stream := by
  obtain ⟨front, calls⟩ := unread_of_next read
  exact ⟨calls, by simp [front]⟩

theorem calls_discard_through_zero (stream : CodeStream) :
    stream.discardThroughZero.calls = stream.calls := by
  unfold discardThroughZero
  split <;> rfl

theorem length_discard_through_zero_le (stream : CodeStream) :
    stream.discardThroughZero.unread.length ≤ stream.unread.length := by
  unfold discardThroughZero
  split
  · exact Nat.le_refl _
  · next frame frames front =>
      have kept : (frame.dropWhile (· != 0)).length ≤ frame.length :=
        (List.dropWhile_sublist _).length_le
      simp only [unread, front, List.flatten_cons, List.length_append, List.length_drop]
      omega

theorem calls_of_call {stream called : CodeStream} {program : Bytes}
    (success : stream.call? program = some called) :
    called.calls = stream.calls + 1 ∧ stream.calls < maxCalls := by
  unfold call? at success
  split at success
  · simp at success
  · next allowed =>
      obtain rfl := by simpa using success
      exact ⟨rfl, by omega⟩

end CodeStream

end ShapeFont
