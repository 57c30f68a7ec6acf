import ShapeFont.Glyph.CodeStream

/-!
# A code stream as one string of bytes

Reading a stream takes bytes off the front of `unread`, wherever the frames end. `advance` reads
several bytes at once and forgets them. Where exactly the frames end matters only to the depth and
to a discard.
-/

namespace ShapeFont

namespace Bytes

/-- What a discard leaves of a program: the bytes behind its first zero, or none. -/
def behindZero (bytes : Bytes) : Bytes := (bytes.dropWhile (· != 0)).drop 1

theorem behind_zero_cons (byte : UInt8) (ahead : Bytes) :
    behindZero (byte :: ahead) = if byte = 0 then ahead else behindZero ahead := by
  by_cases zero : byte = 0 <;> simp [behindZero, zero]

theorem split_behind_zero (bytes : Bytes) :
    ∃ skipped, bytes = skipped ++ bytes.behindZero ∧
      ((∃ before, skipped = before ++ [0] ∧ 0 ∉ before) ∨
        (bytes.behindZero = [] ∧ 0 ∉ skipped)) := by
  induction bytes with
  | nil => exact ⟨[], rfl, .inr ⟨rfl, by simp⟩⟩
  | cons byte ahead ih =>
      rw [behind_zero_cons]
      by_cases zero : byte = 0
      · subst zero
        exact ⟨[0], rfl, .inl ⟨[], rfl, by simp⟩⟩
      · obtain ⟨skipped, parts, stop⟩ := ih
        have other : ¬0 = byte := fun same => zero same.symm
        rw [if_neg zero]
        refine ⟨byte :: skipped, by rw [List.cons_append, ← parts], ?_⟩
        rcases stop with ⟨before, rfl, free⟩ | ⟨nothing, free⟩
        · exact .inl ⟨byte :: before, rfl, by simp [other, free]⟩
        · exact .inr ⟨nothing, by simp [other, free]⟩

end Bytes

namespace CodeStream

/-- The byte read last, and the frames that it was read from. -/
theorem frames_of_next {stream rest : CodeStream} {byte : UInt8}
    (read : stream.next? = some (byte, rest)) :
    ∃ exhausted frame lower,
      stream.frames = exhausted ++ (byte :: frame) :: lower ∧
      (∀ dropped ∈ exhausted, dropped = []) ∧
      rest = { stream with frames := frame :: lower } := by
  unfold next? at read
  split at read
  · next first frame lower front =>
      obtain ⟨rfl, rfl⟩ := by simpa using read
      refine ⟨stream.frames.takeWhile List.isEmpty, frame, lower, ?_, ?_, rfl⟩
      · rw [← front]
        exact List.takeWhile_append_dropWhile.symm
      · intro dropped member
        have all := List.all_takeWhile (l := stream.frames) (p := List.isEmpty)
        have empty := List.all_eq_true.mp all dropped member
        simpa using empty
  · simp at read

theorem next_eq_none_iff {stream : CodeStream} : stream.next? = none ↔ stream.unread = [] := by
  constructor
  · intro ended
    rw [unread, ← flatten_drop_exhausted]
    unfold next? at ended
    split at ended
    · simp at ended
    · next nonempty =>
        cases front : stream.frames.dropWhile List.isEmpty with
        | nil => rfl
        | cons frame lower =>
            have kept := List.head?_dropWhile_not List.isEmpty stream.frames
            rw [front] at kept
            cases frame with
            | nil => simp at kept
            | cons byte frame => exact absurd front (nonempty byte frame lower)
  · intro nothing
    cases read : stream.next? with
    | none => rfl
    | some found =>
        obtain ⟨byte, rest⟩ := found
        have front := (unread_of_next read).1
        simp [nothing] at front

def advance (stream : CodeStream) : (count : Nat) → CodeStream
  | 0 => stream
  | count + 1 =>
      match stream.next? with
      | some (_, rest) => rest.advance count
      | none => stream

@[simp] theorem advance_zero (stream : CodeStream) : stream.advance 0 = stream := rfl

theorem advance_of_next {stream rest : CodeStream} {byte : UInt8} {count : Nat}
    (read : stream.next? = some (byte, rest)) :
    stream.advance (count + 1) = rest.advance count := by
  rw [advance, read]

theorem advance_of_exhausted {stream : CodeStream} (nothing : stream.unread = []) (count : Nat) :
    stream.advance count = stream := by
  cases count with
  | zero => rfl
  | succ count => rw [advance, next_eq_none_iff.mpr nothing]

theorem next_of_unread {stream : CodeStream} {byte : UInt8} {ahead : Bytes}
    (front : stream.unread = byte :: ahead) : stream.next? = some (byte, stream.advance 1) := by
  cases read : stream.next? with
  | none => simp [next_eq_none_iff.mp read] at front
  | some found =>
      obtain ⟨first, rest⟩ := found
      have same := (unread_of_next read).1.symm.trans front
      obtain ⟨rfl, -⟩ := by simpa using same
      rw [advance_of_next read, advance_zero]

theorem advance_advance (stream : CodeStream) (first second : Nat) :
    (stream.advance first).advance second = stream.advance (first + second) := by
  induction first generalizing stream with
  | zero => simp
  | succ first ih =>
      cases read : stream.next? with
      | none =>
          have nothing := next_eq_none_iff.mp read
          simp only [advance_of_exhausted nothing]
      | some found =>
          obtain ⟨byte, rest⟩ := found
          rw [Nat.add_right_comm, advance_of_next read, advance_of_next read]
          exact ih rest

theorem advance_front (front more : Bytes) (below : List Bytes) (calls : Nat) :
    CodeStream.advance ⟨(front ++ more) :: below, calls⟩ front.length = ⟨more :: below, calls⟩ := by
  induction front with
  | nil => rfl
  | cons byte front ih =>
      rw [List.length_cons, List.cons_append, ← ih]
      exact advance_of_next rfl

@[simp] theorem unread_advance (stream : CodeStream) (count : Nat) :
    (stream.advance count).unread = stream.unread.drop count := by
  induction count generalizing stream with
  | zero => rfl
  | succ count ih =>
      cases read : stream.next? with
      | none =>
          have nothing := next_eq_none_iff.mp read
          rw [advance_of_exhausted nothing, nothing, List.drop_nil]
      | some found =>
          obtain ⟨byte, rest⟩ := found
          rw [advance_of_next read, ih rest, (unread_of_next read).1, List.drop_succ_cons]

theorem next_advance (stream : CodeStream) (count : Nat) :
    (stream.advance count).next? =
      (stream.unread[count]?).map fun byte => (byte, stream.advance (count + 1)) := by
  have ahead := stream.unread_advance count
  cases front : stream.unread.drop count with
  | nil =>
      rw [front] at ahead
      rw [next_eq_none_iff.mpr ahead, List.getElem?_eq_none (List.drop_eq_nil_iff.mp front)]
      rfl
  | cons byte rest =>
      rw [front] at ahead
      rw [next_of_unread ahead, advance_advance]
      have found : stream.unread[count]? = some byte := by
        rw [← List.head?_drop, front]
        rfl
      rw [found]
      rfl

theorem next_eq (stream : CodeStream) :
    stream.next? = (stream.unread[0]?).map fun byte => (byte, stream.advance 1) :=
  stream.next_advance 0

@[simp] theorem calls_advance (stream : CodeStream) (count : Nat) :
    (stream.advance count).calls = stream.calls := by
  induction count generalizing stream with
  | zero => rfl
  | succ count ih =>
      cases read : stream.next? with
      | none => rw [advance_of_exhausted (next_eq_none_iff.mp read)]
      | some found =>
          obtain ⟨byte, rest⟩ := found
          rw [advance_of_next read, ih rest, (unread_of_next read).2]

theorem depth_of_next {stream rest : CodeStream} {byte : UInt8}
    (read : stream.next? = some (byte, rest)) : rest.depth ≤ stream.depth := by
  obtain ⟨exhausted, frame, lower, before, -, rfl⟩ := frames_of_next read
  simp [depth, before]

theorem depth_advance_le (stream : CodeStream) (count : Nat) :
    (stream.advance count).depth ≤ stream.depth := by
  induction count generalizing stream with
  | zero => exact Nat.le_refl _
  | succ count ih =>
      cases read : stream.next? with
      | none => exact Nat.le_of_eq (by rw [advance_of_exhausted (next_eq_none_iff.mp read)])
      | some found =>
          obtain ⟨byte, rest⟩ := found
          rw [advance_of_next read]
          exact Nat.le_trans (ih rest) (depth_of_next read)

theorem discard_of_frames {stream : CodeStream} {frame : Bytes} {lower : List Bytes}
    (front : stream.frames = frame :: lower) :
    stream.discardThroughZero = { stream with frames := frame.behindZero :: lower } := by
  unfold discardThroughZero
  rw [front]
  rfl

theorem depth_discard_through_zero (stream : CodeStream) :
    stream.discardThroughZero.depth = stream.depth := by
  cases front : stream.frames with
  | nil => simp [discardThroughZero, front]
  | cons frame lower => simp [discard_of_frames front, depth, front]

end CodeStream

end ShapeFont
