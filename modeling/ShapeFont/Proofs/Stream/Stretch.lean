import ShapeFont.Proofs.Stream.Unread

/-!
# Streams with a common stretch

A stretch is what lies ahead up to some point of one program: the programs called from it, and the
front of that program itself. While no more is read than the stretch holds, it does not matter what
follows, more of the same program or other programs below. So two streams that differ only behind
their common stretch are compared by reading that.
-/

namespace ShapeFont

namespace Bytes

theorem behind_zero_append (bytes more : Bytes) :
    behindZero (bytes ++ more) =
      if 0 ∈ bytes then behindZero bytes ++ more else behindZero more := by
  induction bytes with
  | nil => simp
  | cons byte bytes ih =>
      rw [List.cons_append, behind_zero_cons, behind_zero_cons, ih]
      by_cases zero : byte = 0
      · simp [zero]
      · have other : ¬0 = byte := fun same => zero same.symm
        simp [zero, other]

theorem length_behind_zero_le (bytes : Bytes) : (behindZero bytes).length ≤ bytes.length := by
  have kept : (bytes.dropWhile (· != 0)).length ≤ bytes.length :=
    (List.dropWhile_sublist _).length_le
  rw [behindZero, List.length_drop]
  omega

theorem length_behind_zero_lt {bytes : Bytes} (someByte : bytes ≠ []) :
    (behindZero bytes).length < bytes.length := by
  obtain ⟨byte, ahead, rfl⟩ := List.exists_cons_of_ne_nil someByte
  have bound := length_behind_zero_le ahead
  rw [behind_zero_cons, List.length_cons]
  split
  · exact Nat.lt_succ_self _
  · exact Nat.lt_succ_of_le bound

end Bytes

namespace CodeStream

theorem next_of_empty (frames : List Bytes) (calls : Nat) :
    CodeStream.next? ⟨[] :: frames, calls⟩ = CodeStream.next? ⟨frames, calls⟩ := by
  simp [next?, List.dropWhile]

/-- The frames, those of programs that were read to their end apart. -/
def LeftWith (stream : CodeStream) (frames : List Bytes) : Prop :=
  ∃ exhausted, stream.frames = exhausted ++ frames ∧ exhausted.flatten = []

theorem next_of_left_with {stream : CodeStream} {frames : List Bytes}
    (left : stream.LeftWith frames) : stream.next? = CodeStream.next? ⟨frames, stream.calls⟩ := by
  obtain ⟨exhausted, front, empty⟩ := left
  obtain ⟨whole, calls⟩ := stream
  obtain rfl : whole = exhausted ++ frames := front
  induction exhausted with
  | nil => rfl
  | cons frame exhausted ih =>
      obtain ⟨rfl, lower⟩ := List.append_eq_nil_iff.mp empty
      exact (next_of_empty _ calls).trans (ih lower)

end CodeStream

open CodeStream

/-- Called programs, the innermost first, and the front of the program that they were called from. -/
structure Stretch where
  upper : List Bytes := []
  front : Bytes
  deriving Repr, DecidableEq

namespace Stretch

def bytes (stretch : Stretch) : Bytes := stretch.upper.flatten ++ stretch.front

def followedBy (stretch : Stretch) (more : Bytes) (below : List Bytes) (calls : Nat) :
    CodeStream :=
  { frames := stretch.upper ++ (stretch.front ++ more) :: below, calls }

def enter (stretch : Stretch) (program : Bytes) : Stretch :=
  { stretch with upper := program :: stretch.upper }

def discard (stretch : Stretch) : Stretch :=
  match stretch.upper with
  | [] => { stretch with front := stretch.front.behindZero }
  | frame :: upper => { stretch with upper := frame.behindZero :: upper }

variable {stretch : Stretch} {more : Bytes} {below : List Bytes} {calls : Nat}

theorem followed_by_of_program (program : Bytes) (below : List Bytes) (calls : Nat) :
    (Stretch.mk [] program).followedBy [] below calls = ⟨program :: below, calls⟩ := by
  rw [followedBy, List.append_nil]
  rfl

theorem unread_followed_by (stretch : Stretch) (more : Bytes) (below : List Bytes) (calls : Nat) :
    (stretch.followedBy more below calls).unread = stretch.bytes ++ (more ++ below.flatten) := by
  simp [followedBy, unread, bytes]

theorem depth_followed_by (stretch : Stretch) (more : Bytes) (below : List Bytes) (calls : Nat) :
    (stretch.followedBy more below calls).depth = stretch.upper.length + 1 + below.length := by
  simp [followedBy, depth]
  omega

/-- The next byte lies in the stretch, in a called program or else in the front, and what follows
the stretch has no part in reading it. -/
theorem next_within {byte : UInt8} {ahead : Bytes} (found : stretch.bytes = byte :: ahead) :
    ∃ rest : Stretch, rest.bytes = ahead ∧
      (stretch.upper.flatten = [] → stretch.front = byte :: rest.front ∧ rest.upper = []) ∧
      (stretch.upper.flatten ≠ [] → rest.upper ≠ []) ∧
      ∀ more below calls, (stretch.followedBy more below calls).next? =
        some (byte, rest.followedBy more below calls) := by
  obtain ⟨upper, front⟩ := stretch
  induction upper with
  | nil =>
      obtain rfl : front = byte :: ahead := found
      exact ⟨⟨[], ahead⟩, rfl, fun _ => ⟨rfl, rfl⟩, fun called => absurd rfl called,
        fun _ _ _ => rfl⟩
  | cons frame upper ih =>
      cases frame with
      | nil =>
          obtain ⟨rest, bytes, empty, called, read⟩ := ih found
          refine ⟨rest, bytes, empty, called, ?_⟩
          intro more below calls
          exact (next_of_empty _ calls).trans (read more below calls)
      | cons first frame =>
          obtain ⟨rfl, rfl⟩ := List.cons.inj found
          refine ⟨⟨frame :: upper, front⟩, rfl, ?_, ?_, fun _ _ _ => rfl⟩
          · intro empty
            simp at empty
          · intro _
            simp

theorem advance_within {count : Nat} (fits : count ≤ stretch.bytes.length) :
    ∃ rest : Stretch, rest.bytes = stretch.bytes.drop count ∧
      ∀ more below calls, (stretch.followedBy more below calls).advance count =
        rest.followedBy more below calls := by
  induction count generalizing stretch with
  | zero => exact ⟨stretch, rfl, fun _ _ _ => rfl⟩
  | succ count ih =>
      cases found : stretch.bytes with
      | nil => simp [found] at fits
      | cons byte ahead =>
          obtain ⟨middle, bytes, -, -, read⟩ := next_within found
          have fewer : count ≤ middle.bytes.length := by
            rw [bytes]
            simpa [found] using fits
          obtain ⟨rest, left, reached⟩ := ih fewer
          refine ⟨rest, ?_, ?_⟩
          · rw [left, bytes, List.drop_succ_cons]
          · intro more below calls
            rw [advance_of_next (read more below calls), reached]

theorem next_of_exhausted (ended : stretch.bytes = []) (more : Bytes) (below : List Bytes)
    (calls : Nat) :
    (stretch.followedBy more below calls).next? = CodeStream.next? ⟨more :: below, calls⟩ := by
  obtain ⟨exhausted, outermost⟩ := List.append_eq_nil_iff.mp ended
  apply next_of_left_with
  refine ⟨stretch.upper, ?_, exhausted⟩
  rw [followedBy, outermost, List.nil_append]

theorem advance_past {count : Nat} (past : stretch.bytes.length < count)
    (enough : count ≤ (stretch.bytes ++ (more ++ below.flatten)).length) :
    (stretch.followedBy more below calls).advance count =
      CodeStream.advance ⟨more :: below, calls⟩ (count - stretch.bytes.length) := by
  obtain ⟨rest, bytes, reached⟩ := advance_within (Nat.le_refl stretch.bytes.length)
  rw [List.drop_length] at bytes
  obtain ⟨further, rfl⟩ := Nat.exists_eq_add_of_lt past
  rw [Nat.add_assoc, ← advance_advance, reached, Nat.add_sub_cancel_left]
  cases read : CodeStream.next? ⟨more :: below, calls⟩ with
  | none =>
      have nothing : more ++ below.flatten = [] := next_eq_none_iff.mp read
      rw [nothing, List.append_nil] at enough
      omega
  | some found =>
      obtain ⟨byte, behind⟩ := found
      have same := (next_of_exhausted bytes more below calls).trans read
      rw [advance_of_next read, advance_of_next same]

theorem discard_within (inside : stretch.upper = [] → 0 ∈ stretch.front ∨ more = [])
    (below : List Bytes) (calls : Nat) :
    (stretch.followedBy more below calls).discardThroughZero =
      stretch.discard.followedBy more below calls := by
  obtain ⟨upper, front⟩ := stretch
  cases upper with
  | nil =>
      rw [discard_of_frames rfl]
      simp only [followedBy, discard, List.nil_append]
      rcases inside rfl with zero | rfl
      · rw [Bytes.behind_zero_append, if_pos zero]
      · rw [List.append_nil, List.append_nil]
  | cons frame upper => rfl

/-- What accepts a call accepts it as well with no more frames below and no more calls made. -/
theorem call_within {program : Bytes} {called : CodeStream} {other : Bytes} {lower : List Bytes}
    {count : Nat} (entered : (stretch.followedBy more below calls).call? program = some called)
    (shallower : lower.length ≤ below.length) (fewer : count ≤ calls) :
    called = (stretch.enter program).followedBy more below (calls + 1) ∧
      (stretch.followedBy other lower count).call? program =
        some ((stretch.enter program).followedBy other lower (count + 1)) := by
  unfold call? at entered ⊢
  rw [depth_followed_by] at entered ⊢
  split at entered
  · simp at entered
  · next allowed =>
      refine ⟨(Option.some.inj entered).symm, ?_⟩
      rw [if_neg]
      · rfl
      · show ¬(maxDepth < _ ∨ maxCalls ≤ count)
        have room : ¬(maxDepth < stretch.upper.length + 1 + below.length ∨ maxCalls ≤ calls) :=
          allowed
        omega

end Stretch

namespace CodeStream

def outer (stream : CodeStream) : Bytes := stream.frames.getLast?.getD []

theorem outer_of_next {stream rest : CodeStream} {byte : UInt8}
    (read : stream.next? = some (byte, rest)) :
    rest.frames ≠ [] ∧ rest.outer.length ≤ stream.outer.length := by
  obtain ⟨exhausted, frame, lower, before, -, rfl⟩ := frames_of_next read
  refine ⟨List.cons_ne_nil frame lower, ?_⟩
  simp only [outer, before, List.getLast?_append, List.getLast?_cons, Option.some_or,
    Option.getD_some]
  cases lower.getLast? with
  | none => exact Nat.le_succ frame.length
  | some outermost => exact Nat.le_refl outermost.length

theorem outer_advance_le (stream : CodeStream) (count : Nat) :
    (stream.frames ≠ [] → (stream.advance count).frames ≠ []) ∧
      (stream.advance count).outer.length ≤ stream.outer.length := by
  induction count generalizing stream with
  | zero => exact ⟨id, Nat.le_refl _⟩
  | succ count ih =>
      cases read : stream.next? with
      | none =>
          rw [advance_of_exhausted (next_eq_none_iff.mp read)]
          exact ⟨id, Nat.le_refl _⟩
      | some found =>
          obtain ⟨byte, rest⟩ := found
          obtain ⟨someFrame, shorter⟩ := outer_of_next read
          rw [advance_of_next read]
          exact ⟨fun _ => (ih rest).1 someFrame, Nat.le_trans (ih rest).2 shorter⟩

theorem outer_discard_le (stream : CodeStream) :
    (stream.frames ≠ [] → stream.discardThroughZero.frames ≠ []) ∧
      stream.discardThroughZero.outer.length ≤ stream.outer.length := by
  cases front : stream.frames with
  | nil =>
      simp [discardThroughZero, front]
  | cons frame lower =>
      rw [discard_of_frames front]
      refine ⟨fun _ => List.cons_ne_nil _ _, ?_⟩
      simp only [outer, front, List.getLast?_cons, Option.getD_some]
      cases lower.getLast? with
      | none => exact frame.length_behind_zero_le
      | some outermost => exact Nat.le_refl outermost.length

theorem outer_of_call {stream called : CodeStream} {program : Bytes}
    (someFrame : stream.frames ≠ []) (entered : stream.call? program = some called) :
    called.frames ≠ [] ∧ called.outer = stream.outer := by
  unfold call? at entered
  split at entered
  · simp at entered
  · obtain rfl := Option.some.inj entered
    refine ⟨List.cons_ne_nil _ _, ?_⟩
    obtain ⟨frame, lower, front⟩ := List.exists_cons_of_ne_nil someFrame
    simp [outer, front, List.getLast?_cons]

theorem length_outer_discard_lt {stretch : Stretch} {more : Bytes} (someByte : more ≠ [])
    (outermost : stretch.upper = []) (noZero : 0 ∉ stretch.front) (calls : Nat) :
    (stretch.followedBy more [] calls).discardThroughZero.outer.length < more.length := by
  have frames : (stretch.followedBy more [] calls).frames = [stretch.front ++ more] := by
    rw [Stretch.followedBy, outermost, List.nil_append]
  rw [discard_of_frames frames, Bytes.behind_zero_append, if_neg noZero]
  exact Bytes.length_behind_zero_lt someByte

theorem outer_of_left_with {stream : CodeStream} {program : Bytes}
    (left : stream.LeftWith [program]) : stream.outer = program := by
  obtain ⟨exhausted, front, -⟩ := left
  simp [outer, front]

theorem outer_le_unread (stream : CodeStream) : stream.outer.length ≤ stream.unread.length := by
  rcases List.eq_nil_or_concat stream.frames with front | ⟨upper, outermost, front⟩
  · simp [outer, front]
  · simp [outer, unread, front]

end CodeStream

end ShapeFont
