import ShapeFont.Proofs.Stream.Unread

/-!
# Counting what is asked of a stream

What a list of operations answers, and how deep a stream can get by any of them. A call puts bytes
back, so the bytes ahead do not shrink from one operation to the next; `Paid` books the bytes read
against those ahead and those that were put back.
-/

namespace ShapeFont.CodeStream

def Answer.isByte : Answer → Bool
  | .byte _ => true
  | _ => false

def bytesRead (answers : List Answer) : Nat := answers.countP Answer.isByte

def callsMade (answers : List Answer) : Nat := answers.count .called

theorem bytes_read_append (first second : List Answer) :
    bytesRead (first ++ second) = bytesRead first + bytesRead second := List.countP_append

theorem calls_made_append (first second : List Answer) :
    callsMade (first ++ second) = callsMade first + callsMade second := List.count_append

theorem bytes_read_bytes (bytes : Bytes) : bytesRead (bytes.map .byte) = bytes.length := by
  induction bytes with
  | nil => rfl
  | cons byte bytes ih =>
      rw [List.map_cons, bytesRead, List.countP_cons_of_pos rfl]
      exact congrArg (· + 1) ih

theorem calls_made_bytes (bytes : Bytes) : callsMade (bytes.map .byte) = 0 := by
  rw [callsMade, List.count_eq_zero]
  intro member
  obtain ⟨byte, -, same⟩ := List.mem_map.mp member
  cases same

theorem perform_all_append (stream : CodeStream) (first second : List Operation) :
    stream.performAll (first ++ second) =
      ((stream.performAll first).1 ++ ((stream.performAll first).2.performAll second).1,
        ((stream.performAll first).2.performAll second).2) := by
  induction first generalizing stream with
  | nil => rfl
  | cons operation first ih =>
      simp only [List.cons_append, performAll]
      rw [ih]

theorem perform_pop_of_unread {stream : CodeStream} {byte : UInt8} {ahead : Bytes}
    (front : stream.unread = byte :: ahead) :
    stream.perform .pop = (.byte byte, stream.advance 1) := by
  rw [perform, pop, next_of_unread front]
  rfl

theorem perform_pop_of_exhausted {stream : CodeStream} (nothing : stream.unread = []) :
    stream.perform .pop = (.exhausted, { stream with frames := [] }) := by
  rw [perform, pop, next_eq_none_iff.mpr nothing]
  rfl

theorem perform_all_pops {stream : CodeStream} {count : Nat}
    (enough : count ≤ stream.unread.length) :
    stream.performAll (List.replicate count .pop) =
      ((stream.unread.take count).map .byte, stream.advance count) := by
  induction count generalizing stream with
  | zero => rfl
  | succ count ih =>
      rcases front : stream.unread with _ | ⟨byte, ahead⟩
      · simp [front] at enough
      · have rest : (stream.advance 1).unread = ahead := by rw [unread_advance, front]; rfl
        have fewer : count ≤ (stream.advance 1).unread.length := by
          rw [rest]
          simpa [front] using enough
        rw [List.replicate_succ, performAll, perform_pop_of_unread front]
        dsimp only
        rw [ih fewer, rest, advance_advance, Nat.add_comm 1 count]
        rfl

theorem depth_perform_le {stream : CodeStream} (bounded : stream.depth ≤ maxDepth + 1)
    (operation : Operation) : (stream.perform operation).2.depth ≤ maxDepth + 1 := by
  cases operation with
  | reset program => exact Nat.succ_le_succ (Nat.zero_le _)
  | call program =>
      rw [perform, call?]
      by_cases limited : maxDepth < stream.depth ∨ maxCalls ≤ stream.calls
      · rw [if_pos limited]
        exact bounded
      · rw [if_neg limited]
        show stream.depth + 1 ≤ maxDepth + 1
        omega
  | pop =>
      cases read : stream.next? with
      | none =>
          rw [perform_pop_of_exhausted (next_eq_none_iff.mp read)]
          exact Nat.zero_le _
      | some found =>
          obtain ⟨byte, rest⟩ := found
          rw [perform_pop_of_unread (unread_of_next read).1]
          exact Nat.le_trans (depth_advance_le stream 1) bounded
  | discard =>
      rw [perform, depth_discard_through_zero]
      exact bounded

theorem depth_perform_all_le {stream : CodeStream} (bounded : stream.depth ≤ maxDepth + 1)
    (operations : List Operation) : (stream.performAll operations).2.depth ≤ maxDepth + 1 := by
  induction operations generalizing stream with
  | nil => exact bounded
  | cons operation operations ih => exact ih (depth_perform_le bounded operation)

theorem calls_perform_le {stream : CodeStream} (bounded : stream.calls ≤ maxCalls)
    (operation : Operation) : (stream.perform operation).2.calls ≤ maxCalls := by
  cases operation with
  | reset program => exact Nat.zero_le _
  | call program =>
      rw [perform]
      cases entered : stream.call? program with
      | none => exact bounded
      | some called =>
          obtain ⟨calls, allowed⟩ := calls_of_call entered
          show called.calls ≤ maxCalls
          omega
  | pop =>
      cases read : stream.next? with
      | none =>
          rw [perform_pop_of_exhausted (next_eq_none_iff.mp read)]
          exact bounded
      | some found =>
          obtain ⟨byte, rest⟩ := found
          rw [perform_pop_of_unread (unread_of_next read).1, calls_advance]
          exact bounded
  | discard =>
      rw [perform, calls_discard_through_zero]
      exact bounded

theorem calls_perform_all_le {stream : CodeStream} (bounded : stream.calls ≤ maxCalls)
    (operations : List Operation) : (stream.performAll operations).2.calls ≤ maxCalls := by
  induction operations generalizing stream with
  | nil => exact bounded
  | cons operation operations ih => exact ih (calls_perform_le bounded operation)

/-- The bytes read on the way from `stream` to `rest` pay for what is drawn, and what is put in front
of them is paid for by calls. -/
structure Paid (longest : Nat) (stream rest : CodeStream) (drawn : Nat) (answers : List Answer) :
    Prop where
  strokes : drawn ≤ bytesRead answers
  calls : rest.calls = stream.calls + callsMade answers
  bytes : bytesRead answers + rest.unread.length ≤
    stream.unread.length + callsMade answers * longest

namespace Paid

variable {longest first second fewer : Nat} {stream middle rest : CodeStream}
  {earlier later : List Answer}

theorem append (front : Paid longest stream middle first earlier)
    (back : Paid longest middle rest second later) :
    Paid longest stream rest (first + second) (earlier ++ later) where
  strokes := by
    rw [bytes_read_append]
    exact Nat.add_le_add front.strokes back.strokes
  calls := by rw [calls_made_append, back.calls, front.calls, Nat.add_assoc]
  bytes := by
    have before := front.bytes
    have behind := back.bytes
    rw [bytes_read_append, calls_made_append, Nat.add_mul]
    omega

theorem of_le (paid : Paid longest stream rest first earlier) (less : fewer ≤ first) :
    Paid longest stream rest fewer earlier :=
  { paid with strokes := Nat.le_trans less paid.strokes }

end Paid

theorem paid_of_call {longest : Nat} {stream called : CodeStream} {program : Bytes}
    (bound : program.length ≤ longest) (entered : stream.call? program = some called) :
    Paid longest stream called 0 [.called] := by
  obtain ⟨calls, -⟩ := calls_of_call entered
  unfold call? at entered
  split at entered
  · simp at entered
  · obtain rfl := by simpa using entered
    refine ⟨Nat.zero_le _, calls, ?_⟩
    show 0 + (program :: stream.frames).flatten.length ≤ stream.frames.flatten.length + 1 * longest
    rw [List.flatten_cons, List.length_append]
    omega

end ShapeFont.CodeStream
