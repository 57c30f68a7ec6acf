import ShapeFont.Proofs.Instruction.Encoding
import ShapeFont.Proofs.Stream.Operations

/-!
# What reading an instruction asks of the stream

`operations` lists it: the opcode and its operands byte by byte, and the discard at the end of a
shape. The bytes read pay for all that the instruction can draw, since every stroke has an
instruction of its own or at least two bytes in a list.
-/

namespace ShapeFont.Instruction

open CodeStream

/-- What reading the next instruction asks of the stream. Operands that run out are asked for once
more than there are bytes. -/
def operations (kind : FontKind) (stream : CodeStream) : List Operation :=
  match stream.unread with
  | [] => [.pop]
  | byte :: ahead =>
      match operandWidth? kind byte.toNat ahead with
      | none => List.replicate stream.unread.length .pop ++ [.pop]
      | some width =>
          List.replicate (1 + width) .pop ++ if byte.toNat = 0 then [.discard] else []

def strokeLimit : Instruction → Nat
  | .travel legs => legs.length
  | _ => 1

def fetchLimit : Fetch → Nat
  | .finished => 0
  | .faulty legs _ => legs.length
  | .ready instruction _ => instruction.strokeLimit

theorem stroke_limit_decode_le (kind : FontKind) (opcode : Nat) (operands : Bytes) :
    strokeLimit (decode kind opcode operands) ≤ 1 + operands.length := by
  unfold decode
  split
  · exact Nat.le_add_right 1 _
  · split
    case h_9 => simp [strokeLimit]
    case h_10 => exact Nat.le_trans (length_legs_le false operands) (Nat.le_add_left _ 1)
    case h_13 => simp [strokeLimit]
    case h_14 => exact Nat.le_trans (length_legs_le true operands) (Nat.le_add_left _ 1)
    all_goals exact Nat.le_add_right 1 _

theorem length_cut_legs_le (opcode : Nat) (ahead : Bytes) :
    (cutLegs opcode ahead).length ≤ ahead.length := by
  unfold cutLegs
  split
  · exact length_legs_le false ahead
  · exact length_legs_le true ahead
  · exact Nat.zero_le _

theorem length_behind_le (opcode : Nat) (rest : CodeStream) :
    (behind opcode rest).unread.length ≤ rest.unread.length := by
  unfold behind
  split
  · exact length_discard_through_zero_le rest
  · exact Nat.le_refl _

section

variable {kind : FontKind} {stream : CodeStream} {byte : UInt8} {ahead : Bytes} {width : Nat}

theorem perform_operations (front : stream.unread = byte :: ahead)
    (found : operandWidth? kind byte.toNat ahead = some width) :
    ∃ answers, stream.performAll (operations kind stream) =
        (answers, behind byte.toNat (stream.advance (1 + width))) ∧
      bytesRead answers = 1 + width ∧ callsMade answers = 0 := by
  have bound := operand_width_le found
  have enough : 1 + width ≤ stream.unread.length := by
    rw [front, List.length_cons]
    omega
  have count : (stream.unread.take (1 + width)).length = 1 + width := List.length_take_of_le enough
  simp only [operations, front, found]
  rw [perform_all_append, perform_all_pops enough]
  dsimp only
  by_cases ended : byte.toNat = 0
  · refine ⟨_, by rw [if_pos ended, behind, if_pos ended]; rfl, ?_, ?_⟩
    · rw [bytes_read_append, bytes_read_bytes, count]
      rfl
    · rw [calls_made_append, calls_made_bytes]
      rfl
  · refine ⟨_, by rw [if_neg ended, behind, if_neg ended]; rfl, ?_, ?_⟩
    · rw [bytes_read_append, bytes_read_bytes, count]
      rfl
    · rw [calls_made_append, calls_made_bytes]
      rfl

theorem perform_operations_cut (front : stream.unread = byte :: ahead)
    (cut : operandWidth? kind byte.toNat ahead = none) :
    stream.performAll (operations kind stream) =
      (stream.unread.map .byte ++ [.exhausted], { stream with frames := [] }) := by
  have nothing : (stream.advance stream.unread.length).unread = [] := by
    rw [unread_advance, List.drop_length]
  unfold operations
  split
  · next empty => simp [front] at empty
  · next other rest same =>
      obtain ⟨rfl, rfl⟩ := List.cons.inj (same.symm.trans front)
      rw [cut]
      dsimp only
      rw [perform_all_append, perform_all_pops (Nat.le_refl _), List.take_length]
      dsimp only
      rw [performAll, perform_pop_of_exhausted nothing, calls_advance]
      rfl

/-- The operations of an instruction pay for all that can come of it, and lead behind it when it can
be read. -/
theorem paid_of_operations (longest : Nat) (kind : FontKind) (stream : CodeStream) :
    ∃ answers reached, stream.performAll (operations kind stream) = (answers, reached) ∧
      Paid longest stream reached (fetchLimit (fetch kind stream)) answers ∧
      ∀ instruction middle, fetch kind stream = .ready instruction middle → reached = middle := by
  rcases front : stream.unread with _ | ⟨byte, ahead⟩
  · have ended : fetch kind stream = .finished := by
      rw [fetch, next_eq_none_iff.mpr front]
    refine ⟨[.exhausted], { stream with frames := [] }, ?_, ?_, by simp [ended]⟩
    · simp only [operations, front, performAll, perform_pop_of_exhausted front]
    · rw [ended]
      exact ⟨Nat.le_refl _, rfl, Nat.zero_le _⟩
  · rw [fetch_of_unread front]
    cases found : operandWidth? kind byte.toNat ahead with
    | none =>
        refine ⟨_, _, perform_operations_cut front found, ?_, by simp⟩
        have count : bytesRead (stream.unread.map .byte ++ [.exhausted]) = ahead.length + 1 := by
          rw [bytes_read_append, bytes_read_bytes, front]
          rfl
        have noneCalled : callsMade (stream.unread.map .byte ++ [.exhausted]) = 0 := by
          rw [calls_made_append, calls_made_bytes]
          rfl
        refine ⟨?_, ?_, ?_⟩
        · rw [count]
          exact Nat.le_succ_of_le (length_cut_legs_le byte.toNat ahead)
        · rw [noneCalled]
          rfl
        · rw [count, noneCalled, front, List.length_cons]
          simp [unread]
    | some width =>
        have bound := operand_width_le found
        obtain ⟨answers, performed, count, noneCalled⟩ := perform_operations front found
        have paid : Paid longest stream (behind byte.toNat (stream.advance (1 + width)))
            (1 + width) answers := by
          have shorter := length_behind_le byte.toNat (stream.advance (1 + width))
          rw [unread_advance, front, Nat.add_comm 1 width, List.drop_succ_cons, List.length_drop,
            Nat.add_comm width 1] at shorter
          refine ⟨Nat.le_of_eq count.symm, ?_, ?_⟩
          · rw [noneCalled, calls_behind, calls_advance]
            rfl
          · rw [count, noneCalled, front, List.length_cons]
            omega
        refine ⟨answers, _, performed, ?_⟩
        dsimp only
        cases factorFault? byte.toNat ahead with
        | some fault => exact ⟨paid.of_le (Nat.zero_le _), by simp⟩
        | none =>
            have drawable := stroke_limit_decode_le kind byte.toNat (ahead.take width)
            rw [List.length_take_of_le bound] at drawable
            exact ⟨paid.of_le drawable, fun _ _ same => (Fetch.ready.inj same).2⟩

end

end ShapeFont.Instruction
