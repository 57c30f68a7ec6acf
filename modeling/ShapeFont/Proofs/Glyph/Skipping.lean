import ShapeFont.Proofs.Glyph.Dispatch

/-!
# Skipping an instruction

An instruction that is skipped is read in full, so the one behind it starts at the same byte as if
it had been carried out. Whatever its opcode, only its operands can fail it. All of this is about
the routines, each of which makes its own test for the order to skip.
-/

namespace ShapeFont.Plotter

open Instruction CodeStream Glyph

universe u

variable {α : Type u} [Scalar α]

theorem turn_of_skip {setting : Setting} {plotter : Plotter α} {stream : CodeStream} {byte : UInt8}
    {ahead : Bytes} (skip : plotter.skipNext = true) (front : stream.unread = byte :: ahead) :
    plotter.turn setting stream =
      match operandWidth? setting.font.kind byte.toNat ahead with
      | none => .faulty [] plotter (cutFault byte.toNat)
      | some width =>
          match factorFault? byte.toNat ahead with
          | some fault => .faulty [] plotter fault
          | none => .next [] { plotter with skipNext := false }
              (behind byte.toNat (stream.advance (1 + width))) := by
  rw [(agrees_turn setting plotter stream).skipped skip, fetch_of_unread front]
  cases operandWidth? setting.font.kind byte.toNat ahead with
  | none => rfl
  | some width =>
      dsimp only
      cases factorFault? byte.toNat ahead with
      | none => rfl
      | some fault => rfl

theorem behind_of_carried {setting : Setting} {pen after : Pen α} {stream rest : CodeStream}
    {drawn : List (Stroke α)} {byte : UInt8} {ahead : Bytes} {width : Nat}
    (carry : pen.skipNext = false) (front : stream.unread = byte :: ahead)
    (found : operandWidth? setting.font.kind byte.toNat ahead = some width)
    (taken : step setting pen stream = .next drawn after rest) :
    if byte = 7 then ∃ program, (stream.advance (1 + width)).call? program = some rest
    else rest = behind byte.toNat (stream.advance (1 + width)) := by
  obtain ⟨instruction, middle, read, rule⟩ := proceeds_of_step taken
  rw [fetch_of_unread front, found] at read
  dsimp only at read
  cases zero : factorFault? byte.toNat ahead with
  | some fault => simp [zero] at read
  | none =>
      rw [zero] at read
      obtain ⟨made, reached⟩ := by simpa using read
      have seven : byte = 7 ↔ byte.toNat = 7 := UInt8.toNat_inj.symm
      cases rule with
      | skipped skip => simp [carry] at skip
      | @called _ program _ _ subshape _ entered =>
          have opcode := decode_subshape (made.trans subshape)
          rw [if_pos (seven.mpr opcode)]
          rw [← reached, opcode] at entered
          exact ⟨program.wrapped, entered⟩
      | performed _ plain done =>
          have other : ¬byte = 7 := by
            intro same
            rw [seven.mp same] at made
            exact plain _ made.symm
          rw [if_neg other]
          exact reached.symm

/-- A turn that carries an instruction out has read what a turn that skips it reads. Only the
program of a subshape may stand in front of the rest. -/
theorem turn_behind {setting : Setting} {plotter after : Plotter α} {stream rest : CodeStream}
    {drawn : List (Stroke α)} {byte : UInt8} {ahead : Bytes} {width : Nat}
    (carry : plotter.skipNext = false) (front : stream.unread = byte :: ahead)
    (found : operandWidth? setting.font.kind byte.toNat ahead = some width)
    (taken : plotter.turn setting stream = .next drawn after rest) :
    if byte = 7 then
      ∃ program, (behind byte.toNat (stream.advance (1 + width))).call? program = some rest
    else rest = behind byte.toNat (stream.advance (1 + width)) := by
  have step := to_step_turn setting plotter stream
  rw [taken] at step
  have same := behind_of_carried carry front found step.symm
  by_cases seven : byte = 7
  · rw [if_pos seven] at same ⊢
    rw [seven]
    exact same
  · rw [if_neg seven] at same ⊢
    exact same

/-- There are no operands, so what is discarded is in the frames right behind the opcode. -/
theorem frames_behind_end {stream : CodeStream} {ahead : Bytes} (front : stream.unread = 0 :: ahead) :
    ∃ exhausted, ∃ (frame : Bytes) (lower : List Bytes),
      stream.frames = exhausted ++ (0 :: frame) :: lower ∧ (∀ dropped ∈ exhausted, dropped = []) ∧
      (behind 0 (stream.advance 1)).frames = frame.behindZero :: lower := by
  obtain ⟨exhausted, frame, lower, before, empty, rest⟩ := frames_of_next (next_of_unread front)
  refine ⟨exhausted, frame, lower, before, empty, ?_⟩
  rw [behind, if_pos rfl, rest, discard_of_frames rfl]

/-- The next instruction when it is to be skipped. It fails only where its operands run out or a
factor is zero. Otherwise nothing is drawn, all of the pen but the order to skip stays, and the
stream goes on where it would behind the instruction carried out: for a subshape, behind its number
and in front of nothing; for the end of a shape, behind what is left of the program that has it. -/
theorem skipped_instruction (setting : Setting) (plotter : Plotter α) (stream : CodeStream)
    (byte : UInt8) (ahead : Bytes) (skip : plotter.skipNext = true)
    (front : stream.unread = byte :: ahead) :
    (∃ fault, plotter.turn setting stream = .faulty [] plotter fault ∧
      (fault.kind = .emptyStream ↔ operandWidth? setting.font.kind byte.toNat ahead = none) ∧
      (fault.kind = .divideByZero ↔ byte = 3 ∧ ahead.head? = some 0) ∧
      (fault.kind = .invalidFactor ↔ byte = 4 ∧ ahead.head? = some 0) ∧
      fault.kind ∈ [.emptyStream, .divideByZero, .invalidFactor]) ∨
    (∃ width rest, plotter.turn setting stream = .next [] { plotter with skipNext := false } rest ∧
      operandWidth? setting.font.kind byte.toNat ahead = some width ∧
      ¬((byte = 3 ∨ byte = 4) ∧ ahead.head? = some 0) ∧
      rest.calls = stream.calls ∧
      (byte ≠ 0 → rest.unread = ahead.drop width) ∧
      (byte = 0 → ∃ exhausted, ∃ (frame : Bytes) (lower : List Bytes),
        stream.frames = exhausted ++ (0 :: frame) :: lower ∧ (∀ dropped ∈ exhausted, dropped = []) ∧
        rest.frames = frame.behindZero :: lower) ∧
      ∀ (other : Plotter α) drawn after reached, other.skipNext = false →
        other.turn setting stream = .next drawn after reached →
        if byte = 7 then ∃ program, rest.call? program = some reached else reached = rest) := by
  have three : byte = 3 ↔ byte.toNat = 3 := UInt8.toNat_inj.symm
  have four : byte = 4 ↔ byte.toNat = 4 := UInt8.toNat_inj.symm
  rw [turn_of_skip skip front]
  cases found : operandWidth? setting.font.kind byte.toNat ahead with
  | none =>
      left
      have kind := cut_fault_kind byte.toNat
      have uncut : ¬((byte.toNat = 3 ∨ byte.toNat = 4) ∧ ahead.head? = some 0) := by
        rintro ⟨factor, front⟩
        simp [operand_width_factor factor front] at found
      refine ⟨cutFault byte.toNat, rfl, ?_, ?_, ?_, ?_⟩
      · simp [kind]
      · rw [kind, three]
        simp only [reduceCtorEq, false_iff]
        exact fun ⟨factor, front⟩ => uncut ⟨.inl factor, front⟩
      · rw [kind, four]
        simp only [reduceCtorEq, false_iff]
        exact fun ⟨factor, front⟩ => uncut ⟨.inr factor, front⟩
      · simp [kind]
  | some width =>
      dsimp only
      cases zero : factorFault? byte.toNat ahead with
      | some fault =>
          left
          obtain ⟨front, which⟩ := factor_fault_eq_some_iff.mp zero
          refine ⟨fault, rfl, ?_, ?_, ?_, ?_⟩ <;>
            rcases which with ⟨opcode, rfl⟩ | ⟨opcode, rfl⟩ <;>
            simp [GlyphFault.kind, front, three, four, opcode]
      | none =>
          right
          refine ⟨width, behind byte.toNat (stream.advance (1 + width)), rfl, rfl, ?_, ?_, ?_, ?_, ?_⟩
          · rintro ⟨factor, front⟩
            rw [three, four] at factor
            rcases factor with opcode | opcode
            · simp [factor_fault_eq_some_iff.mpr ⟨front, .inl ⟨opcode, rfl⟩⟩] at zero
            · simp [factor_fault_eq_some_iff.mpr ⟨front, .inr ⟨opcode, rfl⟩⟩] at zero
          · rw [calls_behind, calls_advance]
          · intro plain
            have other : ¬byte.toNat = 0 := fun same => plain (UInt8.toNat_inj.mp same)
            rw [behind, if_neg other, unread_advance, front, Nat.add_comm]
            rfl
          · rintro rfl
            obtain rfl : 0 = width := Option.some.inj found
            exact frames_behind_end front
          · exact fun _ _ _ _ carry taken => turn_behind carry front found taken

/-- In a bigfont a call of glyph 261 by its long number: all seven bytes of the number are read. -/
theorem long_subshape_number_is_skipped :
    let setting : Setting := { font := { kind := .bigFont } }
    let plotter : Plotter Float := { ready Point.origin 1 with skipNext := true }
    let stream := CodeStream.start [7, 0, 5, 1, 0, 0, 0, 0, 16]
    plotter.skipNext = true ∧ stream.unread = 7 :: [0, 5, 1, 0, 0, 0, 0, 16] ∧
      ∃ rest, plotter.turn setting stream = .next [] { plotter with skipNext := false } rest ∧
        rest.unread = [16] := by
  intro setting plotter stream
  refine ⟨rfl, rfl, ?_⟩
  rcases skipped_instruction setting plotter stream 7 [0, 5, 1, 0, 0, 0, 0, 16] rfl rfl with
    ⟨fault, -, cut, divide, multiply, kinds⟩ | ⟨width, rest, taken, found, -, -, unread, -⟩
  · simp only [List.mem_cons, List.not_mem_nil, or_false] at kinds
    rcases kinds with kind | kind | kind
    · exact absurd (cut.mp kind) (by decide)
    · exact absurd (divide.mp kind).1 (by decide)
    · exact absurd (multiply.mp kind).1 (by decide)
  · obtain rfl : 7 = width := Option.some.inj found
    exact ⟨rest, taken, unread (by decide)⟩

end ShapeFont.Plotter
