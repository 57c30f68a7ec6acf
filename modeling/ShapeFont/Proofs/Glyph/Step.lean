import ShapeFont.Glyph.Run

/-!
# What a step can do

Everything that a step of a glyph program can do, one rule for each way to go on and one for each
way to fail. Later proofs go through the rules and do not open `step`.
-/

namespace ShapeFont

/-- Calls of subshapes act on the stream, all other instructions on the pen alone. -/
theorem Instruction.subshape_or_plain (instruction : Instruction) :
    (∃ code, instruction = .subshape code) ∨ ∀ code, instruction ≠ .subshape code := by
  cases instruction with
  | subshape code => exact .inl ⟨code, rfl⟩
  | _ =>
      right
      intro code
      simp

namespace Glyph

universe u

variable {α : Type u} [Scalar α]

/-- How a step goes on from an instruction that was read and the stream behind it. -/
inductive Proceeds (setting : Setting) (pen : Pen α) (instruction : Instruction)
    (middle : CodeStream) : List (Stroke α) → Pen α → CodeStream → Prop where
  | skipped (skip : pen.skipNext = true) :
      Proceeds setting pen instruction middle [] { pen with skipNext := false } middle
  | called {code : Nat} {program : Bytes} {stream : CodeStream} (carry : pen.skipNext = false)
      (subshape : instruction = .subshape code) (found : setting.font.glyph? code = some program)
      (entered : middle.call? program.wrapped = some stream) :
      Proceeds setting pen instruction middle [] pen stream
  | performed {drawn : List (Stroke α)} {after : Pen α} (carry : pen.skipNext = false)
      (plain : ∀ code, instruction ≠ .subshape code)
      (done : pen.perform setting.vertical instruction = .ok (drawn, after)) :
      Proceeds setting pen instruction middle drawn after middle

/-- How a step fails, on what was read. -/
inductive Fails (setting : Setting) (pen : Pen α) :
    Fetch → List (Stroke α) → Pen α → GlyphFault → Prop where
  | skippedOperands {legs : List Leg} {fault : GlyphFault} (skip : pen.skipNext = true) :
      Fails setting pen (.faulty legs fault) [] pen fault
  | operands {legs : List Leg} {fault : GlyphFault} (carry : pen.skipNext = false) :
      Fails setting pen (.faulty legs fault) (pen.drawLegs legs).1 (pen.drawLegs legs).2 fault
  | missing {code : Nat} {middle : CodeStream} (carry : pen.skipNext = false)
      (absent : setting.font.glyph? code = none) :
      Fails setting pen (.ready (.subshape code) middle) [] pen .missingSubshape
  | nested {code : Nat} {program : Bytes} {middle : CodeStream} (carry : pen.skipNext = false)
      (found : setting.font.glyph? code = some program) (refused : middle.call? program.wrapped = none) :
      Fails setting pen (.ready (.subshape code) middle) [] pen .nestingLimit
  | performed {instruction : Instruction} {middle : CodeStream} {fault : GlyphFault}
      (carry : pen.skipNext = false) (plain : ∀ code, instruction ≠ .subshape code)
      (failed : pen.perform setting.vertical instruction = .error fault) :
      Fails setting pen (.ready instruction middle) [] pen fault

theorem perform_of_plain {setting : Setting} {pen : Pen α} {stream : CodeStream}
    {instruction : Instruction} (plain : ∀ code, instruction ≠ .subshape code) :
    perform setting pen instruction stream =
      match pen.perform setting.vertical instruction with
      | .error fault => .faulty [] pen fault
      | .ok (drawn, pen) => .next drawn pen stream := by
  cases instruction with
  | subshape code => exact absurd rfl (plain code)
  | _ => rfl

theorem step_rules (setting : Setting) (pen : Pen α) (stream : CodeStream) :
    match step setting pen stream with
    | .finished => Instruction.fetch setting.font.kind stream = .finished
    | .faulty drawn after fault =>
        Fails setting pen (Instruction.fetch setting.font.kind stream) drawn after fault
    | .next drawn after rest => ∃ instruction middle,
        Instruction.fetch setting.font.kind stream = .ready instruction middle ∧
          Proceeds setting pen instruction middle drawn after rest := by
  unfold step
  cases Instruction.fetch setting.font.kind stream with
  | finished => rfl
  | faulty legs fault =>
      cases skip : pen.skipNext with
      | true => exact .skippedOperands skip
      | false => exact .operands skip
  | ready instruction middle =>
      cases skip : pen.skipNext with
      | true => exact ⟨instruction, middle, rfl, .skipped skip⟩
      | false =>
          rcases instruction.subshape_or_plain with ⟨code, rfl⟩ | plain
          · simp only [perform, enter]
            cases found : setting.font.glyph? code with
            | none => exact .missing skip found
            | some program =>
                dsimp only
                cases entered : middle.call? program.wrapped with
                | none => exact .nested skip found entered
                | some called =>
                    exact ⟨.subshape code, middle, rfl, .called skip rfl found entered⟩
          · simp only [perform_of_plain plain]
            cases done : pen.perform setting.vertical instruction with
            | error fault => exact .performed skip plain done
            | ok result => exact ⟨instruction, middle, rfl, .performed skip plain done⟩

section

variable {setting : Setting} {pen after : Pen α} {stream rest : CodeStream}
  {drawn : List (Stroke α)} {fault : GlyphFault}

theorem proceeds_of_step (taken : step setting pen stream = .next drawn after rest) :
    ∃ instruction middle, Instruction.fetch setting.font.kind stream = .ready instruction middle ∧
      Proceeds setting pen instruction middle drawn after rest := by
  have rule := step_rules setting pen stream
  rwa [taken] at rule

theorem fails_of_step (taken : step setting pen stream = .faulty drawn after fault) :
    Fails setting pen (Instruction.fetch setting.font.kind stream) drawn after fault := by
  have rule := step_rules setting pen stream
  rwa [taken] at rule

theorem finished_of_step (taken : step setting pen stream = .finished) :
    Instruction.fetch setting.font.kind stream = .finished := by
  have rule := step_rules setting pen stream
  rwa [taken] at rule

end

end Glyph

end ShapeFont
