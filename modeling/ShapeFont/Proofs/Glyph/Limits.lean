import Std.Data.TreeMap.Lemmas
import ShapeFont.Proofs.Glyph.Step
import ShapeFont.Proofs.Instruction.Operations

/-!
# What a run can cost

`runOperations` lists all that a run of a program asks of its stream, in order. What a run draws is
paid for by the bytes it reads, and those by the bytes of its program and of the programs that it
calls, of which there is a limited number.
-/

namespace ShapeFont

open CodeStream

namespace Font

def longestProgram (font : Font) : Nat :=
  (font.glyphs.toList.map fun entry => entry.2.length).max?.getD 0

theorem length_le_longest {font : Font} {code : Nat} {program : Bytes}
    (found : font.glyph? code = some program) : program.length ≤ font.longestProgram := by
  unfold glyph? at found
  split at found
  · have member : (code, program) ∈ font.glyphs.toList :=
      Std.TreeMap.mem_toList_iff_getElem?_eq_some.mpr found
    exact List.le_max?_getD_of_mem (List.mem_map_of_mem member)
  · simp at found

end Font

namespace Glyph

universe u

variable {α : Type u} [Scalar α]

open Instruction

theorem length_draw_legs (pen : Pen α) (legs : List Leg) :
    (pen.drawLegs legs).1.length = legs.length := by
  induction legs generalizing pen with
  | nil => rfl
  | cons leg legs ih => rw [Pen.draw_legs_cons, List.length_cons, List.length_cons, ih]

theorem length_drawn_le {pen after : Pen α} {vertical : Bool} {instruction : Instruction}
    {drawn : List (Stroke α)} (done : pen.perform vertical instruction = .ok (drawn, after)) :
    drawn.length ≤ instruction.strokeLimit := by
  cases instruction with
  | travel legs =>
      obtain ⟨rfl, rfl⟩ := Prod.mk.inj (Except.ok.inj done)
      exact Nat.le_of_eq (length_draw_legs pen legs)
  | savePosition =>
      simp only [Pen.perform, Pen.save] at done
      split at done
      · obtain ⟨rfl, -⟩ := Prod.mk.inj (Except.ok.inj done)
        exact Nat.zero_le 1
      · simp at done
  | restorePosition =>
      simp only [Pen.perform, Pen.restore] at done
      split at done
      · simp at done
      · obtain ⟨rfl, -⟩ := Prod.mk.inj (Except.ok.inj done)
        exact Nat.le_refl 1
  | _ =>
      obtain ⟨rfl, -⟩ := Prod.mk.inj (Except.ok.inj done)
      simp [strokeLimit]

def callOperations (setting : Setting) : Fetch → List Operation
  | .ready (.subshape code) _ =>
      match setting.font.glyph? code with
      | some program => [.call program.wrapped]
      | none => []
  | _ => []

def stepOperations (setting : Setting) (pen : Pen α) (stream : CodeStream) : List Operation :=
  Instruction.operations setting.font.kind stream ++
    if pen.skipNext then []
    else callOperations setting (Instruction.fetch setting.font.kind stream)

/-- All that a run asks of its stream. -/
def runOperations (setting : Setting) (pen : Pen α) (stream : CodeStream) : List Operation :=
  match _taken : step setting pen stream with
  | .next _ after rest => stepOperations setting pen stream ++ runOperations setting after rest
  | _ => stepOperations setting pen stream
termination_by measure stream
decreasing_by exact decreases_of_step _taken

section

variable {setting : Setting} {pen after : Pen α} {stream rest : CodeStream}
  {drawn : List (Stroke α)} {fault : GlyphFault}

theorem call_operations_plain {instruction : Instruction} {middle : CodeStream}
    (plain : ∀ code, instruction ≠ .subshape code) :
    callOperations setting (.ready instruction middle) = [] := by
  cases instruction with
  | subshape code => exact absurd rfl (plain code)
  | _ => rfl

omit [Scalar α] in
theorem step_operations_of_skip (skip : pen.skipNext = true) :
    stepOperations setting pen stream = Instruction.operations setting.font.kind stream := by
  rw [stepOperations, if_pos skip, List.append_nil]

omit [Scalar α] in
theorem step_operations_of_carry {fetched : Fetch} (carry : pen.skipNext = false)
    (read : Instruction.fetch setting.font.kind stream = fetched) :
    stepOperations setting pen stream =
      Instruction.operations setting.font.kind stream ++ callOperations setting fetched := by
  rw [stepOperations, carry, read]
  rfl

omit [Scalar α] in
theorem step_operations_of_plain
    (plain : callOperations setting (Instruction.fetch setting.font.kind stream) = []) :
    stepOperations setting pen stream = Instruction.operations setting.font.kind stream := by
  rw [stepOperations, plain, ite_self, List.append_nil]

theorem paid_of_fails {fetched : Fetch} (rule : Fails setting pen fetched drawn after fault)
    (read : Instruction.fetch setting.font.kind stream = fetched) :
    ∃ answers reached, stream.performAll (stepOperations setting pen stream) = (answers, reached) ∧
      Paid setting.font.longestProgram stream reached drawn.length answers := by
  obtain ⟨answers, reached, performed, paid, lead⟩ :=
    paid_of_operations setting.font.longestProgram setting.font.kind stream
  rw [read] at paid lead
  cases rule with
  | skippedOperands skip =>
      rw [step_operations_of_skip skip]
      exact ⟨answers, reached, performed, paid.of_le (Nat.zero_le _)⟩
  | operands carry =>
      rw [step_operations_of_plain (by rw [read]; rfl), length_draw_legs]
      exact ⟨answers, reached, performed, paid⟩
  | missing carry absent =>
      rw [step_operations_of_plain (by rw [read, callOperations, absent])]
      exact ⟨answers, reached, performed, paid.of_le (Nat.zero_le _)⟩
  | performed carry plain failed =>
      rw [step_operations_of_plain (by rw [read]; exact call_operations_plain plain)]
      exact ⟨answers, reached, performed, paid.of_le (Nat.zero_le _)⟩
  | @nested code program middle carry found refused =>
      obtain rfl := lead _ _ rfl
      -- The call is asked for and refused, which costs nothing.
      have asked : Paid setting.font.longestProgram reached reached 0 [.refused] := by
        refine ⟨Nat.zero_le _, rfl, ?_⟩
        show 0 + _ ≤ _ + 0 * _
        omega
      refine ⟨answers ++ [.refused], reached, ?_, (paid.append asked).of_le (Nat.zero_le _)⟩
      rw [step_operations_of_carry carry read, perform_all_append, performed, callOperations, found]
      simp only [performAll, CodeStream.perform, refused]

theorem paid_of_proceeds {instruction : Instruction} {middle : CodeStream}
    (rule : Proceeds setting pen instruction middle drawn after rest)
    (read : Instruction.fetch setting.font.kind stream = .ready instruction middle) :
    ∃ answers, stream.performAll (stepOperations setting pen stream) = (answers, rest) ∧
      Paid setting.font.longestProgram stream rest drawn.length answers := by
  obtain ⟨answers, reached, performed, paid, lead⟩ :=
    paid_of_operations setting.font.longestProgram setting.font.kind stream
  obtain rfl := lead _ _ read
  rw [read] at paid
  cases rule with
  | skipped skip =>
      rw [step_operations_of_skip skip]
      exact ⟨answers, performed, paid.of_le (Nat.zero_le _)⟩
  | performed carry plain done =>
      rw [step_operations_of_plain (by rw [read]; exact call_operations_plain plain)]
      exact ⟨answers, performed, paid.of_le (length_drawn_le done)⟩
  | @called code program _ carry subshape found entered =>
      subst subshape
      have bound := Nat.le_trans program.wrapped_prefix.length_le (Font.length_le_longest found)
      have put := paid_of_call bound entered
      refine ⟨answers ++ [.called], ?_, (paid.append put).of_le (Nat.zero_le _)⟩
      rw [step_operations_of_carry carry read, perform_all_append, performed, callOperations, found]
      simp only [performAll, CodeStream.perform, entered]

theorem paid_of_finished (taken : step setting pen stream = .finished) :
    ∃ answers reached, stream.performAll (stepOperations setting pen stream) = (answers, reached) ∧
      Paid setting.font.longestProgram stream reached 0 answers := by
  obtain ⟨answers, reached, performed, paid, -⟩ :=
    paid_of_operations setting.font.longestProgram setting.font.kind stream
  rw [step_operations_of_plain (by rw [finished_of_step taken]; rfl)]
  exact ⟨answers, reached, performed, paid.of_le (Nat.zero_le _)⟩

/-- The strokes of a run are paid for by the bytes it reads, up to its end or its fault. -/
theorem paid_of_run (setting : Setting) (pen : Pen α) (stream : CodeStream) :
    ∃ answers reached, stream.performAll (runOperations setting pen stream) = (answers, reached) ∧
      Paid setting.font.longestProgram stream reached (run setting pen stream).strokes.length
        answers := by
  fun_induction runOperations setting pen stream with
  | case1 pen stream drawn after rest taken ih =>
      obtain ⟨instruction, middle, read, rule⟩ := proceeds_of_step taken
      obtain ⟨first, stepped, front⟩ := paid_of_proceeds rule read
      obtain ⟨second, reached, performed, back⟩ := ih
      refine ⟨first ++ second, reached, ?_, ?_⟩
      · rw [perform_all_append, stepped, performed]
      · have parts : (run setting pen stream).strokes.length =
            drawn.length + (run setting after rest).strokes.length := by
          rw [run_of_next taken]
          exact List.length_append
        rw [parts]
        exact front.append back
  | case2 pen stream other =>
      cases taken : step setting pen stream with
      | finished =>
          rw [run_of_finished taken]
          exact paid_of_finished taken
      | faulty drawn after fault =>
          rw [run_of_faulty taken]
          exact paid_of_fails (fails_of_step taken) rfl
      | next drawn after rest => exact absurd taken (other drawn after rest)

theorem run_operations_of_next (taken : step setting pen stream = .next drawn after rest) :
    runOperations setting pen stream =
      stepOperations setting pen stream ++ runOperations setting after rest := by
  rw [runOperations]
  split <;> simp_all

inductive Reaches (setting : Setting) : Pen α → CodeStream → Pen α → CodeStream → Prop where
  | start {pen : Pen α} {stream : CodeStream} : Reaches setting pen stream pen stream
  | next {pen middle after : Pen α} {stream through rest : CodeStream} {drawn : List (Stroke α)}
      (taken : step setting pen stream = .next drawn middle through)
      (later : Reaches setting middle through after rest) : Reaches setting pen stream after rest

theorem operations_of_reaches (reach : Reaches setting pen stream after rest) :
    ∃ before, before <+: runOperations setting pen stream ∧
      (stream.performAll before).2 = rest := by
  induction reach with
  | start => exact ⟨[], List.nil_prefix, rfl⟩
  | @next pen middle after stream through rest drawn taken later ih =>
      obtain ⟨before, front, reached⟩ := ih
      obtain ⟨instruction, behind, read, rule⟩ := proceeds_of_step taken
      obtain ⟨first, stepped, -⟩ := paid_of_proceeds rule read
      refine ⟨stepOperations setting pen stream ++ before, ?_, ?_⟩
      · rw [run_operations_of_next taken]
        exact (List.prefix_append_right_inj _).mpr front
      · rw [perform_all_append, stepped]
        exact reached

/-- Whatever the programs of the font call, a run ends, and `runOperations` is all that it asks of
its stream: it reads no more bytes than its program and 1024 programs of the font have, draws at
most one stroke a byte, calls at most 1024 programs and is never more than 17 programs deep. -/
theorem execute_within_limits (setting : Setting) (program : Bytes) (pen : Pen α) :
    let start := CodeStream.start program
    let operations := runOperations setting pen start
    let answers := (start.performAll operations).1
    (∀ after rest, Reaches setting pen start after rest →
      ∃ before, before <+: operations ∧ (start.performAll before).2 = rest) ∧
    bytesRead answers ≤ program.length + 1024 * setting.font.longestProgram ∧
    (execute setting program pen).strokes.length ≤ bytesRead answers ∧
    callsMade answers ≤ 1024 ∧
    ∀ before, before <+: operations → (start.performAll before).2.depth ≤ 17 := by
  intro start operations answers
  obtain ⟨counted, reached, performed, paid⟩ := paid_of_run setting pen start
  have same : answers = counted := congrArg Prod.fst performed
  have allowed : reached.calls ≤ maxCalls := by
    have unused : start.calls ≤ maxCalls := Nat.zero_le _
    have bounded := calls_perform_all_le unused operations
    rwa [performed] at bounded
  have calls : callsMade answers ≤ maxCalls := by
    have total := paid.calls
    rw [← same] at total
    omega
  have ahead : start.unread = program.counted := List.append_nil program.counted
  refine ⟨fun after rest reach => operations_of_reaches reach, ?_, ?_, calls, ?_⟩
  · have bytes := paid.bytes
    rw [← same, ahead] at bytes
    have most := Nat.mul_le_mul_right setting.font.longestProgram calls
    have shown := program.counted_prefix.length_le
    exact Nat.le_trans (by omega) (Nat.add_le_add_left most _)
  · rw [same]
    exact paid.strokes
  · intro before _
    have single : start.depth ≤ maxDepth + 1 := Nat.le_add_left 1 maxDepth
    exact depth_perform_all_le single before

end

end Glyph

end ShapeFont
