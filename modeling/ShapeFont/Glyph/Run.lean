import ShapeFont.Glyph.Pen

/-!
# Running glyph programs

`step` reads one instruction and carries it out, or only reads it when the one before said so.
`run` goes on until the stream is empty or a fault stops it; the strokes drawn and the pen reached
up to there are part of the outcome. A run always ends: every step reads at least one byte, and a
call, which puts bytes back, can succeed a bounded number of times.
-/

namespace ShapeFont

universe u

/-- What a run of a program depends on beside pen and stream. -/
structure Setting where
  font : Font
  horizontal : Bool := true

/-- Instructions for vertical text take effect unless a font with both modes is set
horizontally. -/
def Setting.vertical (setting : Setting) : Bool := !(setting.font.isDual && setting.horizontal)

inductive Step (α : Type u) where
  | finished
  | faulty (drawn : List (Stroke α)) (pen : Pen α) (fault : GlyphFault)
  | next (drawn : List (Stroke α)) (pen : Pen α) (rest : CodeStream)
  deriving Repr, DecidableEq

structure Outcome (α : Type u) where
  strokes : List (Stroke α)
  pen : Pen α
  fault : Option GlyphFault
  deriving Repr, DecidableEq

def Outcome.after {α : Type u} (drawn : List (Stroke α)) (outcome : Outcome α) : Outcome α :=
  { outcome with strokes := drawn ++ outcome.strokes }

namespace Glyph

variable {α : Type u} [Scalar α]

/-- Puts the program of a subshape in front of the stream. -/
def enter (setting : Setting) (pen : Pen α) (code : Nat) (stream : CodeStream) : Step α :=
  match setting.font.glyph? code with
  | none => .faulty [] pen .missingSubshape
  | some program =>
      match stream.call? program.wrapped with
      | none => .faulty [] pen .nestingLimit
      | some called => .next [] pen called

def perform (setting : Setting) (pen : Pen α) (instruction : Instruction) (stream : CodeStream) :
    Step α :=
  match instruction with
  | .subshape code => enter setting pen code stream
  | _ =>
      match pen.perform setting.vertical instruction with
      | .error fault => .faulty [] pen fault
      | .ok (drawn, pen) => .next drawn pen stream

/-- Reads the next instruction and carries it out or skips it. A fault in the operands leaves the
order to skip standing; without one, the legs that were complete are drawn. -/
def step (setting : Setting) (pen : Pen α) (stream : CodeStream) : Step α :=
  match Instruction.fetch setting.font.kind stream with
  | .finished => .finished
  | .faulty legs fault =>
      if pen.skipNext then .faulty [] pen fault
      else
        let (drawn, pen) := pen.drawLegs legs
        .faulty drawn pen fault
  | .ready instruction rest =>
      if pen.skipNext then .next [] { pen with skipNext := false } rest
      else perform setting pen instruction rest

/-- The calls still allowed, then the bytes still unread. -/
def measure (stream : CodeStream) : Nat × Nat :=
  (CodeStream.maxCalls - stream.calls, stream.unread.length)

def Decreases (rest stream : CodeStream) : Prop :=
  Prod.Lex (· < ·) (· < ·) (measure rest) (measure stream)

theorem decreases_of_follows {rest stream : CodeStream} (follows : rest.Follows stream) :
    Decreases rest stream := by
  unfold Decreases measure
  rw [follows.calls]
  exact .right _ follows.shorter

theorem decreases_of_call {stream middle called : CodeStream} {program : Bytes}
    (follows : middle.Follows stream) (success : middle.call? program = some called) :
    Decreases called stream := by
  obtain ⟨calls, allowed⟩ := CodeStream.calls_of_call success
  refine .left _ _ ?_
  have same := follows.calls
  omega

theorem decreases_of_perform {setting : Setting} {pen after : Pen α} {instruction : Instruction}
    {stream middle rest : CodeStream} {drawn : List (Stroke α)} (follows : middle.Follows stream)
    (next : perform setting pen instruction middle = .next drawn after rest) :
    Decreases rest stream := by
  unfold perform at next
  split at next
  · unfold enter at next
    split at next
    · simp at next
    · split at next
      · simp at next
      · next called success =>
          obtain ⟨-, -, rfl⟩ := by simpa using next
          exact decreases_of_call follows success
  · split at next
    · simp at next
    · obtain ⟨-, -, rfl⟩ := by simpa using next
      exact decreases_of_follows follows

theorem decreases_of_step {setting : Setting} {pen after : Pen α} {stream rest : CodeStream}
    {drawn : List (Stroke α)} (next : step setting pen stream = .next drawn after rest) :
    Decreases rest stream := by
  unfold step at next
  split at next
  · simp at next
  · split at next <;> simp at next
  · next instruction middle ready =>
      have follows := Instruction.follows_of_fetch ready
      split at next
      · obtain ⟨-, -, rfl⟩ := by simpa using next
        exact decreases_of_follows follows
      · exact decreases_of_perform follows next

/-- Runs a stream to its end, behind the strokes in `done`. -/
def runFrom (setting : Setting) (done : Array (Stroke α)) (pen : Pen α) (stream : CodeStream) :
    Outcome α :=
  match _taken : step setting pen stream with
  | .finished => ⟨done.toList, pen, none⟩
  | .faulty drawn pen fault => ⟨(done ++ drawn).toList, pen, some fault⟩
  | .next drawn pen rest => runFrom setting (done ++ drawn) pen rest
termination_by measure stream
decreasing_by exact decreases_of_step _taken

def run (setting : Setting) (pen : Pen α) (stream : CodeStream) : Outcome α :=
  runFrom setting #[] pen stream

section

variable {setting : Setting} {pen after : Pen α} {stream rest : CodeStream}
  {drawn : List (Stroke α)} {fault : GlyphFault}

theorem run_from_of_finished {done : Array (Stroke α)}
    (taken : step setting pen stream = .finished) :
    runFrom setting done pen stream = ⟨done.toList, pen, none⟩ := by
  rw [runFrom]
  split <;> simp_all

theorem run_from_of_faulty {done : Array (Stroke α)}
    (taken : step setting pen stream = .faulty drawn after fault) :
    runFrom setting done pen stream = ⟨done.toList ++ drawn, after, some fault⟩ := by
  rw [runFrom]
  split <;> simp_all

theorem run_from_of_next {done : Array (Stroke α)}
    (taken : step setting pen stream = .next drawn after rest) :
    runFrom setting done pen stream = runFrom setting (done ++ drawn) after rest := by
  rw [runFrom]
  split <;> simp_all

theorem run_from_append (setting : Setting) (earlier : List (Stroke α)) (done : Array (Stroke α))
    (pen : Pen α) (stream : CodeStream) :
    runFrom setting (earlier.toArray ++ done) pen stream =
      (runFrom setting done pen stream).after earlier := by
  fun_induction runFrom setting done pen stream with
  | case1 done pen stream taken => simp [run_from_of_finished taken, Outcome.after]
  | case2 done pen stream drawn after fault taken =>
      simp [run_from_of_faulty taken, Outcome.after]
  | case3 done pen stream drawn after rest taken ih =>
      rw [run_from_of_next taken, ← ih]
      exact congrArg (runFrom setting · after rest) (Array.ext' (by simp))

theorem run_of_finished (taken : step setting pen stream = .finished) :
    run setting pen stream = ⟨[], pen, none⟩ := run_from_of_finished taken

theorem run_of_faulty (taken : step setting pen stream = .faulty drawn after fault) :
    run setting pen stream = ⟨drawn, after, some fault⟩ := run_from_of_faulty taken

/-- A run draws what its first step draws and goes on from there. -/
theorem run_of_next (taken : step setting pen stream = .next drawn after rest) :
    run setting pen stream = (run setting after rest).after drawn := by
  unfold run
  rw [run_from_of_next taken, ← run_from_append]
  exact congrArg (runFrom setting · after rest) (Array.ext' (by simp))

end

def execute (setting : Setting) (program : Bytes) (pen : Pen α) : Outcome α :=
  run setting pen (CodeStream.start program)

end Glyph

end ShapeFont
