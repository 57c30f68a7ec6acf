import ShapeFont.Glyph.Plotter
import ShapeFont.Proofs.Glyph.Step
import ShapeFont.Proofs.Instruction.Encoding

/-!
# Routines and decoder

Each routine of a plotter is compared with what the decoder reads for its opcode. With the order to skip
the routine reads the same bytes and does nothing else; without it, it does what a step does with the
instruction. So a turn is a step, and plotting a program is running it.
-/

namespace ShapeFont

universe u

variable {α : Type u}

/-- The same with the plotter's memory read as a pen. -/
def Plotter.Turn.toStep : Plotter.Turn α → Step α
  | .finished => .finished
  | .faulty drawn plotter fault => .faulty drawn plotter.toPen fault
  | .next drawn plotter rest => .next drawn plotter.toPen rest

namespace Glyph

variable [Scalar α]

def settle (setting : Setting) (pen : Pen α) : Fetch → Step α
  | .finished => .finished
  | .faulty legs fault =>
      if pen.skipNext then .faulty [] pen fault
      else .faulty (pen.drawLegs legs).1 (pen.drawLegs legs).2 fault
  | .ready instruction rest =>
      if pen.skipNext then .next [] { pen with skipNext := false } rest
      else perform setting pen instruction rest

theorem step_eq_settle (setting : Setting) (pen : Pen α) (stream : CodeStream) :
    step setting pen stream = settle setting pen (Instruction.fetch setting.font.kind stream) := by
  unfold step
  cases Instruction.fetch setting.font.kind stream <;> rfl

theorem settle_of_carry (setting : Setting) (pen : Pen α) (carry : pen.skipNext = false)
    (instruction : Instruction) (rest : CodeStream) :
    settle setting pen (.ready instruction rest) = perform setting pen instruction rest := by
  rw [settle, carry]
  rfl

end Glyph

namespace Plotter

open CodeStream Instruction Glyph

/-- What comes of an instruction that is to be skipped: of its operands, only what is wrong with them. -/
def skipping (plotter : Plotter α) : Fetch → Turn α
  | .finished => .finished
  | .faulty _ fault => .faulty [] plotter fault
  | .ready _ rest => .next [] { plotter with skipNext := false } rest

variable [Scalar α]

/-- A turn does with what is read as it should, whether or not the order to skip stands. -/
structure Agrees (setting : Setting) (plotter : Plotter α) (turn : Turn α) (read : Fetch) : Prop where
  skipped : plotter.skipNext = true → turn = plotter.skipping read
  carried : plotter.skipNext = false → turn.toStep = settle setting plotter.toPen read

variable {setting : Setting} {plotter : Plotter α} {stream : CodeStream}

/-! ### Movements -/

/-- What moves the pen leaves all else of it as it is. -/
def Moves (movement : Pen α → Stroke α × Pen α) : Prop :=
  ∀ pen, ∃ position last, (movement pen).2 = { pen with position, last }

theorem moves_vector (length direction : Nat) :
    Moves fun pen : Pen α => pen.drawVector length direction := fun _ => ⟨_, _, rfl⟩

theorem moves_leg (leg : Leg) : Moves fun pen : Pen α => pen.drawLeg leg := by
  cases leg with
  | straight dx dy => exact fun _ => ⟨_, _, rfl⟩
  | bulge dx dy height => exact fun _ => ⟨_, _, rfl⟩

theorem moves_arc (spec : ArcSpec) : Moves fun pen : Pen α => pen.drawArc spec := by
  obtain ⟨first, last, sweeps⟩ := Pen.draw_arc_sweeps (α := α) spec
  intro pen
  exact ⟨_, _, congrArg Prod.snd (sweeps pen)⟩

omit [Scalar α] in
theorem to_pen_moved {movement : Pen α → Stroke α × Pen α} (moves : Moves movement)
    (plotter : Plotter α) :
    (plotter.moved movement).2.toPen = (movement plotter.toPen).2 := by
  obtain ⟨position, last, same⟩ := moves plotter.toPen
  simp only [moved, same]
  rfl

omit [Scalar α] in
theorem to_step_draw {movement : Pen α → Stroke α × Pen α} (moves : Moves movement) :
    (plotter.draw movement stream).toStep =
      .next [(movement plotter.toPen).1] (movement plotter.toPen).2 stream := by
  rw [← to_pen_moved moves]
  rfl

/-! ### The order to skip -/

theorem agrees_faulty (fault : GlyphFault) :
    Agrees setting plotter (.faulty [] plotter fault) (.faulty [] fault) where
  skipped _ := rfl
  carried carry := by
    have still : plotter.toPen.skipNext = false := carry
    rw [settle, still]
    rfl

theorem agrees_unless_skipped {instruction : Instruction} {carried : Turn α}
    (same : carried.toStep = perform setting plotter.toPen instruction stream) :
    Agrees setting plotter (plotter.unlessSkipped stream carried) (.ready instruction stream) where
  skipped skip := if_pos skip
  carried carry := by
    rw [settle_of_carry setting plotter.toPen carry, unlessSkipped, carry]
    exact same

theorem agrees_after_operands {Item : Type} {cut : GlyphFault} {make : Item → Instruction}
    {carry : Item → CodeStream → Turn α}
    (same : ∀ item rest, (carry item rest).toStep = perform setting plotter.toPen (make item) rest)
    (read : Option (Item × CodeStream)) :
    Agrees setting plotter (plotter.afterOperands cut read carry) (.ofRead cut make read) := by
  cases read with
  | some found => exact agrees_unless_skipped (same found.1 found.2)
  | none => exact agrees_faulty cut

/-! ### Routine by routine -/

theorem agrees_scale_by {rescale : α → α → α} {make : Nat → Instruction} {zeroFault : GlyphFault}
    (same : ∀ factor rest, perform setting plotter.toPen (make factor) rest =
      .next [] { plotter.toPen with scale := rescale plotter.scale (ofInt factor) } rest) :
    Agrees setting plotter (plotter.scaleBy stream rescale zeroFault)
      (.ofFactor make zeroFault stream.next?) := by
  unfold scaleBy Fetch.ofFactor
  cases stream.next? with
  | none => exact agrees_faulty .operandCut
  | some found =>
      dsimp only
      split
      · exact agrees_faulty zeroFault
      · exact agrees_unless_skipped (same _ _).symm

theorem agrees_save :
    Agrees setting plotter (plotter.save stream) (.ready .savePosition stream) := by
  apply agrees_unless_skipped
  simp only [Glyph.perform, Pen.perform, Pen.save]
  rcases Nat.lt_or_ge plotter.saved.size Pen.savedLimit with room | full
  · have below : plotter.toPen.saved.length < Pen.savedLimit := by
      rwa [toPen, PositionStack.length_to_list]
    obtain ⟨pushed, push, held⟩ := plotter.saved.push_of_room room plotter.position
    rw [push, if_pos below]
    show Step.next [] { plotter.toPen with saved := pushed.toList } stream = _
    rw [held]
    rfl
  · have above : ¬plotter.toPen.saved.length < Pen.savedLimit := by
      rw [toPen, PositionStack.length_to_list]
      exact Nat.not_lt.mpr full
    rw [plotter.saved.push_of_full full, if_neg above]
    rfl

theorem agrees_restore :
    Agrees setting plotter (plotter.restore stream) (.ready .restorePosition stream) := by
  apply agrees_unless_skipped
  simp only [Glyph.perform, Pen.perform, Pen.restore]
  rcases Nat.eq_zero_or_pos plotter.saved.size with unused | used
  · have nothing : plotter.toPen.saved = [] :=
      List.eq_nil_of_length_eq_zero (plotter.saved.length_to_list.trans unused)
    rw [plotter.saved.pop_of_none unused, nothing]
    rfl
  · obtain ⟨point, popped, pop, held⟩ := plotter.saved.pop_of_used used
    have top : plotter.toPen.saved = point :: popped.toList := held
    rw [pop, top]
    rfl

theorem agrees_call_subshape :
    Agrees setting plotter (plotter.callSubshape setting stream)
      (.ofRead .subshapeKeyCut .subshape (readKey? setting.font.kind stream)) := by
  apply agrees_after_operands
  intro code rest
  simp only [Glyph.perform, enter]
  cases setting.font.glyph? code with
  | none => rfl
  | some program =>
      dsimp only
      cases rest.call? program.wrapped <;> rfl

theorem agrees_travel (read : Option (Leg × CodeStream)) :
    Agrees setting plotter (plotter.travel read)
      (.ofRead .operandCut (fun leg => .travel [leg]) read) :=
  agrees_after_operands (fun leg _ => to_step_draw (moves_leg leg)) read

theorem agrees_arc (read : Option (ArcSpec × CodeStream)) :
    Agrees setting plotter (plotter.arc read) (.ofRead .operandCut .arc read) :=
  agrees_after_operands (fun spec _ => to_step_draw (moves_arc spec)) read

theorem travel_list_of_skip (skip : plotter.skipNext = true) (bulged : Bool) (done : Array Leg)
    (stream : CodeStream) :
    travelList bulged #[] plotter stream =
      plotter.skipping (.ofList (readList bulged done stream)) := by
  fun_induction readList bulged done stream with
  | case1 done stream cut =>
      rw [travel_list_unfold, cut]
      rfl
  | case2 done stream rest ended =>
      rw [travel_list_unfold, ended]
      rfl
  | case3 done stream leg rest member ih =>
      rw [travel_list_unfold, member]
      dsimp only
      rw [if_pos skip, ih]

theorem travel_list_of_carry {origin : Pen α} (still : origin.skipNext = false) (bulged : Bool)
    (done : Array Leg) (drawn : Array (Stroke α)) (plotter : Plotter α) (stream : CodeStream)
    (carry : plotter.skipNext = false)
    (begun : origin.drawLegs done.toList = (drawn.toList, plotter.toPen)) :
    (travelList bulged drawn plotter stream).toStep =
      settle setting origin (.ofList (readList bulged done stream)) := by
  fun_induction readList bulged done stream generalizing drawn plotter with
  | case1 done stream cut =>
      rw [travel_list_unfold, cut, Fetch.ofList, settle, still, begun]
      rfl
  | case2 done stream rest ended =>
      have same : { plotter with skipNext := false } = plotter := by rw [← carry]
      rw [travel_list_unfold, ended, Fetch.ofList, settle, still]
      show Step.next drawn.toList { plotter with skipNext := false }.toPen rest =
        .next (origin.drawLegs done.toList).1 (origin.drawLegs done.toList).2 rest
      rw [same, begun]
  | case3 done stream leg rest member ih =>
      rw [travel_list_unfold, member]
      dsimp only
      have still : (plotter.moved (·.drawLeg leg)).2.skipNext = false := carry
      rw [if_neg (Bool.eq_false_iff.mp carry)]
      apply ih _ _ still
      rw [Array.toList_push, Array.toList_push, Pen.draw_legs_append, begun,
        to_pen_moved (moves_leg leg)]
      rfl

theorem agrees_travel_list (bulged : Bool) :
    Agrees setting plotter (travelList bulged #[] plotter stream)
      (.ofList (readList bulged #[] stream)) where
  skipped skip := travel_list_of_skip skip bulged #[] stream
  carried carry := travel_list_of_carry carry bulged #[] #[] plotter stream carry rfl

/-- The order to skip does not stand when it is given, so not to give it leaves the pen as it is. -/
theorem agrees_skip_unless_vertical :
    Agrees setting plotter (plotter.skipUnlessVertical setting stream)
      (.ready .verticalOnly stream) where
  skipped skip := if_pos skip
  carried carry := by
    rw [settle_of_carry setting plotter.toPen carry, skipUnlessVertical, unlessSkipped, carry]
    cases vertical : setting.vertical with
    | false => simp [Glyph.perform, Pen.perform, vertical, Turn.toStep, toPen]
    | true => simp [Glyph.perform, Pen.perform, vertical, Turn.toStep, toPen, carry]

theorem agrees_ignore :
    Agrees setting plotter (plotter.ignore stream) (.ready .unassigned stream) where
  skipped _ := rfl
  carried carry := by
    have same : { plotter with skipNext := false } = plotter := by rw [← carry]
    rw [settle_of_carry setting plotter.toPen carry, ignore, same]
    rfl

theorem agrees_routine (setting : Setting) (plotter : Plotter α) (stream : CodeStream)
    (opcode : Nat) :
    Agrees setting plotter (plotter.routine setting stream opcode)
      (readOperands setting.font.kind opcode stream) := by
  match opcode with
  | 0 => exact agrees_unless_skipped rfl
  | 1 => exact agrees_unless_skipped rfl
  | 2 => exact agrees_unless_skipped rfl
  | 3 => exact agrees_scale_by fun _ _ => rfl
  | 4 => exact agrees_scale_by fun _ _ => rfl
  | 5 => exact agrees_save
  | 6 => exact agrees_restore
  | 7 => exact agrees_call_subshape
  | 8 => exact agrees_travel _
  | 9 => exact agrees_travel_list false
  | 10 => exact agrees_arc _
  | 11 => exact agrees_arc _
  | 12 => exact agrees_travel _
  | 13 => exact agrees_travel_list true
  | 14 => exact agrees_skip_unless_vertical
  | _ + 15 => exact agrees_ignore

/-! ### Turns and runs -/

/-- What a turn does follows from what the decoder reads. -/
theorem agrees_turn (setting : Setting) (plotter : Plotter α) (stream : CodeStream) :
    Agrees setting plotter (plotter.turn setting stream) (fetch setting.font.kind stream) := by
  unfold turn fetch
  cases stream.next? with
  | none => exact ⟨fun _ => rfl, fun _ => rfl⟩
  | some found =>
      dsimp only
      split
      · exact agrees_unless_skipped (to_step_draw (moves_vector _ _))
      · exact agrees_routine setting plotter _ _

theorem to_step_skipping (skip : plotter.skipNext = true) (read : Fetch) :
    (plotter.skipping read).toStep = settle setting plotter.toPen read := by
  have also : plotter.toPen.skipNext = true := skip
  cases read with
  | finished => rfl
  | faulty legs fault =>
      rw [settle, also]
      rfl
  | ready instruction rest =>
      rw [settle, also]
      rfl

theorem to_step_turn (setting : Setting) (plotter : Plotter α) (stream : CodeStream) :
    (plotter.turn setting stream).toStep = step setting plotter.toPen stream := by
  have agrees := agrees_turn setting plotter stream
  rw [step_eq_settle]
  cases skip : plotter.skipNext with
  | true => rw [agrees.skipped skip, to_step_skipping skip]
  | false => exact agrees.carried skip

theorem decreases_of_turn {after : Plotter α} {drawn : List (Stroke α)} {rest : CodeStream}
    (taken : plotter.turn setting stream = .next drawn after rest) : Decreases rest stream := by
  have step := to_step_turn setting plotter stream
  rw [taken] at step
  exact decreases_of_step step.symm

end Plotter

/-- An outcome with the plotter that is left behind. -/
structure Plotting (α : Type u) where
  strokes : List (Stroke α)
  plotter : Plotter α
  fault : Option GlyphFault

def Plotting.toOutcome (plotting : Plotting α) : Outcome α :=
  ⟨plotting.strokes, plotting.plotter.toPen, plotting.fault⟩

namespace Plotter

open Glyph

variable [Scalar α]

-- It stands behind the comparison because that turns come to an end is known from the steps.
def runFrom (setting : Setting) (done : Array (Stroke α)) (plotter : Plotter α)
    (stream : CodeStream) : Plotting α :=
  match _taken : plotter.turn setting stream with
  | .finished => ⟨done.toList, plotter, none⟩
  | .faulty drawn plotter fault => ⟨(done ++ drawn).toList, plotter, some fault⟩
  | .next drawn plotter rest => runFrom setting (done ++ drawn) plotter rest
termination_by measure stream
decreasing_by exact decreases_of_turn _taken

def execute (setting : Setting) (program : Bytes) (plotter : Plotter α) : Plotting α :=
  runFrom setting #[] plotter (CodeStream.start program)

theorem to_outcome_run_from (setting : Setting) (done : Array (Stroke α)) (plotter : Plotter α)
    (stream : CodeStream) :
    (runFrom setting done plotter stream).toOutcome =
      Glyph.runFrom setting done plotter.toPen stream := by
  fun_induction runFrom setting done plotter stream with
  | case1 done plotter stream taken =>
      have step := to_step_turn setting plotter stream
      rw [taken] at step
      rw [run_from_of_finished step.symm]
      rfl
  | case2 done plotter stream drawn after fault taken =>
      have step := to_step_turn setting plotter stream
      rw [taken] at step
      rw [run_from_of_faulty step.symm]
      simp [Plotting.toOutcome]
  | case3 done plotter stream drawn after rest taken ih =>
      have step := to_step_turn setting plotter stream
      rw [taken] at step
      rw [ih, run_from_of_next step.symm]

/-- Plotting a program is running it. -/
theorem to_outcome_execute (setting : Setting) (program : Bytes) (plotter : Plotter α) :
    (plotter.execute setting program).toOutcome =
      Glyph.execute setting program plotter.toPen := to_outcome_run_from _ _ _ _

/-- What the slots hold from an earlier glyph has no say in the next one. -/
theorem to_outcome_begin_glyph (setting : Setting) (program : Bytes) (plotter : Plotter α)
    (scale : α) :
    ((plotter.beginGlyph scale).execute setting program).toOutcome =
      Glyph.execute setting program (plotter.toPen.beginGlyph scale) := by
  rw [to_outcome_execute, to_pen_begin_glyph]

end Plotter

end ShapeFont
