import ShapeFont.Proofs.Glyph.Lockstep
import ShapeFont.Proofs.Glyph.Step
import ShapeFont.Proofs.Stroke.Chains

/-!
# Strokes start where the pen is

The pen keeps its position and the end of its last stroke apart, and every instruction moves both.
Whatever a program does, skips, calls or fails at, its strokes make a chain from where the pen was,
and the pen ends where the chain does. What is drawn and what is only a move is decided by the pen
alone, with one exception: going back to a saved position is a move even with the pen down.
-/

namespace ShapeFont

universe u

variable {α : Type u}

namespace Pen

open Stroke

/-- What strokes do to the pen that draws them: they make a chain from its last point, the pen goes
along with them, and once one of them has an end the position is there. -/
structure Leads (pen : Pen α) (drawn : List (Stroke α)) (after : Pen α) : Prop where
  chained : Chained pen.last drawn
  last : after.last = endBehind pen.last drawn
  still : drawn.filterMap target? = [] → after.position = pen.position
  moved : drawn.filterMap target? ≠ [] → after.position = after.last

variable {pen middle after : Pen α} {earlier later : List (Stroke α)}

theorem leads_of_same_place (position : after.position = pen.position)
    (last : after.last = pen.last) : pen.Leads [] after where
  chained := chained_nil pen.last
  last := last
  still _ := position
  moved drawn := absurd rfl drawn

theorem Leads.append (front : pen.Leads earlier middle) (back : middle.Leads later after) :
    pen.Leads (earlier ++ later) after where
  chained := by
    apply front.chained.append
    rw [← front.last]
    exact back.chained
  last := by rw [end_behind_append, ← front.last, back.last]
  still nowhere := by
    rw [List.filterMap_append] at nowhere
    have ⟨first, second⟩ := List.append_eq_nil_iff.mp nowhere
    rw [back.still second, front.still first]
  moved somewhere := by
    by_cases ended : later.filterMap target? = []
    · rw [List.filterMap_append, ended, List.append_nil] at somewhere
      rw [back.still ended, back.last, end_behind_of_still ended, front.moved somewhere]
    · exact back.moved ended

theorem Leads.together (leads : pen.Leads earlier after) (place : pen.last = pen.position) :
    after.last = after.position := by
  by_cases nowhere : earlier.filterMap target? = []
  · rw [leads.last, end_behind_of_still nowhere, leads.still nowhere, place]
  · exact (leads.moved nowhere).symm

theorem leads_of_stroke {stroke : Stroke α} {target : Point α}
    (starts : ∀ start, stroke.start? = some start → start = pen.last)
    (ends : stroke.target? = some target) (position : after.position = target)
    (last : after.last = target) : pen.Leads [stroke] after where
  chained := chained_singleton starts
  last := by simp [endBehind, ends, last]
  still nowhere := by simp [ends] at nowhere
  moved _ := position.trans last.symm

theorem leads_finish {drawn : Stroke α} {target : Point α} (starts : drawn.start? = some pen.last)
    (ends : drawn.target? = some target) :
    pen.Leads [(pen.finish target drawn).1] (pen.finish target drawn).2 := by
  cases down : pen.down with
  | true =>
      simp only [finish, down, if_true]
      apply leads_of_stroke _ ends rfl rfl
      intro start found
      exact (Option.some.inj (starts.symm.trans found)).symm
  | false =>
      simp only [finish, down]
      apply leads_of_stroke _ rfl rfl rfl
      intro start found
      simp [start?] at found

theorem leads_break (pen : Pen α) : pen.Leads [.newPath] pen where
  chained := by
    apply chained_singleton
    intro start found
    simp [start?] at found
  last := rfl
  still _ := rfl
  moved somewhere := absurd rfl somewhere

theorem eq_of_save {drawn : List (Stroke α)} (done : pen.save = .ok (drawn, after)) :
    drawn = [] ∧ after.position = pen.position ∧ after.last = pen.last := by
  unfold save at done
  split at done
  · have ⟨strokes, result⟩ := Prod.mk.inj (Except.ok.inj done)
    rw [← strokes, ← result]
    exact ⟨rfl, rfl, rfl⟩
  · simp at done

theorem eq_of_restore {drawn : List (Stroke α)} (done : pen.restore = .ok (drawn, after)) :
    ∃ point, drawn = [.move point] ∧ after.position = point ∧ after.last = point := by
  unfold restore at done
  split at done
  · simp at done
  · next point saved _ =>
      have ⟨strokes, result⟩ := Prod.mk.inj (Except.ok.inj done)
      rw [← strokes, ← result]
      exact ⟨point, rfl, rfl, rfl⟩

/-- Lines and arcs take a pen that is down. A move takes one that is up, or that is going back to a
saved position. -/
structure Permits (pen : Pen α) (restoring : Prop) (stroke : Stroke α) : Prop where
  drawn : stroke.start? ≠ none → pen.down = true
  moved : stroke.kind = .move → pen.down = false ∨ restoring

theorem Permits.imp {restoring other : Prop} {stroke : Stroke α}
    (permits : pen.Permits restoring stroke) (onward : restoring → other) :
    pen.Permits other stroke where
  drawn := permits.drawn
  moved move := (permits.moved move).imp_right onward

theorem permits_finish (pen : Pen α) (restoring : Prop) (target : Point α) {drawn : Stroke α}
    (line : drawn.kind ≠ .move) : pen.Permits restoring (pen.finish target drawn).1 := by
  cases down : pen.down with
  | true =>
      simp only [finish, down, if_true]
      exact ⟨fun _ => down, fun move => absurd move line⟩
  | false =>
      simp only [finish, down]
      exact ⟨fun starts => absurd rfl starts, fun _ => .inl down⟩

variable [Scalar α] (pen)

theorem leads_displace (dx dy : α) :
    pen.Leads [(pen.displace dx dy).1] (pen.displace dx dy).2 :=
  leads_finish rfl rfl

theorem leads_arc (spec : ArcSpec) : pen.Leads [(pen.drawArc spec).1] (pen.drawArc spec).2 := by
  obtain ⟨first, last, sweeps⟩ := draw_arc_sweeps (α := α) spec
  rw [sweeps]
  exact leads_finish rfl rfl

theorem leads_bulge (dx dy : α) (height : Int) :
    pen.Leads [(pen.drawBulge dx dy height).1] (pen.drawBulge dx dy height).2 := by
  apply leads_finish
  · split
    · rfl
    · rfl
  · split
    · rfl
    · rfl

theorem leads_leg (leg : Leg) : pen.Leads [(pen.drawLeg leg).1] (pen.drawLeg leg).2 := by
  cases leg with
  | straight dx dy => exact leads_displace pen _ _
  | bulge dx dy height => exact leads_bulge pen _ _ height

theorem leads_legs (legs : List Leg) : pen.Leads (pen.drawLegs legs).1 (pen.drawLegs legs).2 := by
  induction legs generalizing pen with
  | nil => exact leads_of_same_place rfl rfl
  | cons leg legs ih =>
      rw [draw_legs_cons]
      exact (leads_leg pen leg).append (ih (pen.drawLeg leg).2)

variable {pen}

theorem leads_perform {vertical : Bool} {instruction : Instruction} {drawn : List (Stroke α)}
    (done : pen.perform vertical instruction = .ok (drawn, after)) : pen.Leads drawn after := by
  have whole {result : List (Stroke α) × Pen α} (same : result = (drawn, after))
      (leads : pen.Leads result.1 result.2) : pen.Leads drawn after := by
    rwa [same] at leads
  cases instruction with
  | vector length index => exact whole (Except.ok.inj done) (leads_displace pen _ _)
  | endOfShape => exact whole (Except.ok.inj done) (leads_break pen)
  | setPen down => exact whole (Except.ok.inj done) (leads_of_same_place rfl rfl)
  | divideScale factor => exact whole (Except.ok.inj done) (leads_of_same_place rfl rfl)
  | multiplyScale factor => exact whole (Except.ok.inj done) (leads_of_same_place rfl rfl)
  | savePosition =>
      have ⟨nothing, position, last⟩ := eq_of_save done
      rw [nothing]
      exact leads_of_same_place position last
  | restorePosition =>
      have ⟨point, moves, position, last⟩ := eq_of_restore done
      rw [moves]
      apply leads_of_stroke _ rfl position last
      intro start found
      simp [start?] at found
  | subshape code => exact whole (Except.ok.inj done) (leads_of_same_place rfl rfl)
  | travel legs => exact whole (Except.ok.inj done) (leads_legs pen legs)
  | arc spec => exact whole (Except.ok.inj done) (leads_arc pen spec)
  | verticalOnly => exact whole (Except.ok.inj done) (leads_of_same_place rfl rfl)
  | unassigned => exact whole (Except.ok.inj done) (leads_of_same_place rfl rfl)

theorem permits_bulge (pen : Pen α) (restoring : Prop) (dx dy : α) (height : Int) :
    pen.Permits restoring (pen.drawBulge dx dy height).1 := by
  apply permits_finish
  split
  · simp [kind]
  · simp [kind]

theorem permits_leg (pen : Pen α) (restoring : Prop) (leg : Leg) :
    pen.Permits restoring (pen.drawLeg leg).1 := by
  cases leg with
  | straight dx dy => exact permits_finish pen restoring _ (by simp [kind])
  | bulge dx dy height => exact permits_bulge pen restoring _ _ height

theorem down_draw_leg (pen : Pen α) (leg : Leg) : (pen.drawLeg leg).2.down = pen.down := by
  cases leg with
  | straight dx dy => rfl
  | bulge dx dy height => rfl

theorem permits_legs (pen : Pen α) (restoring : Prop) (legs : List Leg) :
    ∀ stroke ∈ (pen.drawLegs legs).1, pen.Permits restoring stroke := by
  induction legs generalizing pen with
  | nil =>
      intro stroke member
      simp at member
  | cons leg legs ih =>
      rw [draw_legs_cons]
      intro stroke member
      rcases List.mem_cons.mp member with same | later
      · rw [same]
        exact permits_leg pen restoring leg
      · have permits := ih (pen.drawLeg leg).2 stroke later
        have same := down_draw_leg pen leg
        exact ⟨fun starts => same ▸ permits.drawn starts, fun move => same ▸ permits.moved move⟩

theorem permits_perform {vertical : Bool} {instruction : Instruction} {drawn : List (Stroke α)}
    (done : pen.perform vertical instruction = .ok (drawn, after)) :
    ∀ stroke ∈ drawn, pen.Permits (instruction = .restorePosition) stroke := by
  have whole {result : List (Stroke α) × Pen α} (same : result = (drawn, after))
      (permits : ∀ stroke ∈ result.1, pen.Permits (instruction = .restorePosition) stroke) :
      ∀ stroke ∈ drawn, pen.Permits (instruction = .restorePosition) stroke := by
    rwa [same] at permits
  have one {stroke : Stroke α} (permits : pen.Permits (instruction = .restorePosition) stroke) :
      ∀ drawn ∈ [stroke], pen.Permits (instruction = .restorePosition) drawn :=
    List.forall_mem_singleton.mpr permits
  have none : ∀ drawn ∈ ([] : List (Stroke α)),
      pen.Permits (instruction = .restorePosition) drawn := List.forall_mem_nil _
  cases instruction with
  | vector length index =>
      exact whole (Except.ok.inj done) (one (permits_finish pen _ _ (by simp [kind])))
  | endOfShape =>
      exact whole (Except.ok.inj done)
        (one ⟨fun starts => absurd rfl starts, fun move => by simp [kind] at move⟩)
  | setPen down => exact whole (Except.ok.inj done) none
  | divideScale factor => exact whole (Except.ok.inj done) none
  | multiplyScale factor => exact whole (Except.ok.inj done) none
  | savePosition =>
      rw [(eq_of_save done).1]
      exact none
  | restorePosition =>
      have ⟨point, moves, _⟩ := eq_of_restore done
      rw [moves]
      exact one ⟨fun starts => absurd rfl starts, fun _ => .inr rfl⟩
  | subshape code => exact whole (Except.ok.inj done) none
  | travel legs => exact whole (Except.ok.inj done) (permits_legs pen _ legs)
  | arc spec =>
      obtain ⟨first, last, sweeps⟩ := draw_arc_sweeps (α := α) spec
      rw [perform, sweeps] at done
      exact whole (Except.ok.inj done) (one (permits_finish pen _ _ (by simp [kind])))
  | verticalOnly => exact whole (Except.ok.inj done) none
  | unassigned => exact whole (Except.ok.inj done) none

end Pen

/-- What a step draws, whether it ends the run or not. -/
def Step.drawn : Step α → List (Stroke α)
  | .finished => []
  | .faulty drawn _ _ => drawn
  | .next drawn _ _ => drawn

namespace Glyph

open Stroke

variable [Scalar α]

/-- A state of a run, in which it takes its next step. -/
structure Moment (α : Type u) where
  pen : Pen α
  stream : CodeStream

namespace Moment

def drawn (setting : Setting) (moment : Moment α) : List (Stroke α) :=
  (step setting moment.pen moment.stream).drawn

/-- The next instruction takes the pen back to a saved position and is not skipped. -/
def Restores (setting : Setting) (moment : Moment α) : Prop :=
  moment.pen.skipNext = false ∧
    ∃ rest, Instruction.fetch setting.font.kind moment.stream = .ready .restorePosition rest

end Moment

def moments (setting : Setting) (pen : Pen α) (stream : CodeStream) : List (Moment α) :=
  match _taken : step setting pen stream with
  | .next _ after rest => ⟨pen, stream⟩ :: moments setting after rest
  | _ => [⟨pen, stream⟩]
termination_by measure stream
decreasing_by exact decreases_of_step _taken

section

variable {setting : Setting} {pen after : Pen α} {stream rest : CodeStream}
  {drawn : List (Stroke α)} {fault : GlyphFault}

theorem leads_of_proceeds {instruction : Instruction} {middle : CodeStream}
    (rule : Proceeds setting pen instruction middle drawn after rest) : pen.Leads drawn after := by
  cases rule with
  | skipped skip => exact Pen.leads_of_same_place rfl rfl
  | called carry subshape found entered => exact Pen.leads_of_same_place rfl rfl
  | performed carry plain done => exact Pen.leads_perform done

theorem leads_of_fails {fetched : Fetch} (rule : Fails setting pen fetched drawn after fault) :
    pen.Leads drawn after := by
  cases rule with
  | skippedOperands skip => exact Pen.leads_of_same_place rfl rfl
  | operands carry => exact Pen.leads_legs pen _
  | missing carry absent => exact Pen.leads_of_same_place rfl rfl
  | nested carry found refused => exact Pen.leads_of_same_place rfl rfl
  | performed carry plain failed => exact Pen.leads_of_same_place rfl rfl

theorem leads_of_run (setting : Setting) (pen : Pen α) (stream : CodeStream) :
    pen.Leads (run setting pen stream).strokes (run setting pen stream).pen := by
  induction pen, stream using @run_induction α _ setting with
  | state pen stream ih =>
      cases taken : step setting pen stream with
      | finished =>
          rw [run_of_finished taken]
          exact Pen.leads_of_same_place rfl rfl
      | faulty drawn after fault =>
          rw [run_of_faulty taken]
          exact leads_of_fails (fails_of_step taken)
      | next drawn after rest =>
          have ⟨instruction, middle, _, rule⟩ := proceeds_of_step taken
          rw [run_of_next taken]
          exact (leads_of_proceeds rule).append (ih drawn after rest taken)

theorem moments_of_next (taken : step setting pen stream = .next drawn after rest) :
    moments setting pen stream = ⟨pen, stream⟩ :: moments setting after rest := by
  rw [moments]
  split <;> simp_all

theorem moments_of_last
    (last : ∀ drawn after rest, step setting pen stream ≠ .next drawn after rest) :
    moments setting pen stream = [⟨pen, stream⟩] := by
  rw [moments]
  split
  · next taken => exact absurd taken (last _ _ _)
  · rfl

theorem strokes_of_moments (setting : Setting) (pen : Pen α) (stream : CodeStream) :
    (run setting pen stream).strokes =
      (moments setting pen stream).flatMap (Moment.drawn setting) := by
  induction pen, stream using @run_induction α _ setting with
  | state pen stream ih =>
      cases taken : step setting pen stream with
      | finished =>
          rw [run_of_finished taken, moments_of_last (by simp [taken])]
          simp [Moment.drawn, Step.drawn, taken]
      | faulty drawn after fault =>
          rw [run_of_faulty taken, moments_of_last (by simp [taken])]
          simp [Moment.drawn, Step.drawn, taken]
      | next drawn after rest =>
          rw [run_of_next taken, moments_of_next taken, List.flatMap_cons,
            ← ih drawn after rest taken]
          simp [Moment.drawn, Step.drawn, taken, Outcome.after]

theorem permits_moment (setting : Setting) (moment : Moment α) :
    ∀ stroke ∈ moment.drawn setting, moment.pen.Permits (moment.Restores setting) stroke := by
  have nothing : ∀ stroke ∈ ([] : List (Stroke α)),
      moment.pen.Permits (moment.Restores setting) stroke := List.forall_mem_nil _
  unfold Moment.drawn
  cases taken : step setting moment.pen moment.stream with
  | finished => exact nothing
  | faulty drawn after fault =>
      have rule := fails_of_step taken
      generalize Instruction.fetch setting.font.kind moment.stream = fetched at rule
      cases rule with
      | skippedOperands skip => exact nothing
      | operands carry => exact Pen.permits_legs moment.pen _ _
      | missing carry absent => exact nothing
      | nested carry found refused => exact nothing
      | performed carry plain failed => exact nothing
  | next drawn after rest =>
      have ⟨instruction, middle, read, rule⟩ := proceeds_of_step taken
      cases rule with
      | skipped skip => exact nothing
      | called carry subshape found entered => exact nothing
      | performed carry plain done =>
          intro stroke member
          have permits := Pen.permits_perform done stroke member
          exact permits.imp fun restores => ⟨carry, _, restores ▸ read⟩

end

end Glyph

end ShapeFont
