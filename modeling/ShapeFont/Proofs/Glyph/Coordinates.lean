import ShapeFont.Proofs.Glyph.Lockstep
import ShapeFont.Proofs.Glyph.Step

/-!
# Coordinates have no say

No branch of a glyph program looks at a coordinate or at the scale. Two pens that agree in
everything else therefore read the same instructions, meet the same fault and draw strokes of the
same kinds, wherever these lie.
-/

namespace ShapeFont

universe u

variable {α : Type u}

def Stroke.SameKind (first second : Stroke α) : Prop := first.kind = second.kind

theorem Stroke.kinds_of_same_kind {first second : List (Stroke α)}
    (same : List.Forall₂ Stroke.SameKind first second) :
    first.map Stroke.kind = second.map Stroke.kind := by
  induction same with
  | nil => rfl
  | cons head _ ih => rw [List.map_cons, List.map_cons, ih, head]

namespace Pen

structure Alike (first second : Pen α) : Prop where
  down : first.down = second.down
  skipNext : first.skipNext = second.skipNext
  saved : first.saved.length = second.saved.length

/-- How an instruction turns out for two pens. -/
inductive AlikeResults : Except GlyphFault (List (Stroke α) × Pen α) →
    Except GlyphFault (List (Stroke α) × Pen α) → Prop where
  | error (fault : GlyphFault) : AlikeResults (.error fault) (.error fault)
  | ok {drawn other : List (Stroke α)} {pen after : Pen α}
      (drawings : List.Forall₂ Stroke.SameKind drawn other) (ends : pen.Alike after) :
      AlikeResults (.ok (drawn, pen)) (.ok (other, after))

variable {first second : Pen α}

theorem alike_begin_glyph (first second : Pen α) (scale other : α) :
    (first.beginGlyph scale).Alike (second.beginGlyph other) := ⟨rfl, rfl, rfl⟩

theorem Alike.finish (alike : first.Alike second) {drawn other : Stroke α}
    (same : drawn.SameKind other) (target goal : Point α) :
    (first.finish target drawn).1.SameKind (second.finish goal other).1 ∧
      (first.finish target drawn).2.Alike (second.finish goal other).2 := by
  constructor
  · simp only [Pen.finish, alike.down]
    split
    · exact same
    · rfl
  · exact ⟨alike.down, alike.skipNext, alike.saved⟩

theorem Alike.save (alike : first.Alike second) : AlikeResults first.save second.save := by
  unfold Pen.save
  rw [alike.saved]
  split
  · exact .ok .nil ⟨alike.down, alike.skipNext, congrArg Nat.succ alike.saved⟩
  · exact .error _

theorem Alike.restore (alike : first.Alike second) : AlikeResults first.restore second.restore := by
  have saved := alike.saved
  unfold Pen.restore
  cases left : first.saved with
  | nil =>
      rw [left] at saved
      rw [List.eq_nil_of_length_eq_zero saved.symm]
      exact .error _
  | cons point points =>
      cases right : second.saved with
      | nil => simp [left, right] at saved
      | cons other others =>
          rw [left, right] at saved
          exact .ok (.cons rfl .nil) ⟨alike.down, alike.skipNext, Nat.succ.inj saved⟩

variable [Scalar α]

theorem Alike.displace (alike : first.Alike second) (dx dy ex ey : α) :
    (first.displace dx dy).1.SameKind (second.displace ex ey).1 ∧
      (first.displace dx dy).2.Alike (second.displace ex ey).2 := by
  apply alike.finish
  rfl

theorem Alike.draw_arc (alike : first.Alike second) (spec : ArcSpec) :
    (first.drawArc spec).1.SameKind (second.drawArc spec).1 ∧
      (first.drawArc spec).2.Alike (second.drawArc spec).2 := by
  obtain ⟨start, stop, sweeps⟩ := draw_arc_sweeps (α := α) spec
  rw [sweeps, sweeps]
  apply alike.finish
  rfl

/-- Whether a bulge is drawn as a line or as an arc depends on its height alone. -/
theorem Alike.draw_leg (alike : first.Alike second) (leg : Leg) :
    (first.drawLeg leg).1.SameKind (second.drawLeg leg).1 ∧
      (first.drawLeg leg).2.Alike (second.drawLeg leg).2 := by
  cases leg with
  | straight dx dy => exact alike.displace _ _ _ _
  | bulge dx dy height =>
      apply alike.finish
      by_cases flat : (ofInt height / ofInt 127 == (zero : α)) = true
      · rw [if_pos flat, if_pos flat]
        rfl
      · rw [if_neg flat, if_neg flat]
        rfl

theorem Alike.draw_legs (alike : first.Alike second) (legs : List Leg) :
    List.Forall₂ Stroke.SameKind (first.drawLegs legs).1 (second.drawLegs legs).1 ∧
      (first.drawLegs legs).2.Alike (second.drawLegs legs).2 := by
  induction legs generalizing first second with
  | nil => exact ⟨.nil, alike⟩
  | cons leg legs ih =>
      obtain ⟨kind, moved⟩ := alike.draw_leg leg
      obtain ⟨kinds, ends⟩ := ih moved
      rw [draw_legs_cons, draw_legs_cons]
      exact ⟨.cons kind kinds, ends⟩

theorem Alike.perform (alike : first.Alike second) (vertical : Bool) (instruction : Instruction) :
    AlikeResults (first.perform vertical instruction) (second.perform vertical instruction) := by
  have one {drawn other : Stroke α} {pen after : Pen α}
      (result : drawn.SameKind other ∧ pen.Alike after) :
      AlikeResults (.ok ([drawn], pen)) (.ok ([other], after)) :=
    .ok (.cons result.1 .nil) result.2
  cases instruction with
  | vector length index => exact one (alike.displace _ _ _ _)
  | endOfShape => exact one ⟨rfl, alike⟩
  | setPen down => exact .ok .nil ⟨rfl, alike.skipNext, alike.saved⟩
  | divideScale factor => exact .ok .nil ⟨alike.down, alike.skipNext, alike.saved⟩
  | multiplyScale factor => exact .ok .nil ⟨alike.down, alike.skipNext, alike.saved⟩
  | savePosition => exact alike.save
  | restorePosition => exact alike.restore
  | subshape code => exact .ok .nil alike
  | travel legs => exact .ok (alike.draw_legs legs).1 (alike.draw_legs legs).2
  | arc spec => exact one (alike.draw_arc spec)
  | verticalOnly => exact .ok .nil ⟨alike.down, rfl, alike.saved⟩
  | unassigned => exact .ok .nil alike

end Pen

namespace Glyph

variable [Scalar α]

def AlikeStates (pen : Pen α) (stream : CodeStream) (after : Pen α) (rest : CodeStream) : Prop :=
  pen.Alike after ∧ stream = rest

theorem perform_alike {pen after : Pen α} (alike : pen.Alike after) (setting : Setting)
    (instruction : Instruction) (stream : CodeStream) :
    (perform setting pen instruction stream).Corresponds Stroke.SameKind Pen.Alike AlikeStates
      (perform setting after instruction stream) := by
  rcases instruction.subshape_or_plain with ⟨code, rfl⟩ | plain
  · simp only [perform, enter]
    cases setting.font.glyph? code with
    | none => exact .faulty .nil alike
    | some program =>
        dsimp only
        cases stream.call? program.wrapped with
        | none => exact .faulty .nil alike
        | some called => exact .next .nil ⟨alike, rfl⟩
  · rw [perform_of_plain plain, perform_of_plain plain]
    have results := alike.perform setting.vertical instruction
    generalize pen.perform setting.vertical instruction = result at results
    generalize after.perform setting.vertical instruction = other at results
    cases results with
    | error fault => exact .faulty .nil alike
    | ok drawings ends => exact .next drawings ⟨ends, rfl⟩

theorem step_alike {pen after : Pen α} (alike : pen.Alike after) (setting : Setting)
    (stream : CodeStream) :
    (step setting pen stream).Corresponds Stroke.SameKind Pen.Alike AlikeStates
      (step setting after stream) := by
  unfold step
  rw [alike.skipNext]
  cases Instruction.fetch setting.font.kind stream with
  | finished => exact .finished
  | faulty legs fault =>
      by_cases skip : after.skipNext = true
      · simp only [if_pos skip]
        exact .faulty .nil alike
      · simp only [if_neg skip]
        exact .faulty (alike.draw_legs legs).1 (alike.draw_legs legs).2
  | ready instruction middle =>
      by_cases skip : after.skipNext = true
      · simp only [if_pos skip]
        exact .next .nil ⟨⟨alike.down, rfl, alike.saved⟩, rfl⟩
      · simp only [if_neg skip]
        exact perform_alike alike setting instruction middle

theorem execute_alike {pen after : Pen α} (alike : pen.Alike after) (setting : Setting)
    (program : Bytes) :
    (execute setting program pen).Corresponds Stroke.SameKind Pen.Alike
      (execute setting program after) := by
  have ends : ∀ (pen : Pen α) stream after rest,
      AlikeStates pen stream after rest → pen.Alike after := fun _ _ _ _ states => states.1
  have steps : ∀ (pen : Pen α) stream after rest, AlikeStates pen stream after rest →
      (step setting pen stream).Corresponds Stroke.SameKind Pen.Alike AlikeStates
        (step setting after rest) := by
    rintro pen stream after rest ⟨alike, rfl⟩
    exact step_alike alike setting stream
  exact run_corresponds ends steps ⟨alike, rfl⟩

/-- Two pens that agree in everything but coordinates and scale meet the same fault, draw as many
strokes of the same kinds in the same order, and end so that they agree again. -/
theorem coordinates_have_no_say {first second : Pen α} (alike : first.Alike second)
    (setting : Setting) (program : Bytes) :
    (execute setting program first).fault = (execute setting program second).fault ∧
      (execute setting program first).strokes.map Stroke.kind =
        (execute setting program second).strokes.map Stroke.kind ∧
      (execute setting program first).pen.Alike (execute setting program second).pen := by
  have same := execute_alike alike setting program
  exact ⟨same.fault, Stroke.kinds_of_same_kind same.strokes, same.pen⟩

/-- A flat bulge between two restored positions, of which one was saved: from pens in different places
at different scales, one of them zero. -/
theorem flat_bulge_far_apart :
    let setting : Setting := { font := Font.empty }
    let program : Bytes := [6, 12, 3, 4, 0, 6]
    let first : Pen Float :=
      { position := ⟨0, 0⟩, last := ⟨0, 0⟩, scale := 1, saved := [⟨5, 5⟩] }
    let second : Pen Float :=
      { position := ⟨7, -2⟩, last := ⟨1, 1⟩, scale := 0, saved := [⟨9, 9⟩] }
    first.Alike second ∧
      (execute setting program first).fault = some .stackUnderflow ∧
      (execute setting program second).fault = some .stackUnderflow ∧
      (execute setting program first).strokes.map Stroke.kind =
        (execute setting program second).strokes.map Stroke.kind ∧
      (execute setting program first).pen.Alike (execute setting program second).pen := by
  intro setting program first second
  have alike : first.Alike second := ⟨rfl, rfl, Eq.refl 1⟩
  have fails : (execute setting program first).fault = some .stackUnderflow := by
    rw [execute, run_of_next rfl, run_of_next rfl, run_of_faulty rfl]
    rfl
  have same := coordinates_have_no_say alike setting program
  exact ⟨alike, fails, same.1.symm.trans fails, same.2⟩

end Glyph

end ShapeFont
