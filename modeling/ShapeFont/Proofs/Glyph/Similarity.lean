import ShapeFont.Proofs.Geometry.Exact
import ShapeFont.Proofs.Glyph.Lockstep
import ShapeFont.Proofs.Glyph.Step

/-!
# Drawing in a plane that is enlarged and moved

In exact arithmetic a glyph program does not see where it draws and how large. From a pen that was
enlarged and moved together with its saved positions and its scale it draws the strokes enlarged and
moved, and leaves the pen so.
-/

namespace ShapeFont

universe u

variable {α : Type u} [Field α] [LinearOrder α]

def Stroke.under (similarity : Similarity α) (stroke : Stroke α) : Stroke α :=
  stroke.mapPoints similarity.apply

namespace Pen

/-- The pen after an enlargement and a move of the plane. Its scale is enlarged with the plane. -/
def under (similarity : Similarity α) (pen : Pen α) : Pen α :=
  { pen with
    position := similarity.apply pen.position
    last := similarity.apply pen.last
    scale := similarity.factor * pen.scale
    saved := pen.saved.map similarity.apply }

def resultUnder (similarity : Similarity α) :
    Except GlyphFault (List (Stroke α) × Pen α) → Except GlyphFault (List (Stroke α) × Pen α) :=
  Except.map (Prod.map (List.map (Stroke.under similarity)) (Pen.under similarity))

variable (similarity : Similarity α) (pen : Pen α)

theorem finish_under (target : Point α) (drawn : Stroke α) :
    (pen.under similarity).finish (similarity.apply target) (drawn.under similarity) =
      Prod.map (Stroke.under similarity) (Pen.under similarity) (pen.finish target drawn) := by
  cases down : pen.down with
  | true => simp [finish, under, moveTo, down]
  | false => simp [finish, under, moveTo, down, Stroke.under, Stroke.mapPoints]

theorem save_under : (pen.under similarity).save = resultUnder similarity pen.save := by
  simp only [save, under, List.length_map]
  split
  · rfl
  · rfl

theorem restore_under : (pen.under similarity).restore = resultUnder similarity pen.restore := by
  simp only [restore, under]
  cases pen.saved with
  | nil => rfl
  | cons point saved => rfl

variable [PlaneFunctions α]

theorem displace_under (dx dy : α) :
    (pen.under similarity).displace (similarity.factor * dx) (similarity.factor * dy) =
      Prod.map (Stroke.under similarity) (Pen.under similarity) (pen.displace dx dy) := by
  have target := similarity.apply_translate pen.position dx dy
  have line : (Stroke.line pen.last (pen.position.translate dx dy)).under similarity =
      .line (similarity.apply pen.last) (similarity.apply (pen.position.translate dx dy)) := rfl
  simp only [displace]
  rw [← finish_under, line, target]
  rfl

theorem draw_vector_under (length index : Nat) :
    (pen.under similarity).drawVector length index =
      Prod.map (Stroke.under similarity) (Pen.under similarity) (pen.drawVector length index) := by
  have scale : (pen.under similarity).scale = similarity.factor * pen.scale := rfl
  simp only [drawVector]
  rw [← displace_under, scale, mul_left_comm, mul_left_comm _ similarity.factor]

theorem apply_on_circle (center : Point α) (radius angle : α) :
    similarity.apply (onCircle center radius angle) =
      onCircle (similarity.apply center) (similarity.factor * radius) angle := by
  simp only [Similarity.apply, onCircle, Point.mk.injEq]
  constructor <;> ring

theorem sweep_arc_under (radius : α) (start : Int) (span : Nat) (first last : α) :
    (pen.under similarity).sweepArc (similarity.factor * radius) start span first last =
      Prod.map (Stroke.under similarity) (Pen.under similarity)
        (pen.sweepArc radius start span first last) := by
  -- The pen is on the circle, so its center goes along with pen and radius.
  have center (away : α) (angle : α) :
      (⟨(pen.under similarity).position.x - similarity.factor * away * Elementary.cos angle,
        (pen.under similarity).position.y - similarity.factor * away * Elementary.sin angle⟩ :
          Point α) =
      similarity.apply ⟨pen.position.x - away * Elementary.cos angle,
        pen.position.y - away * Elementary.sin angle⟩ := by
    simp only [under, Similarity.apply, Point.mk.injEq]
    constructor <;> ring
  simp only [sweepArc]
  rw [← finish_under, center, ← apply_on_circle, ← apply_on_circle]
  rfl

theorem draw_arc_under (spec : ArcSpec) :
    (pen.under similarity).drawArc spec =
      Prod.map (Stroke.under similarity) (Pen.under similarity) (pen.drawArc spec) := by
  have radius : ofInt spec.radius * (pen.under similarity).scale =
      similarity.factor * (ofInt spec.radius * pen.scale) := mul_left_comm ..
  obtain ⟨first, last, sweeps⟩ := draw_arc_sweeps (α := α) spec
  rw [sweeps, sweeps, radius, sweep_arc_under]

theorem draw_bulge_under (respected : similarity.Respected) (dx dy : α) (height : Int) :
    (pen.under similarity).drawBulge (similarity.factor * dx) (similarity.factor * dy) height =
      Prod.map (Stroke.under similarity) (Pen.under similarity) (pen.drawBulge dx dy height) := by
  have middle : (pen.under similarity).position.translate (half (similarity.factor * dx))
      (half (similarity.factor * dy)) =
      similarity.apply (pen.position.translate (half dx) (half dy)) := by
    rw [similarity.apply_translate, half_exact, half_exact, mul_div_assoc, mul_div_assoc,
      half_exact, half_exact]
    rfl
  have reach (bulge : α) : half (hypot (similarity.factor * dx) (similarity.factor * dy)) * bulge =
      similarity.factor * (half (hypot dx dy) * bulge) := by
    rw [respected.hypot, half_exact, half_exact, mul_div_assoc, mul_assoc]
  have target : (pen.under similarity).position.translate (similarity.factor * dx)
      (similarity.factor * dy) = similarity.apply (pen.position.translate dx dy) :=
    (similarity.apply_translate pen.position dx dy).symm
  simp only [drawBulge]
  rw [← finish_under, middle, reach, respected.atan2, target, ← apply_on_circle]
  congr 1
  split
  · rfl
  · rfl

theorem draw_leg_under (respected : similarity.Respected) (leg : Leg) :
    (pen.under similarity).drawLeg leg =
      Prod.map (Stroke.under similarity) (Pen.under similarity) (pen.drawLeg leg) := by
  have scaled (length : Int) : ofInt length * (pen.under similarity).scale =
      similarity.factor * (ofInt length * pen.scale) := mul_left_comm ..
  cases leg with
  | straight dx dy =>
      simp only [drawLeg, scaled]
      exact displace_under similarity pen _ _
  | bulge dx dy height =>
      simp only [drawLeg, scaled]
      exact draw_bulge_under similarity pen respected _ _ height

theorem draw_legs_under (respected : similarity.Respected) (legs : List Leg) :
    (pen.under similarity).drawLegs legs =
      Prod.map (List.map (Stroke.under similarity)) (Pen.under similarity) (pen.drawLegs legs) := by
  induction legs generalizing pen with
  | nil => rfl
  | cons leg legs ih =>
      rw [draw_legs_cons, draw_legs_cons, draw_leg_under similarity pen respected]
      simp only [Prod.map_fst, Prod.map_snd, ih]
      rfl

theorem perform_under (respected : similarity.Respected) (vertical : Bool)
    (instruction : Instruction) :
    (pen.under similarity).perform vertical instruction =
      resultUnder similarity (pen.perform vertical instruction) := by
  cases instruction with
  | vector length index =>
      simp only [perform, draw_vector_under]
      rfl
  | divideScale factor =>
      have scale : (pen.under similarity).scale / ofInt factor =
          similarity.factor * (pen.scale / ofInt factor) := mul_div_assoc ..
      simp only [perform, scale]
      rfl
  | multiplyScale factor =>
      have scale : (pen.under similarity).scale * ofInt factor =
          similarity.factor * (pen.scale * ofInt factor) := mul_assoc ..
      simp only [perform, scale]
      rfl
  | savePosition => exact save_under similarity pen
  | restorePosition => exact restore_under similarity pen
  | travel legs =>
      simp only [perform, draw_legs_under similarity pen respected]
      rfl
  | arc spec =>
      simp only [perform, draw_arc_under]
      rfl
  | _ => rfl

end Pen

def Step.under (similarity : Similarity α) : Step α → Step α
  | finished => finished
  | faulty drawn pen fault =>
      faulty (drawn.map (Stroke.under similarity)) (pen.under similarity) fault
  | next drawn pen rest =>
      next (drawn.map (Stroke.under similarity)) (pen.under similarity) rest

def Outcome.under (similarity : Similarity α) (outcome : Outcome α) : Outcome α :=
  { strokes := outcome.strokes.map (Stroke.under similarity)
    pen := outcome.pen.under similarity
    fault := outcome.fault }

theorem Outcome.after_under (similarity : Similarity α) (drawn : List (Stroke α))
    (outcome : Outcome α) :
    (outcome.after drawn).under similarity =
      (outcome.under similarity).after (drawn.map (Stroke.under similarity)) := by
  simp [under, after]

namespace Glyph

variable [PlaneFunctions α] (setting : Setting) (similarity : Similarity α) (pen : Pen α)

theorem perform_under (respected : similarity.Respected) (instruction : Instruction)
    (stream : CodeStream) :
    perform setting (pen.under similarity) instruction stream =
      (perform setting pen instruction stream).under similarity := by
  rcases instruction.subshape_or_plain with ⟨code, rfl⟩ | plain
  · simp only [perform, enter]
    cases setting.font.glyph? code with
    | none => rfl
    | some program =>
        dsimp only
        cases stream.call? program.wrapped with
        | none => rfl
        | some called => rfl
  · rw [perform_of_plain plain, perform_of_plain plain, Pen.perform_under similarity pen respected]
    cases pen.perform setting.vertical instruction with
    | error fault => rfl
    | ok result => rfl

theorem step_under (respected : similarity.Respected) (stream : CodeStream) :
    step setting (pen.under similarity) stream =
      (step setting pen stream).under similarity := by
  have skips : (pen.under similarity).skipNext = pen.skipNext := rfl
  unfold step
  rw [skips]
  cases Instruction.fetch setting.font.kind stream with
  | finished => rfl
  | faulty legs fault =>
      by_cases skip : pen.skipNext = true
      · simp only [if_pos skip]
        rfl
      · simp only [if_neg skip, Pen.draw_legs_under similarity pen respected]
        rfl
  | ready instruction middle =>
      by_cases skip : pen.skipNext = true
      · simp only [if_pos skip]
        rfl
      · simp only [if_neg skip]
        exact perform_under setting similarity pen respected instruction middle

theorem run_under (respected : similarity.Respected) (stream : CodeStream) :
    run setting (pen.under similarity) stream =
      (run setting pen stream).under similarity := by
  induction pen, stream using @run_induction α _ setting with
  | state pen stream ih =>
      have same := step_under setting similarity pen respected stream
      cases taken : step setting pen stream with
      | finished =>
          rw [taken] at same
          rw [run_of_finished taken, run_of_finished same]
          rfl
      | faulty drawn after fault =>
          rw [taken] at same
          rw [run_of_faulty taken, run_of_faulty same]
          rfl
      | next drawn after rest =>
          rw [taken] at same
          rw [run_of_next taken, run_of_next same, ih drawn after rest taken, Outcome.after_under]

theorem execute_under (respected : similarity.Respected) (program : Bytes) :
    execute setting program (pen.under similarity) =
      (execute setting program pen).under similarity :=
  run_under setting similarity pen respected (CodeStream.start program)

/-- From a pen that was enlarged and moved a program meets the same fault, draws the strokes enlarged
and moved, and leaves its pen enlarged and moved. Of lengths and angles this takes that enlarging a
vector enlarges the one and keeps the other. -/
theorem similar_pens_draw_similar_strokes (laws : PlaneFunctions.Homogeneous α) (setting : Setting)
    (program : Bytes) (similarity : Similarity α) (pen : Pen α) :
    let plain := execute setting program pen
    let similar := execute setting program (pen.under similarity)
    similar.fault = plain.fault ∧
      similar.strokes = plain.strokes.map (Stroke.mapPoints similarity.apply) ∧
      similar.pen = plain.pen.under similarity := by
  intro plain similar
  have same : similar = plain.under similarity :=
    execute_under setting similarity pen (similarity.respected_of_homogeneous laws) program
  rw [same]
  exact ⟨rfl, rfl, rfl⟩

/-- A bulge and a quarter of a circle, then a restored position that none saved, in the real plane and
in the plane twice as large. -/
theorem bulge_and_arc_twice_as_large :
    let _functions := PlaneFunctions.euclidean
    let setting : Setting := { font := Font.empty }
    let program : Bytes := [12, 3, 4, 100, 10, 5, 2, 6]
    let similarity : Similarity ℝ := ⟨2, ⟨3, -4⟩, two_pos⟩
    let pen : Pen ℝ := Pen.ready ⟨1, 1⟩ 7
    let plain := execute setting program pen
    let similar := execute setting program (pen.under similarity)
    PlaneFunctions.Homogeneous ℝ ∧
      plain.fault = some .stackUnderflow ∧ similar.fault = some .stackUnderflow ∧
      similar.strokes = plain.strokes.map (Stroke.mapPoints similarity.apply) ∧
      similar.pen = plain.pen.under similarity := by
  intro functions setting program similarity pen plain similar
  have fails : plain.fault = some .stackUnderflow := by
    show (execute setting program pen).fault = _
    rw [execute, run_of_next rfl, run_of_next rfl, run_of_faulty rfl]
    rfl
  have same := similar_pens_draw_similar_strokes PlaneFunctions.homogeneous_euclidean setting program
    similarity pen
  exact ⟨PlaneFunctions.homogeneous_euclidean, fails, same.1.trans fails, same.2⟩

end Glyph

end ShapeFont
