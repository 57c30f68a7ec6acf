import ShapeFont.Proofs.Glyph.Similarity
import ShapeFont.Proofs.Layout.Faults

/-!
# Lines in a plane that is enlarged and moved

A line that starts at another place, in a font of another size, is drawn enlarged and moved, with the
advance that its spacing adds and with the point furthest right that its glyphs reach.
-/

namespace ShapeFont

universe u

variable {α : Type u}

def Event.mapPoints (change : Point α → Point α) : Event α → Event α
  | stroke drawn => stroke (drawn.mapPoints change)
  | characterEnd => characterEnd

theorem Event.map_points_map_points (first second : Point α → Point α) (event : Event α) :
    (event.mapPoints first).mapPoints second = event.mapPoints (second ∘ first) := by
  cases event with
  | stroke drawn => cases drawn <;> rfl
  | characterEnd => rfl

theorem Event.map_points_id : (Event.mapPoints id : Event α → Event α) = id := by
  funext event
  cases event with
  | stroke drawn => cases drawn <;> rfl
  | characterEnd => rfl

namespace Layout

variable [Field α] [LinearOrder α]

def LineState.under (similarity : Similarity α) (state : LineState α) : LineState α :=
  { pen := state.pen.under similarity
    maxX := similarity.factor * state.maxX + similarity.shift.x
    events := state.events.map (Event.mapPoints similarity.apply) }

def enlarged (factor : α) (job : Typesetting α) : Typesetting α :=
  { job with options := { job.options with fontSize := factor * job.options.fontSize } }

omit [LinearOrder α] in
theorem enlarged_one (job : Typesetting α) : enlarged 1 job = job := by simp [enlarged]

variable [PlaneFunctions α] (job : Typesetting α) (similarity : Similarity α)

theorem begin_glyph_under (pen : Pen α) :
    (pen.under similarity).beginGlyph (enlarged similarity.factor job).baseScale =
      (pen.beginGlyph job.baseScale).under similarity := by
  have scale : (enlarged similarity.factor job).baseScale = similarity.factor * job.baseScale :=
    mul_div_assoc ..
  rw [scale]
  rfl

theorem advance_under (spacing startX : α) (pen : Pen α) :
    advance spacing (similarity.factor * startX + similarity.shift.x) (pen.under similarity) =
      (advance spacing startX pen).under similarity := by
  unfold advance
  split
  · rfl
  · simp only [Pen.under, Similarity.apply, Pen.mk.injEq, Point.mk.injEq, and_true]
    constructor <;> ring

omit [PlaneFunctions α] in
theorem events_under (drawn : Array (Event α)) (strokes : List (Stroke α)) :
    drawn.map (Event.mapPoints similarity.apply) ++
        (strokes.map (Stroke.under similarity)).map Event.stroke =
      (drawn ++ strokes.map Event.stroke).map (Event.mapPoints similarity.apply) := by
  apply Array.ext'
  simp only [Array.toList_appendList, Array.toList_map, List.map_append, List.map_map]
  rfl

omit [PlaneFunctions α] in
theorem character_end_under (drawn : Array (Event α)) :
    (drawn.map (Event.mapPoints similarity.apply)).push .characterEnd =
      (drawn.push .characterEnd).map (Event.mapPoints similarity.apply) := by
  rw [Array.map_push]
  rfl

variable [IsStrictOrderedRing α]

theorem furthest_under (maxX : α) (pen : Pen α) :
    (if similarity.factor * maxX + similarity.shift.x < (pen.under similarity).position.x
      then (pen.under similarity).position.x
      else similarity.factor * maxX + similarity.shift.x) =
    similarity.factor * (if maxX < pen.position.x then pen.position.x else maxX) +
      similarity.shift.x := by
  simp only [Pen.under, Similarity.apply, add_lt_add_iff_right,
    mul_lt_mul_iff_right₀ similarity.positive]
  split
  · rfl
  · rfl

theorem draw_glyph_under (respected : similarity.Respected) (state : LineState α)
    (program : Bytes) :
    drawGlyph (enlarged similarity.factor job) (state.under similarity) program =
      Prod.map (LineState.under similarity) id (drawGlyph job state program) := by
  have same : Glyph.execute (enlarged similarity.factor job).setting program
        ((state.under similarity).pen.beginGlyph (enlarged similarity.factor job).baseScale) =
      (Glyph.execute job.setting program (state.pen.beginGlyph job.baseScale)).under similarity := by
    rw [← Glyph.execute_under job.setting similarity _ respected, ← begin_glyph_under]
    rfl
  unfold drawGlyph
  rw [same]
  generalize Glyph.execute job.setting program (state.pen.beginGlyph job.baseScale) = outcome
  have events := events_under similarity state.events outcome.strokes
  cases failed : outcome.fault with
  | some fault =>
      simp only [Outcome.under, failed, LineState.under, events]
      rfl
  | none =>
      have pen : advance (enlarged similarity.factor job).options.hSpacing
            (state.pen.under similarity).last.x (outcome.pen.under similarity) =
          (advance job.options.hSpacing state.pen.last.x outcome.pen).under similarity :=
        advance_under similarity job.options.hSpacing state.pen.last.x outcome.pen
      simp only [Outcome.under, failed, LineState.under, events]
      rw [pen, furthest_under, character_end_under]
      rfl

theorem draw_line_under (respected : similarity.Respected) (pen : Pen α) (start : Point α)
    (programs : List Bytes) :
    drawLine (enlarged similarity.factor job) (pen.under similarity) (similarity.apply start)
        programs =
      Prod.map (LineState.under similarity) id (drawLine job pen start programs) := by
  have first : ({ pen := pen.moveTo start, maxX := start.x } : LineState α).under similarity =
      { pen := (pen.under similarity).moveTo (similarity.apply start)
        maxX := (similarity.apply start).x } := by
    simp only [LineState.under, Array.map_empty]
    rfl
  unfold drawLine drawGlyphs
  rw [← first]
  exact until_fault_map (draw_glyph_under job similarity respected) _ programs

end Layout

end ShapeFont
