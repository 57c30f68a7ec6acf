import ShapeFont.Proofs.Layout.Rows
import ShapeFont.Proofs.Layout.Passes

/-!
# Alignment

Measuring and drawing run from different places. Because a line is drawn alike from any place, each
aligned line is the line of the plain text moved sideways, by its own width to end at x = 0 or by half
of it to be centered there. The width of the widest line cancels out.
-/

namespace ShapeFont.Layout

universe u

variable {α : Type u} [Field α] [LinearOrder α] [IsStrictOrderedRing α] [PlaneFunctions α]
  (job : Typesetting α)

def alignedX : Align → α → α
  | .start, _ => 0
  | .middle, width => half (-width)
  | .finish, width => -width

omit [IsStrictOrderedRing α] in
/-- The width of the block has no part in where its lines start. -/
theorem aligned_start_eq (align : Align) (widest width : α) :
    alignedStart align widest width = alignedX align width := by
  cases align with
  | start => exact zero_exact
  | middle =>
      -- Half of what the line leaves free of the block, less half of the block.
      simp only [alignedStart, alignedX, half_exact]
      ring
  | finish => rfl

theorem align_rows_eq (align : Align) (texts : List (List Bytes)) :
    alignRows align
        (texts.mapIdx fun index programs => infoAt job ⟨0, baseline job index⟩ programs) texts =
      rowsFrom (fun programs => alignedX align (reach job programs)) texts := by
  apply List.ext_getElem
  · simp [alignRows, rowsFrom]
  · intro index _ _
    simp [alignRows, rowsFrom, aligned_start_eq, info_at_eq]

def plainly : Typesetting α := { job with options := { job.options with align := .start } }

/-- What each line of a text draws from x = 0, below the lines above it. -/
def eventsByLine (text : Bytes) : List (List (Event α)) :=
  (linePrograms job.font text).mapIdx fun index programs =>
    (lineFrom job ⟨0, baseline job index⟩ programs).events.toList

omit [IsStrictOrderedRing α] in
theorem render_plainly {text : Bytes} (someByte : text ≠ []) :
    render (plainly job) text = draw job (plainRows (linePrograms job.font text)) :=
  render_of_start (plainly job) rfl someByte

theorem render_aligned_of_none {text : Bytes} (someByte : text ≠ [])
    (aligned : job.options.align ≠ .start) (done : (render job text).fault = none) :
    (render (plainly job) text).fault = none ∧
      render job text = draw job (rowsFrom
        (fun programs => alignedX job.options.align (reach job programs))
        (linePrograms job.font text)) := by
  rw [render_plainly job someByte]
  rw [render_of_aligned job aligned someByte] at done ⊢
  cases measured : (draw job (plainRows (linePrograms job.font text))).fault with
  | some fault => simp [measured] at done
  | none =>
      have lines := (draw_plain_of_none job measured).2
      simp only [lines, align_rows_eq, and_self]

/-- A reported line moved to where its alignment wants it. -/
def alignedInfo (align : Align) (line : LineInfo α) : LineInfo α :=
  { line with
    start := ⟨alignedX align line.width, line.start.y⟩
    maxX := line.width + alignedX align line.width }

section

variable {text : Bytes} (someByte : text ≠ []) (aligned : job.options.align ≠ .start)
  (done : (render job text).fault = none)

include someByte aligned done

theorem lines_of_aligned :
    (render job text).lines = (render (plainly job) text).lines.map (alignedInfo job.options.align) := by
  have ⟨measured, drawn⟩ := render_aligned_of_none job someByte aligned done
  have plain := (draw_plain_of_none job (render_plainly job someByte ▸ measured)).2
  have lines := (draw_of_none job (drawn ▸ done)).2
  rw [drawn, lines, render_plainly job someByte, plain]
  apply List.ext_getElem
  · simp
  · intro index _ _
    simp [info_at_eq, alignedInfo]

theorem events_of_plain :
    (render (plainly job) text).events = (eventsByLine job text).flatten := by
  have measured := (render_aligned_of_none job someByte aligned done).1
  have events := (draw_plain_of_none job (render_plainly job someByte ▸ measured)).1
  rw [render_plainly job someByte, events]
  simp only [eventsByLine, events_line_from]

theorem events_of_aligned :
    (render job text).events = (List.zipWith
      (fun line events => events.map (Event.mapPoints (Point.translate · line.start.x 0)))
      (render job text).lines (eventsByLine job text)).flatten := by
  have drawn := (render_aligned_of_none job someByte aligned done).2
  have ⟨events, lines⟩ := draw_of_none job (drawn ▸ done)
  have sideways (x y : α) : (Point.translate · x 0) ∘ (Point.translate · 0 y) =
      (Point.translate · x y) := by
    funext point
    simp [Point.translate]
  rw [drawn, events, lines]
  congr 1
  apply List.ext_getElem
  · simp [eventsByLine]
  · intro index _ _
    simp only [List.getElem_mapIdx, List.getElem_zipWith, eventsByLine, events_line_from, infoAt,
      List.map_map]
    congr 1
    funext event
    rw [Function.comp_apply, Event.map_points_map_points, sideways]

theorem length_events_by_line :
    (eventsByLine job text).length = (render job text).lines.length := by
  have drawn := (render_aligned_of_none job someByte aligned done).2
  rw [drawn, (draw_of_none job (drawn ▸ done)).2]
  simp [eventsByLine]

end

/-- Under `finish` every line ends at x = 0 and under `middle` it is centered there: line by line the
text is the plain text moved sideways by the whole or by half of the line's width. Its lines keep
their widths, heights and baselines. -/
theorem alignment_moves_lines (text : Bytes) (someByte : text ≠ [])
    (aligned : job.options.align ≠ .start) (done : (render job text).fault = none) :
    let plain := render (plainly job) text
    let rendering := render job text
    plain.fault = none ∧
      (job.options.align = .finish → rendering.lines = plain.lines.map fun line =>
        { line with start := ⟨-line.width, line.start.y⟩, maxX := 0 }) ∧
      (job.options.align = .middle → rendering.lines = plain.lines.map fun line =>
        { line with start := ⟨-line.width / 2, line.start.y⟩, maxX := line.width / 2 }) ∧
      plain.events = (eventsByLine job text).flatten ∧
      (eventsByLine job text).length = rendering.lines.length ∧
      rendering.events = (List.zipWith
        (fun line events => events.map (Event.mapPoints (Point.translate · line.start.x 0)))
        rendering.lines (eventsByLine job text)).flatten ∧
      rendering = inPasses job text := by
  intro plain rendering
  have lines := lines_of_aligned job someByte aligned done
  constructor
  · exact (render_aligned_of_none job someByte aligned done).1
  constructor
  · intro finish
    have ends (line : LineInfo α) : alignedInfo .finish line =
        { line with start := ⟨-line.width, line.start.y⟩, maxX := 0 } := by
      simp [alignedInfo, alignedX]
    rw [lines, finish]
    exact List.map_congr_left fun line _ => ends line
  constructor
  · intro middle
    have halves (line : LineInfo α) : alignedInfo .middle line =
        { line with start := ⟨-line.width / 2, line.start.y⟩, maxX := line.width / 2 } := by
      have rest : line.width + -line.width / 2 = line.width / 2 := by ring
      simp [alignedInfo, alignedX, rest]
    rw [lines, middle]
    exact List.map_congr_left fun line _ => halves line
  · exact ⟨events_of_plain job someByte aligned done,
      length_events_by_line job someByte aligned done,
      events_of_aligned job someByte aligned done, render_in_passes job text⟩

/-- A line that goes back over its start below a longer one, over the real numbers. -/
theorem uneven_lines_aligned :
    let _functions := PlaneFunctions.euclidean
    let font := (Font.empty.insertGlyph 65 [0x20]).insertGlyph 66 [0x38]
    let job (align : Align) : Typesetting ℝ := ⟨font, { Options.standard with align }⟩
    let text : Bytes := [65, 65, 10, 65, 66]
    text ≠ [] ∧
      ((job .finish).options.align ≠ .start ∧ (render (job .finish) text).fault = none ∧
        (render (job .finish) text).lines = (render (job .start) text).lines.map fun line =>
          { line with start := ⟨-line.width, line.start.y⟩, maxX := 0 }) ∧
      (job .middle).options.align ≠ .start ∧ (render (job .middle) text).fault = none ∧
        (render (job .middle) text).lines = (render (job .start) text).lines.map fun line =>
          { line with start := ⟨-line.width / 2, line.start.y⟩, maxX := line.width / 2 } := by
  intro functions font job text
  let vectors : Bytes := [0x20, 0x20, 0x20, 0x38]
  have selected : selectAll font text = vectors.map fun byte => [byte] := by decide
  have done (align : Align) : (render (job align) text).fault = none :=
    fault_render_of_vectors (job align) vectors selected (by simp [vectors])
  have finish := alignment_moves_lines (job .finish) text (by decide) (by decide) (done .finish)
  have middle := alignment_moves_lines (job .middle) text (by decide) (by decide) (done .middle)
  exact ⟨by decide, ⟨by decide, done .finish, finish.2.1 rfl⟩, by decide, done .middle,
    middle.2.2.1 rfl⟩

end ShapeFont.Layout
