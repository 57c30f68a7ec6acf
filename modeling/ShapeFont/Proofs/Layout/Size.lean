import ShapeFont.Proofs.Layout.Alignment

/-!
# The size of the font

A larger font size draws the same text enlarged. The size is one factor of everything that is measured
in output units: of the strokes, of the distance of the lines, of the advance that spacing adds, and so
of how far the lines reach and where alignment starts them.
-/

namespace ShapeFont

universe u

variable {α : Type u} [Field α] [LinearOrder α]

def Point.enlarge (factor : α) (point : Point α) : Point α := ⟨factor * point.x, factor * point.y⟩

def LineInfo.enlarge (factor : α) (line : LineInfo α) : LineInfo α :=
  { start := line.start.enlarge factor
    maxX := factor * line.maxX
    width := factor * line.width
    height := factor * line.height }

namespace Similarity

def enlargement (factor : α) (positive : 0 < factor) : Similarity α := ⟨factor, ⟨0, 0⟩, positive⟩

theorem apply_enlargement (factor : α) (positive : 0 < factor) :
    (enlargement factor positive).apply = Point.enlarge factor := by
  funext point
  simp [apply, enlargement, Point.enlarge]

end Similarity

namespace Layout

def Row.enlarge (factor : α) (row : Row α) : Row α := { row with startX := factor * row.startX }

/-- Two drawings that have come equally far, one of them in an enlarged plane. The pens that the rows
above left have no part in what comes. -/
structure BlockState.Enlarged (factor : α) (plain larger : BlockState α) : Prop where
  offset : larger.offset = plain.offset
  events : larger.events = plain.events.map (Event.mapPoints (Point.enlarge factor))
  lines : larger.lines = plain.lines.map (LineInfo.enlarge factor)

variable [IsStrictOrderedRing α] [PlaneFunctions α] (job : Typesetting α) {factor : α}

omit [IsStrictOrderedRing α] in
theorem base_scale_enlarged : (enlarged factor job).baseScale = factor * job.baseScale :=
  mul_div_assoc ..

theorem draw_line_enlarged (laws : PlaneFunctions.Homogeneous α) (positive : 0 < factor)
    (pen other : Pen α) (start : Point α) (programs : List Bytes) :
    ∃ last, drawLine (enlarged factor job) other (start.enlarge factor) programs =
      ({ pen := last
         maxX := factor * (drawLine job pen start programs).1.maxX
         events := (drawLine job pen start programs).1.events.map
           (Event.mapPoints (Point.enlarge factor)) },
        (drawLine job pen start programs).2) := by
  let similarity := Similarity.enlargement factor positive
  have change : similarity.apply = Point.enlarge factor :=
    Similarity.apply_enlargement factor positive
  have drawn := draw_line_under job similarity (similarity.respected_of_homogeneous laws) pen start
    programs
  obtain ⟨last, same⟩ := draw_line_of_pen (enlarged factor job) other (pen.under similarity)
    (start.enlarge factor) programs
  have reached : similarity.factor * (drawLine job pen start programs).1.maxX + similarity.shift.x =
      factor * (drawLine job pen start programs).1.maxX := add_zero _
  rw [change] at drawn
  refine ⟨last, same.trans ?_⟩
  rw [show enlarged factor job = enlarged similarity.factor job from rfl, drawn]
  simp only [Prod.map_fst, Prod.map_snd, LineState.under, change, reached, id_eq]

theorem draw_row_enlarged (laws : PlaneFunctions.Homogeneous α) (positive : 0 < factor)
    {plain larger : BlockState α} (beside : plain.Enlarged factor larger) (row : Row α) :
    (drawRow job plain row).1.Enlarged factor
        (drawRow (enlarged factor job) larger (row.enlarge factor)).1 ∧
      (drawRow (enlarged factor job) larger (row.enlarge factor)).2 = (drawRow job plain row).2 := by
  have start : larger.rowStart (enlarged factor job) (row.enlarge factor).startX =
      (plain.rowStart job row.startX).enlarge factor := by
    simp only [BlockState.rowStart, Row.enlarge, Point.enlarge, beside.offset, base_scale_enlarged,
      mul_left_comm]
  obtain ⟨last, drawn⟩ := draw_line_enlarged job laws positive plain.pen larger.pen
    (plain.rowStart job row.startX) row.programs
  have events (strokes : Array (Event α)) :
      larger.events ++ strokes.map (Event.mapPoints (Point.enlarge factor)) =
        (plain.events ++ strokes).map (Event.mapPoints (Point.enlarge factor)) := by
    rw [beside.events, Array.map_append]
  unfold drawRow
  dsimp only
  rw [start]
  dsimp only [Row.enlarge]
  rw [drawn]
  generalize drawLine job plain.pen (plain.rowStart job row.startX) row.programs = result
  rcases result with ⟨line, none | fault⟩
  · have info : ({ start := (plain.rowStart job row.startX).enlarge factor
                   maxX := factor * line.maxX
                   width := factor * line.maxX - factor * row.startX
                   height := (enlarged factor job).baseScale * (enlarged factor job).lineHeight } :
          LineInfo α) =
        LineInfo.enlarge factor
          { start := plain.rowStart job row.startX, maxX := line.maxX
            width := line.maxX - row.startX, height := job.baseScale * job.lineHeight } := by
      simp only [LineInfo.enlarge, base_scale_enlarged, mul_sub, mul_assoc]
      rfl
    dsimp only
    refine ⟨⟨?_, events line.events, ?_⟩, rfl⟩
    · rw [beside.offset]
      rfl
    · dsimp only
      rw [info, beside.lines, Array.map_push]
  · exact ⟨⟨beside.offset, events line.events, beside.lines⟩, rfl⟩

theorem draw_enlarged (laws : PlaneFunctions.Homogeneous α) (positive : 0 < factor)
    (rows : List (Row α)) :
    draw (enlarged factor job) (rows.map (Row.enlarge factor)) =
      { events := (draw job rows).events.map (Event.mapPoints (Point.enlarge factor))
        lines := (draw job rows).lines.map (LineInfo.enlarge factor)
        fault := (draw job rows).fault } := by
  have first : (BlockState.initial : BlockState α).Enlarged factor .initial :=
    ⟨rfl, Array.map_empty.symm, Array.map_empty.symm⟩
  have respects (plain larger : BlockState α) (row : Row α) (beside : plain.Enlarged factor larger) :
      (drawRow job plain row).1.Enlarged factor
          (drawRow (enlarged factor job) larger (row.enlarge factor)).1 ∧
        (drawRow (enlarged factor job) larger (row.enlarge factor)).2 = (drawRow job plain row).2 :=
    draw_row_enlarged job laws positive beside row
  obtain ⟨beside, faults⟩ := until_fault_related respects first rows
  unfold draw drawRows
  generalize untilFault (drawRow (enlarged factor job)) .initial (rows.map (Row.enlarge factor)) =
    other at *
  generalize untilFault (drawRow job) .initial rows = result at *
  rcases other with ⟨larger, found⟩
  rcases result with ⟨plain, fault⟩
  obtain rfl : found = fault := faults
  have events : larger.events.toList =
      plain.events.toList.map (Event.mapPoints (Point.enlarge factor)) := by
    rw [beside.events, Array.toList_map]
  have lines : larger.lines.toList = plain.lines.toList.map (LineInfo.enlarge factor) := by
    rw [beside.lines, Array.toList_map]
  cases found with
  | none => simp only [events, lines]
  | some fault => simp only [events, List.map_nil]

omit [IsStrictOrderedRing α] in
theorem plain_rows_enlarged (factor : α) (texts : List (List Bytes)) :
    (plainRows texts).map (Row.enlarge factor) = plainRows texts := by
  rw [plainRows, List.map_map]
  apply List.map_congr_left
  intro programs _
  simp [Row.enlarge]

theorem align_rows_enlarged (factor : α) (align : Align) (lines : List (LineInfo α))
    (texts : List (List Bytes)) :
    alignRows align (lines.map (LineInfo.enlarge factor)) texts =
      (alignRows align lines texts).map (Row.enlarge factor) := by
  have starts (width : α) : alignedX align (factor * width) = factor * alignedX align width := by
    cases align with
    | start => exact (mul_zero factor).symm
    | middle =>
        simp only [alignedX, half_exact]
        ring
    | finish => exact (mul_neg factor width).symm
  simp only [alignRows, aligned_start_eq, List.map_zipWith, List.zipWith_map_left, Row.enlarge,
    LineInfo.enlarge, starts]

/-- A text in a font size that is multiplied is drawn, reported and failed at as in the plain size, with
everything that is drawn and reported multiplied. Of lengths and angles this takes that enlarging a
vector enlarges the one and keeps the other. -/
theorem rendering_grows_with_font_size (laws : PlaneFunctions.Homogeneous α) (job : Typesetting α)
    (text : Bytes) {factor : α} (positive : 0 < factor) :
    let plain := render job text
    let larger := render (enlarged factor job) text
    let enlarge (point : Point α) : Point α := ⟨factor * point.x, factor * point.y⟩
    larger.fault = plain.fault ∧
      larger.events = plain.events.map (Event.mapPoints enlarge) ∧
      larger.lines = plain.lines.map fun line =>
        { start := enlarge line.start, maxX := factor * line.maxX, width := factor * line.width
          height := factor * line.height } := by
  intro plain larger enlarge
  let texts := linePrograms job.font text
  have measured := draw_enlarged job laws positive (plainRows texts)
  rw [plain_rows_enlarged] at measured
  have whole : larger = { events := plain.events.map (Event.mapPoints (Point.enlarge factor))
                          lines := plain.lines.map (LineInfo.enlarge factor)
                          fault := plain.fault } := by
    by_cases empty : text = []
    · subst empty
      rfl
    · by_cases align : job.options.align = .start
      · have first : plain = draw job (plainRows texts) := render_of_start job align empty
        have second : larger = draw (enlarged factor job) (plainRows texts) :=
          render_of_start (enlarged factor job) align empty
        rw [first, second, measured]
      · have first : plain = _ := render_of_aligned job align empty
        have second : larger = _ := render_of_aligned (enlarged factor job) align empty
        have fonts : linePrograms (enlarged factor job).font text = texts := rfl
        have options : (enlarged factor job).options.align = job.options.align := rfl
        rw [fonts, options, measured] at second
        rw [first, second]
        cases failed : (draw job (plainRows texts)).fault with
        | some fault => rfl
        | none =>
            simp only
            rw [align_rows_enlarged, draw_enlarged job laws positive]
  rw [whole]
  exact ⟨rfl, rfl, rfl⟩

/-- Two lines of a stretched and centered text over the real numbers, in a font that says it reaches
below its own baseline. -/
theorem centered_lines_grow :
    let _functions := PlaneFunctions.euclidean
    let font := ({ Font.empty with above := -4 }.insertGlyph 65 [0x20]).insertGlyph 66 [0x38]
    let job : Typesetting ℝ :=
      ⟨font, { Options.standard with align := .middle, hSpacing := 2 }⟩
    let text : Bytes := [65, 65, 10, 65, 66]
    let larger := render (enlarged 3 job) text
    PlaneFunctions.Homogeneous ℝ ∧ (0 : ℝ) < 3 ∧
      larger.fault = none ∧
      larger.events = (render job text).events.map
        (Event.mapPoints fun point => ⟨3 * point.x, 3 * point.y⟩) ∧
      larger.lines = (render job text).lines.map fun line =>
        { start := ⟨3 * line.start.x, 3 * line.start.y⟩, maxX := 3 * line.maxX
          width := 3 * line.width, height := 3 * line.height } := by
  intro functions font job text larger
  let vectors : Bytes := [0x20, 0x20, 0x20, 0x38]
  have selected : selectAll font text = vectors.map fun byte => [byte] := by decide
  have done : (render job text).fault = none :=
    fault_render_of_vectors job vectors selected (by simp [vectors])
  have law := rendering_grows_with_font_size PlaneFunctions.homogeneous_euclidean job text
    (three_pos : (0 : ℝ) < 3)
  exact ⟨PlaneFunctions.homogeneous_euclidean, three_pos, law.1.trans done, law.2.1, law.2.2⟩

end Layout

end ShapeFont
