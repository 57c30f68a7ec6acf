import ShapeFont.Proofs.Layout.Rows
import ShapeFont.Proofs.Layout.Passes

/-!
# Lines below each other

A text that is not aligned is its lines, each as it is rendered alone, set below each other at equal
distances. A line takes nothing from the lines above it, and a sequence of bytes that is broken off
at its end does not reach into the next.
-/

namespace ShapeFont.Layout

universe u

theorem split_lines_intercalate {lines : List Bytes} (clean : ∀ line ∈ lines, 10 ∉ line)
    (someLine : lines ≠ []) : splitLines ([10].intercalate lines) = lines :=
  List.splitOn_intercalate 10 clean someLine

theorem fault_render_line {α : Type u} [Scalar α] (job : Typesetting α) {lines : List Bytes}
    (clean : ∀ line ∈ lines, 10 ∉ line) (someLine : lines ≠ [])
    (done : (render job ([10].intercalate lines)).fault = none) :
    ∀ line ∈ lines, (render job line).fault = none := by
  let pen : Pen α := Pen.ready Point.origin zero
  intro line member
  have programs : selectAll job.font line = select job.font line := by
    rw [← flatten_line_programs, line_programs_of_clean job.font (clean line member)]
    exact List.flatten_singleton
  rw [fault_render job _ pen zero, ← select_lines, split_lines_intercalate clean someLine,
    find_some_flat_map, List.findSome?_eq_none_iff] at done
  rw [fault_render job line pen zero, programs]
  exact done line member

variable {α : Type u} [Field α] [LinearOrder α] [IsStrictOrderedRing α] [PlaneFunctions α]
  (job : Typesetting α)

/-- What a measure of the reported line is where the line is rendered alone. The empty text has no
line to report. -/
def reportedAlone (measure : LineInfo α → α) (line : Bytes) : α :=
  ((render job line).lines.head?.map measure).getD 0

theorem render_line_of_none (plain : job.options.align = .start) {line : Bytes} (clean : 10 ∉ line)
    (done : (render job line).fault = none) :
    (render job line).events = eventsAlone job (select job.font line) ∧
      reportedAlone job LineInfo.maxX line = reach job (select job.font line) ∧
      reportedAlone job LineInfo.width line = reach job (select job.font line) ∧
      (line ≠ [] → (render job line).lines.length = 1) := by
  by_cases empty : line = []
  -- No line is reported of the empty text. Its measures are zero for want of one, and it reaches no
  -- further than that.
  · have start : (0 : α) = zero := zero_exact.symm
    rw [empty, reportedAlone, reportedAlone, render_nil, start]
    exact ⟨rfl, rfl, rfl, fun absent => absurd rfl absent⟩
  · have drawn := render_of_start job plain empty
    rw [line_programs_of_clean job.font clean] at drawn
    have ⟨events, lines⟩ := draw_plain_of_none job (drawn ▸ done)
    have place : baseline job 0 = 0 := by simp [baseline]
    have still : (Point.translate · (0 : α) 0) = id := by
      funext point
      simp [Point.translate]
    rw [reportedAlone, reportedAlone, drawn, events, lines]
    simp [place, still, info_at_eq, Event.map_points_id]

theorem render_plain_of_none (plain : job.options.align = .start) {text : Bytes}
    (someByte : text ≠ []) (done : (render job text).fault = none) :
    (render job text).events = ((linePrograms job.font text).mapIdx fun index programs =>
        (eventsAlone job programs).map
          (Event.mapPoints (Point.translate · 0 (baseline job index)))).flatten ∧
      (render job text).lines = (linePrograms job.font text).mapIdx fun index programs =>
        infoAt job ⟨0, baseline job index⟩ programs := by
  have drawn := render_of_start job plain someByte
  rw [drawn] at done ⊢
  exact draw_plain_of_none job done

theorem render_behind_feed (plain : job.options.align = .start) {text : Bytes}
    (someByte : text ≠ []) (done : (render job text).fault = none) :
    (render job (text ++ [10])).fault = none ∧
      (render job (text ++ [10])).events = (render job text).events ∧
      (render job (text ++ [10])).lines = (render job text).lines ++
        [{ start := ⟨0, baseline job (render job text).lines.length⟩, maxX := 0, width := 0
           height := job.baseScale * job.lineHeight }] := by
  have programs : linePrograms job.font (text ++ [10]) = linePrograms job.font text ++ [[]] := by
    rw [linePrograms, split_lines_append_feed, List.map_append]
    rfl
  have fault : (render job (text ++ [10])).fault = none := by
    let pen : Pen α := Pen.ready Point.origin zero
    rw [fault_render job _ pen zero, ← flatten_line_programs] at done ⊢
    rw [programs, List.flatten_append]
    simpa using done
  obtain ⟨events, lines⟩ := render_plain_of_none job plain someByte done
  obtain ⟨eventsBehind, linesBehind⟩ := render_plain_of_none job plain (by simp) fault
  have nothing : eventsAlone job [] = [] := rfl
  have nowhere : reach job [] = 0 := zero_exact
  rw [programs, List.mapIdx_concat] at eventsBehind linesBehind
  constructor
  · exact fault
  constructor
  · rw [eventsBehind, events, nothing]
    simp
  · rw [linesBehind, lines, info_at_eq, nowhere]
    simp

section

variable (plain : job.options.align = .start) {lines : List Bytes}
  (clean : ∀ line ∈ lines, 10 ∉ line) (someLine : lines ≠ [])
  (someByte : [10].intercalate lines ≠ [])
  (done : (render job ([10].intercalate lines)).fault = none)

include plain clean someLine someByte done

theorem lines_of_text :
    (render job ([10].intercalate lines)).lines = lines.mapIdx fun index line =>
      { start := ⟨0, baseline job index⟩
        maxX := reportedAlone job LineInfo.maxX line
        width := reportedAlone job LineInfo.width line
        height := job.baseScale * job.lineHeight } := by
  rw [(render_plain_of_none job plain someByte done).2, linePrograms,
    split_lines_intercalate clean someLine, map_idx_map]
  apply List.mapIdx_eq_mapIdx_iff.mpr
  intro index inside
  have member := List.getElem_mem inside
  obtain ⟨_, maxX, width, _⟩ := render_line_of_none job plain (clean _ member)
    (fault_render_line job clean someLine done _ member)
  rw [info_at_eq, maxX, width, add_zero]

theorem events_of_text :
    (render job ([10].intercalate lines)).events = (lines.mapIdx fun index line =>
      (render job line).events.map
        (Event.mapPoints (Point.translate · 0 (baseline job index)))).flatten := by
  rw [(render_plain_of_none job plain someByte done).1, linePrograms,
    split_lines_intercalate clean someLine, map_idx_map]
  congr 1
  apply List.mapIdx_eq_mapIdx_iff.mpr
  intro index inside
  have member := List.getElem_mem inside
  rw [(render_line_of_none job plain (clean _ member)
    (fault_render_line job clean someLine done _ member)).1]

end

/-- The lines of a text are reported and drawn as each of them is alone, every one below the one
before. A line feed at the end opens an empty line. That the text is cut before it is decoded makes
no difference: one pass that decodes each code point in the whole text draws the same. -/
theorem lines_are_set_below_each_other (plain : job.options.align = .start) (lines : List Bytes)
    (clean : ∀ line ∈ lines, 10 ∉ line) (someByte : [10].intercalate lines ≠ [])
    (done : (render job ([10].intercalate lines)).fault = none) :
    let text := [10].intercalate lines
    let rendering := render job text
    rendering.lines = lines.mapIdx (fun index line =>
        { start := ⟨0, baseline job index⟩
          maxX := reportedAlone job LineInfo.maxX line
          width := reportedAlone job LineInfo.width line
          height := job.baseScale * job.lineHeight }) ∧
      rendering.events = (lines.mapIdx fun index line => (render job line).events.map
        (Event.mapPoints (Point.translate · 0 (baseline job index)))).flatten ∧
      (∀ line ∈ lines, (render job line).fault = none ∧
        (line ≠ [] → (render job line).lines.length = 1)) ∧
      ((render job (text ++ [10])).fault = none ∧
        (render job (text ++ [10])).events = rendering.events ∧
        (render job (text ++ [10])).lines = rendering.lines ++
          [{ start := ⟨0, baseline job rendering.lines.length⟩, maxX := 0, width := 0
             height := job.baseScale * job.lineHeight }]) ∧
      rendering = inPasses job text ∧
      (Utf8.codes text).splitOn 10 = lines.map Utf8.codes := by
  intro text rendering
  have someLine : lines ≠ [] := by
    rintro rfl
    exact someByte rfl
  constructor
  · exact lines_of_text job plain clean someLine someByte done
  constructor
  · exact events_of_text job plain clean someLine someByte done
  constructor
  · intro line member
    have fine := fault_render_line job clean someLine done line member
    exact ⟨fine, (render_line_of_none job plain (clean line member) fine).2.2.2⟩
  constructor
  · exact render_behind_feed job plain someByte done
  constructor
  · exact render_in_passes job text
  · rw [split_codes, split_lines_intercalate clean someLine]

/-- A sequence of three bytes that a line feed breaks off, an empty line, and a last line. -/
theorem sequence_broken_off_at_feed :
    let _functions := PlaneFunctions.euclidean
    let font := (Font.empty.insertGlyph 65 [0x20]).insertGlyph 66 [0x38]
    let job : Typesetting ℝ := ⟨font, Options.standard⟩
    let lines : List Bytes := [[65, 0xE2, 0x82], [], [66]]
    let text := [10].intercalate lines
    let rendering := render job text
    job.options.align = .start ∧ (∀ line ∈ lines, 10 ∉ line) ∧ text ≠ [] ∧
      rendering.fault = none ∧
      rendering.events = ([[65, 0xE2, 0x82], [], [66]].mapIdx fun index line =>
        (render job line).events.map
          (Event.mapPoints (Point.translate · 0 (baseline job index)))).flatten ∧
      (Utf8.codes text).splitOn 10 = [[65, 0xFFFD, 0xFFFD], [], [66]] := by
  intro functions font job lines text rendering
  have clean : ∀ line ∈ lines, 10 ∉ line := by decide
  have someByte : text ≠ [] := by decide
  let vectors : Bytes := [0x20, 0x38]
  have selected : selectAll font text = vectors.map fun byte => [byte] := by decide
  have done : (render job text).fault = none :=
    fault_render_of_vectors job vectors selected (by simp [vectors])
  have law := lines_are_set_below_each_other job rfl lines clean someByte done
  exact ⟨rfl, clean, someByte, done, law.2.1, by decide⟩

end ShapeFont.Layout
