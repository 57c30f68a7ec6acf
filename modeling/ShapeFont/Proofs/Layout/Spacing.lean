import ShapeFont.Proofs.Layout.Similarity
import ShapeFont.Proofs.Layout.Glyphs
import ShapeFont.Proofs.Layout.Continuity

/-!
# Spacing

Spacing multiplies the advance of every glyph. Each glyph of a line is drawn from somewhere else then,
and as it does not see where it is drawn it is drawn the same there. So the places where the glyphs
begin are the plain ones stretched away from the start of the line, with the glyphs themselves as they
were.
-/

namespace ShapeFont

universe u

variable {α : Type u} [Field α]

def Point.stretch (start : Point α) (spacing : α) (place : Point α) : Point α :=
  ⟨start.x + spacing * (place.x - start.x), place.y⟩

variable [LinearOrder α] [PlaneFunctions α]

namespace Layout

def spaced (spacing : α) (job : Typesetting α) : Typesetting α :=
  { job with options := { job.options with hSpacing := spacing } }

/-- Where the glyphs of a line begin, the first at its start and the others where the one before left the
pen, and where the line ends. -/
def places (start : Point α) (runs : List (GlyphRun α)) : List (Point α) :=
  start :: runs.map fun run => run.pen.position

/-- Two pens between the same glyphs of a line, the other of which has come there with spacing. -/
structure Stretched (start : Point α) (spacing : α) (pen other : Pen α) : Prop where
  together : pen.last = pen.position
  place : other.position = start.stretch spacing pen.position
  beside : other.last = other.position

/-- In exact arithmetic spacing of one is no case of its own. -/
theorem advance_exact (spacing startX : α) (pen : Pen α) :
    advance spacing startX pen =
      { pen with
        last := ⟨pen.last.x + (spacing - 1) * (pen.last.x - startX), pen.last.y⟩
        position := ⟨pen.position.x + (spacing - 1) * (pen.last.x - startX), pen.position.y⟩ } := by
  unfold advance
  split
  · next one =>
      have none : spacing - 1 = 0 := by
        rw [beq_iff_eq.mp one, of_int_exact, Int.cast_one, sub_self]
      simp only [none, zero_mul, add_zero]
  · simp only [of_int_exact, Int.cast_one]

/-- The furthest place is the greatest, so where the order of places stays it goes along. -/
theorem furthest_of_monotone {change : α → α} (monotone : Monotone change) (start : α)
    (places : List α) :
    furthest (change start) (places.map change) = change (furthest start places) := by
  have greater (reached place : α) : further reached place = max reached place :=
    (max_def_lt reached place).symm
  induction places generalizing start with
  | nil => rfl
  | cons place places ih =>
      have head : further (change start) (change place) = change (further start place) := by
        rw [greater, greater, monotone.map_max]
      show furthest (further (change start) (change place)) (places.map change) =
        change (furthest (further start place) places)
      rw [head, ih]

section

variable [IsStrictOrderedRing α] (job : Typesetting α) {start : Point α} {spacing : α}
  {pen other : Pen α}

def aside (start : Point α) (spacing : α) (place : Point α) : Similarity α :=
  Similarity.translation ((start.stretch spacing place).x - place.x) 0

theorem apply_aside (place point : Point α) :
    (aside start spacing place).apply point =
      point.translate ((start.stretch spacing place).x - place.x) 0 :=
  Similarity.apply_translation _ 0 point

theorem execute_stretched (stretched : Stretched start spacing pen other) (program : Bytes) :
    Glyph.execute job.setting program (other.beginGlyph job.baseScale) =
      (Glyph.execute job.setting program (pen.beginGlyph job.baseScale)).under
        (aside start spacing pen.position) := by
  have reached : (aside start spacing pen.position).apply pen.position =
      start.stretch spacing pen.position := by
    rw [apply_aside, Point.translate, add_sub_cancel, add_zero]
    rfl
  have scale : (aside start spacing pen.position).factor * job.baseScale = job.baseScale :=
    one_mul job.baseScale
  have begun : other.beginGlyph job.baseScale =
      (pen.beginGlyph job.baseScale).under (aside start spacing pen.position) := by
    simp only [Pen.beginGlyph, Pen.under, stretched.beside, stretched.place, stretched.together,
      reached, scale, List.map_nil]
  rw [begun]
  exact Glyph.execute_under job.setting _ _ (Similarity.respected_translation _ 0) program

/-- The glyph moves the other pen as it moves the pen, and spacing takes it on from there. -/
theorem glyph_run_stretched (stretched : Stretched start spacing pen other) (program : Bytes) :
    let plain := glyphRun (spaced 1 job) pen program
    let run := glyphRun (spaced spacing job) other program
    run.outcome.strokes = plain.outcome.strokes.map (Stroke.mapPoints
        (Point.translate · ((start.stretch spacing pen.position).x - pen.position.x) 0)) ∧
      Stretched start spacing plain.pen run.pen := by
  intro plain run
  have change : (aside start spacing pen.position).apply =
      (Point.translate · ((start.stretch spacing pen.position).x - pen.position.x) 0) :=
    funext (apply_aside pen.position)
  have drawn : run.outcome = plain.outcome.under (aside start spacing pen.position) :=
    execute_stretched job stretched program
  have still : plain.outcome.pen.last = plain.outcome.pen.position :=
    together_of_execute job.setting job.baseScale stretched.together program
  have plainPen : plain.pen = plain.outcome.pen := by
    show advance 1 pen.last.x plain.outcome.pen = _
    simp only [advance_exact, sub_self, zero_mul, add_zero]
  have runPen : run.pen = advance spacing other.last.x
      (plain.outcome.pen.under (aside start spacing pen.position)) := by
    show advance spacing other.last.x run.outcome.pen = _
    rw [drawn]
    rfl
  constructor
  · rw [drawn, ← change]
    rfl
  · rw [plainPen, runPen, advance_exact]
    refine ⟨still, ?_, ?_⟩
    · simp only [Pen.under, apply_aside, Point.translate, still, stretched.beside, stretched.place,
        Point.stretch, add_zero, Point.mk.injEq, and_true]
      ring
    · simp only [Pen.under, still]

theorem glyph_runs_stretched (stretched : Stretched start spacing pen other)
    (programs : List Bytes) :
    let plain := glyphRuns (spaced 1 job) pen programs
    let runs := glyphRuns (spaced spacing job) other programs
    places other.position runs = (places pen.position plain).map (start.stretch spacing) ∧
      runs.map (fun run => run.outcome.strokes) =
        List.zipWith (fun place run => run.outcome.strokes.map (Stroke.mapPoints
          (Point.translate · ((start.stretch spacing place).x - place.x) 0)))
          (places pen.position plain) plain := by
  intro plain runs
  induction programs generalizing pen other with
  | nil => exact ⟨congrArg (· :: []) stretched.place, rfl⟩
  | cons program programs ih =>
      obtain ⟨drawn, onward⟩ := glyph_run_stretched job stretched program
      obtain ⟨begun, strokes⟩ := ih onward
      exact ⟨congrArg₂ List.cons stretched.place begun, congrArg₂ List.cons drawn strokes⟩

theorem furthest_stretched (forward : 0 ≤ spacing) {plain runs : List (GlyphRun α)}
    (begun : places start runs = (places start plain).map (start.stretch spacing)) :
    furthest start.x (runs.map fun run => run.pen.position.x) =
      start.x + spacing * (furthest start.x (plain.map fun run => run.pen.position.x) - start.x) := by
  let change (x : α) : α := start.x + spacing * (x - start.x)
  have monotone : Monotone change := by
    intro near far order
    dsimp only [change]
    gcongr
  have still : change start.x = start.x := by simp only [change, sub_self, mul_zero, add_zero]
  have ends : runs.map (fun run => run.pen.position.x) =
      (plain.map fun run => run.pen.position.x).map change := by
    have behind := congrArg (List.map Point.x) (List.cons.inj begun).2
    rw [List.map_map, List.map_map, List.map_map] at behind
    rw [List.map_map]
    exact behind
  calc
    furthest start.x (runs.map fun run => run.pen.position.x) =
        furthest (change start.x) ((plain.map fun run => run.pen.position.x).map change) := by
      rw [ends, still]
    _ = change (furthest start.x (plain.map fun run => run.pen.position.x)) :=
      furthest_of_monotone monotone start.x _

end

theorem runs_of_none (job : Typesetting α) {text : Bytes} (clean : 10 ∉ text)
    (done : (render job text).fault = none) (spacing : α) (pen : Pen α) :
    ∀ run ∈ glyphRuns (spaced spacing job) pen (select job.font text), run.outcome.fault = none := by
  have programs : selectAll job.font text = select job.font text := by
    rw [← flatten_line_programs, line_programs_of_clean job.font clean, List.flatten_singleton]
  rw [fault_render job text pen zero, programs, List.findSome?_eq_none_iff] at done
  intro run member
  have found := List.mem_map_of_mem (f := fun run : GlyphRun α => run.outcome.fault) member
  rw [faults_of_glyph_runs (spaced spacing job) pen pen zero] at found
  obtain ⟨program, inside, same⟩ := List.mem_map.mp found
  rw [← same]
  exact done program inside

/-- In a line the glyphs begin where they begin with spacing of one, at distances from the start of the
line that are multiplied by the spacing. Their strokes are moved along and not stretched, and the line
has the width multiplied, glyphs that go back included. -/
theorem spacing_stretches_advances [IsStrictOrderedRing α] (job : Typesetting α)
    (plain : job.options.align = .start) (text : Bytes) (clean : 10 ∉ text)
    (done : (render job text).fault = none) (spacing : α) :
    let start := BlockState.initial.rowStart job zero
    let runs (spacing : α) :=
      glyphRuns (spaced spacing job) (Pen.ready start (ofInt 1)) (select job.font text)
    let rendering (spacing : α) := render (spaced spacing job) text
    (∀ spacing, (rendering spacing).fault = none ∧
        (rendering spacing).events = (runs spacing).flatMap GlyphRun.events) ∧
      places start (runs spacing) = (places start (runs 1)).map (start.stretch spacing) ∧
      (runs spacing).map (fun run => run.outcome.strokes) =
        List.zipWith (fun place run => run.outcome.strokes.map (Stroke.mapPoints
          (Point.translate · ((start.stretch spacing place).x - place.x) 0)))
          (places start (runs 1)) (runs 1) ∧
      (text ≠ [] → ∃ line, (rendering 1).lines = [line] ∧
        (0 ≤ spacing → (rendering spacing).lines =
          [{ line with
              maxX := start.x + spacing * (line.maxX - start.x), width := spacing * line.width }])) := by
  intro start runs rendering
  have fine (spacing : α) : ∀ run ∈ runs spacing, run.outcome.fault = none :=
    runs_of_none job clean done spacing _
  have unaligned (spacing : α) : (spaced spacing job).options.align = .start := plain
  have ready : Stretched start spacing (Pen.ready start (ofInt 1)) (Pen.ready start (ofInt 1)) :=
    { together := rfl
      place := by simp [Pen.ready, Point.stretch]
      beside := rfl }
  obtain ⟨begun, strokes⟩ := glyph_runs_stretched job ready (select job.font text)
  refine ⟨?_, begun, strokes, ?_⟩
  · intro spacing
    obtain ⟨fault, events, -⟩ := render_glyphs_of_none (unaligned spacing) clean (fine spacing)
    exact ⟨fault, events⟩
  · intro someByte
    let reach (spacing : α) := furthest zero ((runs spacing).map fun run => run.pen.position.x)
    let info (maxX : α) : LineInfo α :=
      { start, maxX, width := maxX - zero, height := job.baseScale * job.lineHeight }
    have line (spacing : α) : (rendering spacing).lines = [info (reach spacing)] :=
      lines_of_glyphs (unaligned spacing) clean someByte (fine spacing)
    refine ⟨info (reach 1), line 1, ?_⟩
    intro forward
    have reached : reach spacing = start.x + spacing * (reach 1 - start.x) :=
      furthest_stretched forward begun
    have origin : start.x = zero := rfl
    have width : start.x + spacing * (reach 1 - start.x) - zero = spacing * (reach 1 - zero) := by
      rw [origin, add_sub_cancel_left]
    rw [line, reached]
    simp only [info, width]

/-- Two letters stand in for a third that the font lacks, and the latter of them goes back over the start
of the line. -/
theorem letter_going_back_is_spaced :
    let _functions := PlaneFunctions.euclidean
    let font := (Font.empty.insertGlyph 97 [0x20]).insertGlyph 101 [0x78]
    let job : Typesetting ℝ := ⟨font, Options.standard⟩
    let text : Bytes := [97, 0xC3, 0xA4, 97]
    let start := BlockState.initial.rowStart job zero
    let runs (spacing : ℝ) :=
      glyphRuns (spaced spacing job) (Pen.ready start (ofInt 1)) (select font text)
    job.options.align = .start ∧ 10 ∉ text ∧ (render job text).fault = none ∧
      selectCodes font text = [97, 97, 101, 97] ∧
      places start (runs 3) = (places start (runs 1)).map (start.stretch 3) ∧
      text ≠ [] ∧ (0 : ℝ) ≤ 3 ∧
      ∃ line, (render (spaced 1 job) text).lines = [line] ∧
        (render (spaced 3 job) text).lines =
          [{ line with
              maxX := start.x + 3 * (line.maxX - start.x), width := 3 * line.width }] := by
  intro functions font job text start runs
  let vectors : Bytes := [0x20, 0x20, 0x78, 0x20]
  have selected : selectAll font text = vectors.map fun byte => [byte] := by decide
  have done : (render job text).fault = none :=
    fault_render_of_vectors job vectors selected (by simp [vectors])
  have someByte : text ≠ [] := by decide
  obtain ⟨-, begun, -, width⟩ := spacing_stretches_advances job rfl text (by decide) done 3
  obtain ⟨line, first, spaced⟩ := width someByte
  exact ⟨rfl, by decide, done, by decide, begun, someByte, three_pos.le, line, first,
    spaced three_pos.le⟩

end Layout

end ShapeFont
