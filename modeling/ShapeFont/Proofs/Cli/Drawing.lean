import ShapeFont.Proofs.Svg.Framing
import ShapeFont.Proofs.Font.Loading
import ShapeFont.Proofs.Layout.Glyphs
import ShapeFont.Proofs.Layout.Continuity
import ShapeFont.Cli

/-!
# What a document shows of its text

A request is refused or drawn. The frame of a drawing goes around the end points of its strokes, and
the path data keeps inside, except where it goes round a full circle: the first half ends at the
control point, which can lie far outside.
-/

namespace ShapeFont

universe u

namespace Cli

section

variable {β : Type u} [Scalar β] {request : Request β} {contents : FileContents} {font : Font}

theorem draw_of_refused {fault : LoadFault}
    (refused : (Font.loadFile contents).run Font.empty = (some fault, font)) :
    request.draw contents = .error (refusal request.fontPath fault) := by
  rw [Request.draw, refused]

theorem draw_of_failed {fault : GlyphFault}
    (loaded : (Font.loadFile contents).run Font.empty = (none, font))
    (failed : (Layout.render (request.job font) request.text).fault = some fault) :
    request.draw contents = .error (failure fault) := by
  rw [Request.draw, loaded]
  simp only [failed]

theorem draw_of_rendered (loaded : (Font.loadFile contents).run Font.empty = (none, font))
    (done : (Layout.render (request.job font) request.text).fault = none) :
    request.draw contents = .ok (Svg.Drawing.ofPath (Path.empty.record
      (Layout.render (request.job font) request.text).events) request.size) := by
  rw [Request.draw, loaded]
  simp only [done]

theorem draw_cases (request : Request β) (contents : FileContents) :
    (∃ reply, request.draw contents = .error reply ∧ reply.exitCode = 1) ∨
      ∃ path, request.draw contents = .ok (Svg.Drawing.ofPath path request.size) := by
  rcases loaded : (Font.loadFile contents).run Font.empty with ⟨refused, font⟩
  cases refused with
  | some fault => exact .inl ⟨_, draw_of_refused loaded, rfl⟩
  | none =>
      cases done : (Layout.render (request.job font) request.text).fault with
      | some fault => exact .inl ⟨_, draw_of_failed loaded done, rfl⟩
      | none => exact .inr ⟨_, draw_of_rendered loaded done⟩

theorem draw_of_single_glyph {program : Bytes}
    (loaded : (Font.loadFile contents).run Font.empty = (none, font))
    (clean : 10 ∉ request.text)
    (selected : Layout.select font request.text = [program])
    {outcome : Outcome β} (fine : outcome.fault = none)
    (executed : Glyph.execute (request.job font).setting program
      ((Layout.openRow (request.job font) .initial zero).pen.beginGlyph
        (request.job font).baseScale) = outcome) :
    ∃ path, request.draw contents = .ok (Svg.Drawing.ofPath path request.size) ∧
      path.strokes = outcome.strokes := by
  let job := request.job font
  let begun := (Layout.openRow job .initial zero).pen
  let run := Layout.glyphRun job begun program
  have same : run.outcome = outcome := executed
  have runs : Layout.glyphRuns job begun (Layout.select font request.text) =
      [run] := by
    rw [selected]
    rfl
  have sound : ∀ glyph ∈ Layout.glyphRuns job begun
      (Layout.select font request.text), glyph.outcome.fault = none := by
    rw [runs]
    exact List.forall_mem_singleton.mpr ((congrArg Outcome.fault same).trans fine)
  rcases Layout.render_glyphs_of_none rfl clean sound with ⟨done, events, _⟩
  refine ⟨_, draw_of_rendered loaded done, ?_⟩
  show Event.strokes (Layout.render job request.text).events = _
  have single := events.trans (congrArg (List.flatMap Layout.GlyphRun.events) runs)
  rw [single, List.flatMap_singleton, Layout.GlyphRun.events, Layout.GlyphRun.drawn,
    Event.strokes_append, Event.strokes_map_stroke, same]
  exact List.append_nil outcome.strokes

end

theorem exit_code_eq_zero_iff (request : Request Float) (contents : FileContents) :
    (request.answer contents).exitCode = 0 ↔ ∃ drawing, request.draw contents = .ok drawing := by
  rw [Request.answer]
  rcases draw_cases request contents with ⟨reply, refused, code⟩ | ⟨path, drawn⟩
  · rw [refused]
    simp [code]
  · rw [drawn]
    simp

/-- A shapes file with one letter, a full circle of radius one. -/
def circleFile : Bytes :=
  Bytes.ofString "a shapes b\r\n" ++ [26, 97, 0, 97, 0, 1, 0, 97, 0, 3, 0, 10, 1, 0]

theorem font_of_circle_file :
    ∃ font, (Font.loadFile (.whole circleFile)).run Font.empty = (none, font) ∧ font.above = 0 ∧
      Layout.select font (Bytes.ofString "a") = [[10, 1, 0]] := by
  have seen : (Font.ofBytes circleFile).toOption.map (fun font =>
      (font.above, Layout.select font (Bytes.ofString "a"))) = some (0, [[10, 1, 0]]) := by
    decide +kernel
  cases read : Font.ofBytes circleFile with
  | error fault => simp [read, Except.toOption] at seen
  | ok font =>
      rw [read] at seen
      rcases Prod.mk.inj (Option.some.inj seen) with ⟨above, selected⟩
      exact ⟨font, Font.load_of_ok read Font.empty, above, selected⟩

theorem draw_full_circle :
    let _functions := PlaneFunctions.euclidean
    ∀ (pen : Pen ℝ) (radius : Nat), pen.down = true →
      (pen.drawArc ⟨radius, 0, 8, none⟩).1 =
        .arc pen.last ⟨pen.position.x - 2 * (radius * pen.scale), pen.position.y⟩ pen.position := by
  intro functions pen radius down
  have turn : (8 : ℝ) * octant = 2 * Real.pi := by
    show (8 : ℝ) * (2 * Real.pi / ((8 : Int) : ℝ)) = _
    push_cast
    ring
  have cosine (angle : ℝ) : Elementary.cos angle = Real.cos angle := rfl
  have sine (angle : ℝ) : Elementary.sin angle = Real.sin angle := rfl
  have across (reach : ℝ) : pen.position.x - reach + -reach = pen.position.x - 2 * reach := by ring
  simp [Pen.drawArc, Pen.sweepArc, Pen.finish, down, Pen.onCircle, turn, cosine, sine, across]

theorem circle_is_drawn :
    let _functions := PlaneFunctions.euclidean
    let request : Request ℝ := ⟨Bytes.ofString "font.shx", Bytes.ofString "a", 10⟩
    ∃ path, request.draw (.whole circleFile) = .ok (Svg.Drawing.ofPath path 10) ∧
      path.strokes = [.arc ⟨0, 0⟩ ⟨-20, 0⟩ ⟨0, 0⟩] := by
  intro functions request
  rcases font_of_circle_file with ⟨font, loaded, above, selected⟩
  let job := request.job font
  let pen : Pen ℝ := { position := ⟨0, 0⟩, last := ⟨0, 0⟩, scale := 10 }
  have scale : job.baseScale = 10 := by
    simp [Typesetting.baseScale, job, request, Request.job, above]
  have ready : (Layout.openRow job .initial zero).pen.beginGlyph job.baseScale = pen := by
    rw [scale]
    simp [Layout.openRow, Layout.BlockState.rowStart, Layout.BlockState.initial, Pen.ready,
      Pen.moveTo, Pen.beginGlyph, pen]
  have circle : (pen.drawArc ⟨1, 0, 8, none⟩).1 = .arc ⟨0, 0⟩ ⟨-20, 0⟩ ⟨0, 0⟩ := by
    rw [draw_full_circle pen 1 rfl]
    norm_num [pen]
  have executed : Glyph.execute job.setting [10, 1, 0] pen =
      ⟨[.arc ⟨0, 0⟩ ⟨-20, 0⟩ ⟨0, 0⟩], (pen.drawArc ⟨1, 0, 8, none⟩).2, none⟩ := by
    rw [Glyph.execute, Glyph.run_of_next rfl, Glyph.run_of_finished rfl, ← circle]
    rfl
  exact draw_of_single_glyph loaded (by decide +kernel) selected rfl
    ((congrArg (Glyph.execute job.setting [10, 1, 0]) ready).trans executed)

theorem ends_of_circle {path : Path ℝ} (strokes : path.strokes = [.arc ⟨0, 0⟩ ⟨-20, 0⟩ ⟨0, 0⟩]) :
    path.ends = {⟨0, 0⟩} ∧ ∃ stroke ∈ path.strokes, stroke ≠ .newPath := by
  constructor
  · simp [Path.ends, strokes, Stroke.endPoints]
  · simp [strokes]

theorem in_reach_of_origin (value : ℝ) : InReach (10 / 4) {0} value ↔ |value| ≤ 5 / 2 := by
  rw [in_reach_iff _ _ isLeast_singleton isGreatest_singleton, abs_le]
  norm_num

section

variable {α : Type u} [Field α] [LinearOrder α] [IsStrictOrderedRing α] [PlaneFunctions α]

/-- The end points of all strokes lie in the frame of the document, and a point lies there just when
each of its coordinates is at most a quarter of the size outside of their range. Control points have
no part in this. Of the points that the path data leads to, only the far point of a full circle is
one. -/
theorem frame_goes_around_end_points (request : Request α)
    (contents : FileContents) (drawing : Svg.Drawing α) (positive : 0 < request.size)
    (drawn : request.draw contents = .ok drawing)
    (touched : ∃ stroke ∈ drawing.path.strokes, stroke ≠ .newPath) :
    (∀ point ∈ drawing.path.ends, drawing.frame.Contains point.flip) ∧
    (∀ point : Point α, drawing.frame.Contains point.flip ↔
      InReach (request.size / 4) (Point.x '' drawing.path.ends) point.x ∧
        InReach (request.size / 4) (Point.y '' drawing.path.ends) point.y) ∧
    ∀ command ∈ Svg.commands drawing.path.strokes, drawing.frame.Contains command.target ∨
      ∃ start control target, .arc start control target ∈ drawing.path.strokes ∧
        Svg.closes start control target = true ∧ command.target = control.flip := by
  have framed : drawing.frame = Svg.Frame.ofPath drawing.path request.size := by
    rcases draw_cases request contents with ⟨reply, refused, _⟩ | ⟨path, made⟩
    · cases drawn.symm.trans refused
    · cases drawn.symm.trans made
      rfl
  rw [framed]
  have reach (point : Point α) := Svg.contains_of_path_iff touched request.size point
  have margin : 0 ≤ request.size / 4 := by linarith
  have inside : ∀ point ∈ drawing.path.ends,
      (Svg.Frame.ofPath drawing.path request.size).Contains point.flip := by
    intro point ends
    rw [reach]
    constructor
    · exact in_reach_of_mem margin (Set.mem_image_of_mem Point.x ends)
    · exact in_reach_of_mem margin (Set.mem_image_of_mem Point.y ends)
  refine ⟨inside, reach, ?_⟩
  intro command written
  rcases Svg.stroke_of_command written with ⟨stroke, member, pen, own⟩
  rcases Svg.target_of_command own with
    ⟨point, ends, leads⟩ | ⟨start, control, target, arc, closed, leads⟩
  · rw [leads]
    exact .inl (inside point ⟨stroke, member, ends⟩)
  · exact .inr ⟨start, control, target, arc ▸ member, closed, leads⟩

end

/-- A full circle through the origin is all that is drawn, and of it only the origin counts. -/
theorem circle_is_framed_by_its_start :
    let _functions := PlaneFunctions.euclidean
    let request : Request ℝ := ⟨Bytes.ofString "font.shx", Bytes.ofString "a", 10⟩
    ∃ drawing, 0 < request.size ∧ request.draw (.whole circleFile) = .ok drawing ∧
      (∃ stroke ∈ drawing.path.strokes, stroke ≠ .newPath) ∧
      drawing.frame.Contains (Point.flip ⟨0, 0⟩) ∧
      (∀ point : Point ℝ, drawing.frame.Contains point.flip ↔
        |point.x| ≤ 5 / 2 ∧ |point.y| ≤ 5 / 2) ∧
      ∀ command ∈ Svg.commands drawing.path.strokes, drawing.frame.Contains command.target ∨
        command.target = Point.flip ⟨-20, 0⟩ := by
  intro functions request
  rcases circle_is_drawn with ⟨path, drawn, strokes⟩
  rcases ends_of_circle strokes with ⟨ends, touched⟩
  have positive : 0 < request.size := by norm_num [request]
  rcases frame_goes_around_end_points request (.whole circleFile) _ positive drawn touched with
    ⟨inside, reach, targets⟩
  have start : (⟨0, 0⟩ : Point ℝ) ∈ path.ends := by rw [ends]; rfl
  refine ⟨_, positive, drawn, touched, inside _ start, ?_, ?_⟩
  · intro point
    rw [reach, Svg.Drawing.ofPath, ends, Set.image_singleton, Set.image_singleton]
    exact and_congr (in_reach_of_origin point.x) (in_reach_of_origin point.y)
  · intro command written
    rcases targets command written with inside | ⟨start, control, target, arc, -, leads⟩
    · exact .inl inside
    · rw [Svg.Drawing.ofPath, strokes] at arc
      rcases List.mem_singleton.mp arc
      exact .inr leads

/-- The control point of a full circle of radius ten, drawn at size ten, is not shown. -/
theorem full_circle_leaves_frame :
    let _functions := PlaneFunctions.euclidean
    let request : Request ℝ := ⟨Bytes.ofString "font.shx", Bytes.ofString "a", 10⟩
    ∃ drawing, 0 < request.size ∧ request.draw (.whole circleFile) = .ok drawing ∧
      .arc ⟨0, 0⟩ ⟨-20, 0⟩ ⟨0, 0⟩ ∈ drawing.path.strokes ∧
      ¬drawing.frame.Contains (Point.flip ⟨-20, 0⟩) := by
  intro functions request
  rcases circle_is_drawn with ⟨path, drawn, strokes⟩
  rcases ends_of_circle strokes with ⟨ends, touched⟩
  refine ⟨_, by norm_num [request], drawn, ?_, ?_⟩
  · rw [Svg.Drawing.ofPath, strokes]
    exact List.mem_cons_self
  · rw [Svg.Drawing.ofPath, Svg.contains_of_path_iff touched, ends, Set.image_singleton]
    rintro ⟨near, -⟩
    rw [in_reach_of_origin] at near
    norm_num at near

end Cli

end ShapeFont
