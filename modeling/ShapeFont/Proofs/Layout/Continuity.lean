import ShapeFont.Proofs.Glyph.Continuity
import ShapeFont.Proofs.Layout.Faults

/-!
# The strokes of a line

A glyph begins where the one before left the pen, and spacing of one leaves the pen there. So the
strokes of all the glyphs of a line make one chain from where the line starts, up to its end or to
the fault that breaks it off.
-/

namespace ShapeFont

universe u

variable {α : Type u}

@[simp] theorem Event.strokes_append (earlier later : List (Event α)) :
    strokes (earlier ++ later) = strokes earlier ++ strokes later :=
  List.filterMap_append

@[simp] theorem Event.strokes_map_stroke (drawn : List (Stroke α)) :
    strokes (drawn.map stroke) = drawn := by
  induction drawn with
  | nil => rfl
  | cons head drawn ih => exact congrArg (head :: ·) ih

namespace Layout

open Stroke

theorem leads_of_begun {pen after : Pen α} {scale : α} {drawn : List (Stroke α)}
    (leads : (pen.beginGlyph scale).Leads drawn after) : pen.Leads drawn after :=
  ⟨leads.chained, leads.last, leads.still, leads.moved⟩

variable [Scalar α] (job : Typesetting α)

theorem together_of_execute (setting : Setting) {pen : Pen α} (scale : α)
    (together : pen.last = pen.position) (program : Bytes) :
    let outcome := Glyph.execute setting program (pen.beginGlyph scale)
    outcome.pen.last = outcome.pen.position :=
  (Glyph.leads_of_run setting (pen.beginGlyph scale) (.start program)).together together

theorem advance_of_one {spacing : α} (one : (spacing == ofInt 1) = true) (startX : α)
    (pen : Pen α) : advance spacing startX pen = pen := if_pos one

/-- A line as it is drawn: where it starts, and what is drawn of it. -/
structure DrawnLine (α : Type u) where
  start : Point α
  events : List (Event α)

def drawnLines : BlockState α → List (Row α) → List (DrawnLine α)
  | _, [] => []
  | state, row :: rows =>
      let start := state.rowStart job row.startX
      let line := (drawLine job state.pen start row.programs).1
      ⟨start, line.events.toList⟩ ::
        match drawRow job state row with
        | (_, some _) => []
        | (after, none) => drawnLines after rows

/-- The rows that a text is drawn in. Aligned text has none if it cannot be measured. -/
def rowsToDraw (text : Bytes) : List (Row α) :=
  let texts := linePrograms job.font text
  let measured := draw job (plainRows texts)
  if text.isEmpty then []
  else if job.options.align = .start then plainRows texts
  else match measured.fault with
    | some _ => []
    | none => alignRows job.options.align measured.lines texts

section

variable (spacing : (job.options.hSpacing == ofInt 1) = true)

include spacing

/-- Whether a glyph is drawn to its end or not, its strokes go on from where the pen was. -/
theorem leads_draw_glyph (state : LineState α) (program : Bytes) :
    ∃ drawn, (drawGlyph job state program).1.events.toList = state.events.toList ++ drawn ∧
      state.pen.Leads (Event.strokes drawn) (drawGlyph job state program).1.pen := by
  have leads := leads_of_begun
    (Glyph.leads_of_run job.setting (state.pen.beginGlyph job.baseScale) (.start program))
  unfold drawGlyph Glyph.execute
  generalize Glyph.run job.setting (state.pen.beginGlyph job.baseScale) (.start program) =
    outcome at leads ⊢
  cases failed : outcome.fault with
  | some fault =>
      refine ⟨outcome.strokes.map Event.stroke, by simp [failed], ?_⟩
      rw [Event.strokes_map_stroke]
      simpa [failed] using leads
  | none =>
      refine ⟨outcome.strokes.map Event.stroke ++ [.characterEnd], by simp [failed], ?_⟩
      have nothing : Event.strokes [Event.characterEnd] = ([] : List (Stroke α)) := rfl
      rw [Event.strokes_append, Event.strokes_map_stroke, nothing, List.append_nil]
      simpa [failed, advance_of_one spacing] using leads

theorem leads_draw_glyphs (state : LineState α) (programs : List Bytes) :
    ∃ drawn, (drawGlyphs job state programs).1.events.toList = state.events.toList ++ drawn ∧
      state.pen.Leads (Event.strokes drawn) (drawGlyphs job state programs).1.pen := by
  induction programs generalizing state with
  | nil => exact ⟨[], (List.append_nil _).symm, Pen.leads_of_same_place rfl rfl⟩
  | cons program programs ih =>
      have ⟨first, events, leads⟩ := leads_draw_glyph job spacing state program
      cases taken : drawGlyph job state program with
      | mk after fault =>
          rw [taken] at events leads
          cases fault with
          | some fault =>
              rw [drawGlyphs, until_fault_of_some taken]
              exact ⟨first, events, leads⟩
          | none =>
              have ⟨later, behind, onward⟩ := ih after
              rw [drawGlyphs, until_fault_of_none taken]
              refine ⟨first ++ later, ?_, ?_⟩
              · rw [← List.append_assoc, ← events]
                exact behind
              · rw [Event.strokes_append]
                exact leads.append onward

theorem chained_draw_line (pen : Pen α) (start : Point α) (programs : List Bytes) :
    Chained start (Event.strokes (drawLine job pen start programs).1.events.toList) := by
  have ⟨drawn, events, leads⟩ :=
    leads_draw_glyphs job spacing { pen := pen.moveTo start, maxX := start.x } programs
  rw [drawLine, events]
  exact leads.chained

theorem chained_drawn_lines (state : BlockState α) (rows : List (Row α)) :
    ∀ line ∈ drawnLines job state rows, Chained line.start (Event.strokes line.events) := by
  induction rows generalizing state with
  | nil => exact List.forall_mem_nil _
  | cons row rows ih =>
      intro line member
      rw [drawnLines] at member
      rcases List.mem_cons.mp member with same | below
      · rw [same]
        exact chained_draw_line job spacing _ _ _
      · split at below
        · simp at below
        · exact ih _ line below

end

theorem draw_row_eq (state : BlockState α) (row : Row α) :
    (drawRow job state row).1.events = state.events ++
        (drawLine job state.pen (state.rowStart job row.startX) row.programs).1.events ∧
      ((drawRow job state row).2 = none → (drawRow job state row).1.lines.toList.map LineInfo.start =
        state.lines.toList.map LineInfo.start ++ [state.rowStart job row.startX]) := by
  unfold drawRow
  dsimp only
  split
  · next line fault stopped =>
      rw [stopped]
      exact ⟨rfl, fun done => by simp at done⟩
  · next line done =>
      rw [done]
      exact ⟨rfl, fun _ => by simp⟩

theorem drawn_lines_of_rows (state : BlockState α) (rows : List (Row α)) :
    (drawRows job state rows).1.events.toList =
        state.events.toList ++ (drawnLines job state rows).flatMap DrawnLine.events ∧
      ((drawRows job state rows).2 = none →
        (drawRows job state rows).1.lines.toList.map LineInfo.start =
          state.lines.toList.map LineInfo.start ++
            (drawnLines job state rows).map DrawnLine.start) := by
  induction rows generalizing state with
  | nil => simp [drawRows, untilFault, drawnLines]
  | cons row rows ih =>
      obtain ⟨events, starts⟩ := draw_row_eq job state row
      rw [drawnLines]
      cases taken : drawRow job state row with
      | mk after fault =>
          rw [taken] at events starts
          cases fault with
          | some fault =>
              rw [drawRows, until_fault_of_some taken]
              simpa using congrArg Array.toList events
          | none =>
              obtain ⟨behind, below⟩ := ih after
              rw [drawRows, until_fault_of_none taken]
              constructor
              · rw [← drawRows, behind, events]
                simp
              · intro done
                rw [← drawRows, below done, starts rfl]
                simp

theorem draw_eq (rows : List (Row α)) :
    (draw job rows).events = (drawnLines job .initial rows).flatMap DrawnLine.events ∧
      ((draw job rows).fault = none →
        (draw job rows).lines.map LineInfo.start =
          (drawnLines job .initial rows).map DrawnLine.start) := by
  have ⟨events, starts⟩ := drawn_lines_of_rows job .initial rows
  unfold draw
  cases drawn : drawRows job .initial rows with
  | mk state fault =>
      rw [drawn] at events starts
      cases fault with
      | some fault => exact ⟨events, fun none => by simp at none⟩
      | none => exact ⟨events, fun _ => starts rfl⟩

theorem render_of_rows (text : Bytes) :
    (render job text).events = (draw job (rowsToDraw job text)).events ∧
      ((render job text).fault = none → render job text = draw job (rowsToDraw job text)) := by
  by_cases empty : text = []
  · rw [empty]
    exact ⟨rfl, fun _ => rfl⟩
  · have someByte : text.isEmpty = false := by simpa using empty
    rw [rowsToDraw, someByte]
    by_cases plain : job.options.align = .start
    · rw [render_of_start job plain empty, if_pos plain]
      exact ⟨rfl, fun _ => rfl⟩
    · rw [render_of_aligned job plain empty, if_neg plain]
      cases measured : (draw job (plainRows (linePrograms job.font text))).fault with
      | some fault => exact ⟨rfl, fun none => by simp at none⟩
      | none => exact ⟨rfl, fun _ => rfl⟩

/-- The strokes of a program make a chain from the pen that it is run with, which ends where the pen
is left; each is drawn in a step whose pen permits it. With spacing of one the chain goes on from
glyph to glyph along every line of a text, also along one that a fault breaks off. -/
theorem strokes_are_chained (setting : Setting) (program : Bytes) (pen : Pen α)
    (job : Typesetting α) (text : Bytes) :
    let outcome := Glyph.execute setting program pen
    let moments := Glyph.moments setting pen (.start program)
    let rendering := render job text
    let lines := drawnLines job .initial (rowsToDraw job text)
    pen.Leads outcome.strokes outcome.pen ∧
      outcome.strokes = moments.flatMap (Glyph.Moment.drawn setting) ∧
      (∀ moment ∈ moments, ∀ stroke ∈ moment.drawn setting,
        moment.pen.Permits (moment.Restores setting) stroke) ∧
      ((job.options.hSpacing == ofInt 1) = true →
        rendering.events = lines.flatMap DrawnLine.events ∧
        (∀ line ∈ lines, Chained line.start (Event.strokes line.events)) ∧
        (rendering.fault = none →
          rendering.lines.map LineInfo.start = lines.map DrawnLine.start)) := by
  intro outcome moments rendering lines
  constructor
  · exact Glyph.leads_of_run setting pen (.start program)
  constructor
  · exact Glyph.strokes_of_moments setting pen (.start program)
  constructor
  · intro moment _
    exact Glyph.permits_moment setting moment
  · intro spacing
    have ⟨events, whole⟩ := render_of_rows job text
    have ⟨drawn, starts⟩ := draw_eq job (rowsToDraw job text)
    refine ⟨events.trans drawn, chained_drawn_lines job spacing _ _, ?_⟩
    intro done
    have same : rendering = draw job (rowsToDraw job text) := whole done
    rw [same] at done ⊢
    exact starts done

/-- A glyph that ends in a move, and one that draws a line from there and then fails. -/
theorem line_broken_off_is_chained :
    let font := (Font.empty.insertGlyph 65 [0x20, 2, 0x14]).insertGlyph 66 [0x18, 6]
    let job : Typesetting Float := ⟨font, Options.standard⟩
    let start := BlockState.initial.rowStart job zero
    let line := (drawLine job BlockState.initial.pen start [[0x20, 2, 0x14], [0x18, 6]]).1
    (job.options.hSpacing == ofInt 1) = true ∧
      (render job [65, 66]).events = line.events.toList ∧
      Chained start (Event.strokes line.events.toList) := by
  intro font job start line
  have one : (job.options.hSpacing == ofInt 1) = true := by decide
  have programs : linePrograms job.font [65, 66] = [[[0x20, 2, 0x14], [0x18, 6]]] := by decide
  have rows : rowsToDraw job [65, 66] = [⟨zero, [[0x20, 2, 0x14], [0x18, 6]]⟩] := by
    show plainRows (linePrograms job.font [65, 66]) = _
    rw [programs]
    rfl
  have lines : drawnLines job .initial (rowsToDraw job [65, 66]) = [⟨start, line.events.toList⟩] := by
    rw [rows, drawnLines]
    split
    · rfl
    · rfl
  have law := strokes_are_chained job.setting [0x20, 2] (Pen.ready start zero) job [65, 66]
  have ⟨events, chained, _⟩ := law.2.2.2 one
  rw [lines] at events chained
  refine ⟨one, ?_, chained _ List.mem_cons_self⟩
  rw [events, List.flatMap_singleton]

end Layout

end ShapeFont
