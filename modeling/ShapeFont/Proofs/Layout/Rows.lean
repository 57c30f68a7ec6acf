import ShapeFont.Proofs.Layout.Similarity

/-!
# Texts as rows

Each row of a text is drawn as it would be drawn alone from x = 0 on the baseline zero, moved to its
own start. In exact arithmetic the baselines go down by the same distance from row to row. So the
strokes and the line infos of a text are read off its rows one by one.
-/

namespace ShapeFont.Layout

universe u

variable {α : Type u}

section

variable [Scalar α] (job : Typesetting α)

theorem draw_line_of_pen (pen other : Pen α) (start : Point α) (programs : List Bytes) :
    ∃ last, drawLine job pen start programs =
      ({ (drawLine job other start programs).1 with pen := last },
        (drawLine job other start programs).2) := by
  cases programs with
  -- Without a glyph nothing resets the pen, which is then the other one only in its place.
  | nil => exact ⟨pen.moveTo start, rfl⟩
  | cons program programs => exact ⟨(drawLine job other start (program :: programs)).1.pen, rfl⟩

def lineFrom (start : Point α) (programs : List Bytes) : LineState α :=
  (drawLine job (Pen.ready start (ofInt 1)) start programs).1

/-- How far to the right a line reaches from x = 0. -/
def reach (programs : List Bytes) : α := (lineFrom job Point.origin programs).maxX

def eventsAlone (programs : List Bytes) : List (Event α) :=
  (lineFrom job Point.origin programs).events.toList

/-- What is reported of a line that starts at `start`. -/
def infoAt (start : Point α) (programs : List Bytes) : LineInfo α :=
  { start, maxX := (lineFrom job start programs).maxX
    width := (lineFrom job start programs).maxX - start.x
    height := job.baseScale * job.lineHeight }

theorem draw_row_of_none {state after : BlockState α} {row : Row α}
    (done : drawRow job state row = (after, none)) :
    ∃ last, after =
      { pen := last
        offset := state.offset - job.options.vSpacing * job.lineHeight
        events := state.events ++
          (lineFrom job (state.rowStart job row.startX) row.programs).events
        lines := state.lines.push (infoAt job (state.rowStart job row.startX) row.programs) } := by
  have ⟨last, same⟩ := draw_line_of_pen job state.pen
    (Pen.ready (state.rowStart job row.startX) (ofInt 1)) (state.rowStart job row.startX)
    row.programs
  unfold drawRow at done
  dsimp only at done
  rw [same] at done
  cases failed : (drawLine job (Pen.ready (state.rowStart job row.startX) (ofInt 1))
      (state.rowStart job row.startX) row.programs).2 with
  | some fault => simp [failed] at done
  | none =>
      simp only [failed, Prod.mk.injEq, and_true] at done
      exact ⟨last, done.symm⟩

end

variable [Field α] [LinearOrder α] [IsStrictOrderedRing α] [PlaneFunctions α]
  (job : Typesetting α)

theorem line_from_eq (start : Point α) (programs : List Bytes) :
    lineFrom job start programs =
      (lineFrom job Point.origin programs).under (Similarity.translation start.x start.y) := by
  have drawn := draw_line_under job (Similarity.translation start.x start.y)
    (Similarity.respected_translation start.x start.y) (Pen.ready Point.origin (ofInt 1))
    Point.origin programs
  have moved : (Similarity.translation start.x start.y).apply Point.origin = start := by
    simp [Similarity.apply_translation, Point.translate, Point.origin]
  have pen : (Pen.ready Point.origin (ofInt 1)).under (Similarity.translation start.x start.y) =
      Pen.ready start (ofInt 1) := by
    simp only [Pen.under, Pen.ready, moved, List.map_nil]
    simp [Similarity.translation]
  have size : enlarged (Similarity.translation start.x start.y).factor job = job := enlarged_one job
  rw [moved, pen, size] at drawn
  exact congrArg Prod.fst drawn

theorem events_line_from (start : Point α) (programs : List Bytes) :
    (lineFrom job start programs).events.toList =
      (eventsAlone job programs).map (Event.mapPoints (Point.translate · start.x start.y)) := by
  have change : (Similarity.translation start.x start.y).apply =
      (Point.translate · start.x start.y) := by
    funext point
    exact Similarity.apply_translation start.x start.y point
  rw [line_from_eq, LineState.under, Array.toList_map, change]
  rfl

theorem info_at_eq (start : Point α) (programs : List Bytes) :
    infoAt job start programs =
      { start, maxX := reach job programs + start.x, width := reach job programs
        height := job.baseScale * job.lineHeight } := by
  have furthest : (lineFrom job start programs).maxX = reach job programs + start.x := by
    rw [line_from_eq]
    simp [LineState.under, Similarity.translation, reach]
  rw [infoAt, furthest, add_sub_cancel_right]

/-- Where a row starts that has `index` rows above it, the first of them at `offset`. -/
def placeBelow (offset : α) (index : Nat) (row : Row α) : Point α :=
  ⟨row.startX, (offset - index * (job.options.vSpacing * job.lineHeight)) * job.baseScale⟩

theorem place_below_zero (state : BlockState α) (row : Row α) :
    placeBelow job state.offset 0 row = state.rowStart job row.startX := by
  simp [placeBelow, BlockState.rowStart]

omit [IsStrictOrderedRing α] in
theorem place_below_succ (offset : α) (index : Nat) (row : Row α) :
    placeBelow job offset (index + 1) row =
      placeBelow job (offset - job.options.vSpacing * job.lineHeight) index row := by
  simp only [placeBelow, Point.mk.injEq, true_and]
  push_cast
  ring

theorem draw_rows_of_none {state last : BlockState α} {rows : List (Row α)}
    (done : drawRows job state rows = (last, none)) :
    last.events.toList = state.events.toList ++ (rows.mapIdx fun index row =>
        (lineFrom job (placeBelow job state.offset index row) row.programs).events.toList).flatten ∧
      last.lines.toList = state.lines.toList ++ rows.mapIdx fun index row =>
        infoAt job (placeBelow job state.offset index row) row.programs := by
  -- A row drawn takes its spacing off the offset, which is one more row above for those behind it.
  induction rows generalizing state with
  | nil =>
      have same : state = last := congrArg Prod.fst done
      simp [same]
  | cons row rows ih =>
      have ⟨middle, first, later⟩ := split_of_none done
      have ⟨pen, same⟩ := draw_row_of_none job first
      have ⟨events, lines⟩ := ih later
      rw [events, lines, same]
      simp only [List.mapIdx_cons, place_below_zero, place_below_succ, List.flatten_cons,
        Array.toList_append, Array.toList_push, List.append_assoc, List.cons_append,
        List.nil_append, and_self]

def baseline (index : Nat) : α :=
  -(index : α) * job.options.vSpacing * job.lineHeight * job.baseScale

def rowsFrom (startX : List Bytes → α) (texts : List (List Bytes)) : List (Row α) :=
  texts.map fun programs => ⟨startX programs, programs⟩

theorem map_idx_map {ι κ ρ : Type*} (change : ι → κ) (act : Nat → κ → ρ) (items : List ι) :
    (items.map change).mapIdx act = items.mapIdx fun index item => act index (change item) := by
  apply List.ext_getElem
  · simp
  · intro index _ _
    simp

theorem draw_of_none {startX : List Bytes → α} {texts : List (List Bytes)}
    (done : (draw job (rowsFrom startX texts)).fault = none) :
    (draw job (rowsFrom startX texts)).events = (texts.mapIdx fun index programs =>
        (eventsAlone job programs).map
          (Event.mapPoints (Point.translate · (startX programs) (baseline job index)))).flatten ∧
      (draw job (rowsFrom startX texts)).lines = texts.mapIdx fun index programs =>
        infoAt job ⟨startX programs, baseline job index⟩ programs := by
  have place (index : Nat) (row : Row α) :
      placeBelow job (BlockState.initial (α := α)).offset index row =
        ⟨row.startX, baseline job index⟩ := by
    simp only [placeBelow, BlockState.initial, baseline, zero_exact, Point.mk.injEq, true_and]
    ring
  unfold draw at done ⊢
  split at done
  · simp at done
  · next last drawn =>
      obtain ⟨events, lines⟩ := draw_rows_of_none job drawn
      simp only [place, events_line_from, rowsFrom, map_idx_map] at events lines
      exact ⟨events, lines⟩

theorem draw_plain_of_none {texts : List (List Bytes)}
    (done : (draw job (plainRows texts)).fault = none) :
    (draw job (plainRows texts)).events = (texts.mapIdx fun index programs =>
        (eventsAlone job programs).map
          (Event.mapPoints (Point.translate · 0 (baseline job index)))).flatten ∧
      (draw job (plainRows texts)).lines = texts.mapIdx fun index programs =>
        infoAt job ⟨0, baseline job index⟩ programs := by
  have rows : (plainRows texts : List (Row α)) = rowsFrom (fun _ => 0) texts := by
    simp only [plainRows, rowsFrom, zero_exact]
  rw [rows] at done ⊢
  exact draw_of_none job done

end ShapeFont.Layout
