import ShapeFont.Proofs.Layout.Faults

/-!
# What a fault leaves behind

Aligned text is measured before anything is drawn, so a fault leaves nothing. Text that is not
aligned is drawn as it comes, and a fault leaves all that was drawn before it: the rows above, the
glyphs before it in its row, and the strokes of its own glyph up to the fault.
-/

namespace ShapeFont.Layout

universe u

variable {α : Type u}

/-- A glyph in the rows of a text, and how far the drawing has come when it is next. -/
structure Place (α : Type u) where
  above : List (List Bytes)
  before : List Bytes
  program : Bytes
  behind : List Bytes
  below : List (List Bytes)
  block : BlockState α
  line : LineState α

namespace Place

def texts (place : Place α) : List (List Bytes) :=
  place.above ++ (place.before ++ place.program :: place.behind) :: place.below

variable [Scalar α]

def outcome (job : Typesetting α) (place : Place α) : Outcome α :=
  Glyph.execute job.setting place.program (place.line.pen.beginGlyph job.baseScale)

/-- The rows above are drawn without a fault, and so are the glyphs before in the row. -/
structure Reached (job : Typesetting α) (place : Place α) : Prop where
  rows : drawRows job .initial (plainRows place.above) = (place.block, none)
  glyphs : drawLine job place.block.pen (place.block.rowStart job zero) place.before =
    (place.line, none)

def events (job : Typesetting α) (place : Place α) : List (Event α) :=
  place.block.events.toList ++ place.line.events.toList ++
    (place.outcome job).strokes.map Event.stroke

end Place

variable [Scalar α] (job : Typesetting α)

theorem events_of_failed_glyph {state last : LineState α} {program : Bytes} {fault : GlyphFault}
    (failed : drawGlyph job state program = (last, some fault)) :
    (Glyph.execute job.setting program (state.pen.beginGlyph job.baseScale)).fault = some fault ∧
      last.events.toList = state.events.toList ++
        (Glyph.execute job.setting program (state.pen.beginGlyph job.baseScale)).strokes.map
          Event.stroke := by
  unfold drawGlyph at failed
  dsimp only at failed
  split at failed
  · next found stopped =>
      obtain ⟨rfl, same⟩ := Prod.mk.inj failed
      exact ⟨stopped.trans same, by simp⟩
  · simp at failed

theorem events_of_failed_row {state last : BlockState α} {row : Row α} {fault : GlyphFault}
    (failed : drawRow job state row = (last, some fault)) :
    ∃ line, drawLine job state.pen (state.rowStart job row.startX) row.programs =
        (line, some fault) ∧
      last.events.toList = state.events.toList ++ line.events.toList := by
  unfold drawRow at failed
  dsimp only at failed
  split at failed
  · next line found stopped =>
      obtain ⟨rfl, same⟩ := Prod.mk.inj failed
      exact ⟨line, stopped.trans (congrArg _ same), by simp⟩
  · simp at failed

theorem place_of_failed_draw {texts : List (List Bytes)} {fault : GlyphFault}
    (failed : (draw job (plainRows texts)).fault = some fault) :
    (draw job (plainRows texts)).lines = [] ∧
      ∃ place : Place α, place.texts = texts ∧ place.Reached job ∧
        (place.outcome job).fault = some fault ∧
        (draw job (plainRows texts)).events = place.events job := by
  unfold draw at failed ⊢
  split at failed
  · next last found stopped =>
      obtain rfl := Option.some.inj failed
      obtain ⟨upper, row, lower, block, rows, drawn, stops⟩ := split_of_until_fault stopped
      obtain ⟨last, inside, behindRows⟩ := events_of_failed_row job stops
      obtain ⟨above, rest, rfl, rfl, rest⟩ := List.map_eq_append_iff.mp rows
      obtain ⟨text, below, rfl, rfl, rfl⟩ := List.map_eq_cons_iff.mp rest
      obtain ⟨before, program, behind, line, parts, glyphs, fails⟩ := split_of_until_fault inside
      obtain rfl : text = before ++ program :: behind := parts
      obtain ⟨fault, behindGlyphs⟩ := events_of_failed_glyph job fails
      refine ⟨rfl, ⟨above, before, program, behind, below, block, line⟩, rfl, ⟨drawn, glyphs⟩,
        fault, ?_⟩
      dsimp only
      rw [behindRows, behindGlyphs, Place.events, List.append_assoc]
      rfl
  · simp at failed

/-- A fault in aligned text leaves nothing, and once the text is measured there is none. Otherwise a
fault leaves no lines, and what was drawn up to it. -/
theorem aligned_rendering_is_atomic (job : Typesetting α) (text : Bytes) :
    (job.options.align ≠ .start →
      ((render job text).fault ≠ none →
        (render job text).events = [] ∧ (render job text).lines = []) ∧
      let measured := draw job (plainRows (linePrograms job.font text))
      let aligned := alignRows job.options.align measured.lines (linePrograms job.font text)
      (measured.fault = none →
        aligned.map Row.programs = linePrograms job.font text ∧ (draw job aligned).fault = none)) ∧
    (job.options.align = .start → ∀ fault, (render job text).fault = some fault →
      (render job text).lines = [] ∧
      ∃ place : Place α, place.texts = linePrograms job.font text ∧ place.Reached job ∧
        (place.outcome job).fault = some fault ∧ (render job text).events = place.events job) := by
  constructor
  · intro aligned
    refine ⟨?_, fun measured => fault_draw_aligned job measured⟩
    intro failed
    by_cases empty : text = []
    · subst empty
      exact ⟨rfl, rfl⟩
    · rw [render_of_aligned job aligned empty] at failed ⊢
      cases measured : (draw job (plainRows (linePrograms job.font text))).fault with
      | some fault => exact ⟨rfl, rfl⟩
      | none =>
          rw [measured] at failed
          exact absurd (fault_draw_aligned job measured).2 failed
  · intro plain fault failed
    by_cases empty : text = []
    · subst empty
      simp [render_nil] at failed
    · rw [render_of_start job plain empty] at failed ⊢
      exact place_of_failed_draw job failed

/-- The second glyph restores a position that none saved. Centered, the first one is not drawn
either. -/
theorem second_glyph_fails :
    let font := (Font.empty.insertGlyph 65 [0]).insertGlyph 66 [6]
    let job (align : Align) : Typesetting Float := ⟨font, { Options.standard with align }⟩
    ((job .middle).options.align ≠ .start ∧
      (render (job .middle) [65, 66]).fault ≠ none ∧
      (render (job .middle) [65, 66]).events = [] ∧ (render (job .middle) [65, 66]).lines = []) ∧
    ((job .finish).options.align ≠ .start ∧
      (draw (job .finish) (plainRows (linePrograms font [65, 65]))).fault = none ∧
      (draw (job .finish) (alignRows .finish
        (draw (job .finish) (plainRows (linePrograms font [65, 65]))).lines
        (linePrograms font [65, 65]))).fault = none) ∧
    (job .start).options.align = .start ∧
      (render (job .start) [65, 66]).fault = some .stackUnderflow ∧
      ∃ place : Place Float, place.texts = [[[0], [6]]] ∧ place.Reached (job .start) ∧
        (render (job .start) [65, 66]).events = place.events (job .start) := by
  intro font job
  let pen : Pen Float := Pen.ready Point.origin zero
  have fine (align : Align) : faultAlone? (job align).setting pen zero [0] = none := by
    rw [faultAlone?, Glyph.execute, Glyph.run_of_next rfl, Glyph.run_of_finished rfl]
    rfl
  have bad (align : Align) : faultAlone? (job align).setting pen zero [6] = some .stackUnderflow := by
    rw [faultAlone?, Glyph.execute, Glyph.run_of_faulty rfl]
  have selected : selectAll font [65, 66] = [[0], [6]] := by decide
  have fails (align : Align) : (render (job align) [65, 66]).fault = some .stackUnderflow := by
    rw [fault_render _ _ pen zero]
    show (selectAll font [65, 66]).findSome? _ = _
    rw [selected, List.findSome?_cons, fine, List.findSome?_cons, bad]
  have measured : (draw (job .finish) (plainRows (linePrograms font [65, 65]))).fault = none := by
    have programs : linePrograms font [65, 65] = [[[0], [0]]] := by decide
    rw [fault_draw _ _ pen zero, programs_plain_rows, programs]
    show [[0], [0]].findSome? _ = _
    rw [List.findSome?_cons, fine, List.findSome?_cons, fine, List.findSome?_nil]
  have lines : linePrograms font [65, 66] = [[[0], [6]]] := by decide
  have failed : (render (job .middle) [65, 66]).fault ≠ none := by
    rw [fails]
    simp
  obtain ⟨nothing, -⟩ := (aligned_rendering_is_atomic (job .middle) [65, 66]).1 (by decide)
  obtain ⟨-, drawn⟩ := (aligned_rendering_is_atomic (job .finish) [65, 65]).1 (by decide)
  obtain ⟨-, place, texts, reached, -, events⟩ :=
    (aligned_rendering_is_atomic (job .start) [65, 66]).2 rfl _ (fails .start)
  exact ⟨⟨by decide, failed, nothing failed⟩, ⟨by decide, measured, (drawn measured).2⟩, rfl,
    fails .start, place, texts.trans lines, reached, events⟩

end ShapeFont.Layout
