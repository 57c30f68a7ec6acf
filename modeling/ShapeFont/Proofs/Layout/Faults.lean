import ShapeFont.Layout.Block
import ShapeFont.Proofs.Glyph.Coordinates
import ShapeFont.Proofs.Glyph.Limits
import ShapeFont.Proofs.Stream.FrameStack
import ShapeFont.Proofs.Text.Lines

/-!
# Faults of a text

Each glyph of a text fails or succeeds by its program alone, wherever it stands and whatever was
drawn before it, because a glyph resets the pen and the stream, and coordinates have no say. So a
text fails as the first of its programs does that fails, and measuring meets the same fault as
drawing.
-/

namespace ShapeFont

universe u v

namespace FrameStack

open CodeStream

/-- Behind a reset the memory answers as a fresh stream does, whatever it held. -/
theorem answers_behind_reset (earlier operations : List Operation) (program : Bytes) :
    ∃ stack, empty.performAll (earlier ++ .reset program :: operations) =
      .ok ((CodeStream.performAll {} earlier).1 ++
        .done :: ((CodeStream.reset program).performAll operations).1, stack) := by
  obtain ⟨stack, run, -, -⟩ :=
    perform_all_spec sound_empty (earlier ++ .reset program :: operations)
  refine ⟨stack, run.trans ?_⟩
  rw [perform_all_append]
  rfl

end FrameStack

namespace Layout

section

variable {σ : Type u} {ι : Type v} {act : σ → ι → σ × Option GlyphFault}

theorem until_fault_of_none {state after : σ} {item : ι} {items : List ι}
    (done : act state item = (after, none)) :
    untilFault act state (item :: items) = untilFault act after items := by
  rw [untilFault, done]

theorem until_fault_of_some {state after : σ} {item : ι} {items : List ι} {fault : GlyphFault}
    (failed : act state item = (after, some fault)) :
    untilFault act state (item :: items) = (after, some fault) := by
  rw [untilFault, failed]

theorem until_fault_singleton (state : σ) (item : ι) :
    untilFault act state [item] = act state item := by
  cases taken : act state item with
  | mk after found =>
      cases found with
      | none =>
          rw [until_fault_of_none taken]
          rfl
      | some fault => rw [until_fault_of_some taken]

theorem split_of_none {state last : σ} {item : ι} {items : List ι}
    (done : untilFault act state (item :: items) = (last, none)) :
    ∃ middle, act state item = (middle, none) ∧ untilFault act middle items = (last, none) := by
  cases taken : act state item with
  | mk middle found =>
      cases found with
      | some fault => simp [until_fault_of_some taken] at done
      | none =>
          rw [until_fault_of_none taken] at done
          exact ⟨middle, rfl, done⟩

theorem until_fault_map {τ : Type u} {other : τ → ι → τ × Option GlyphFault} {change : σ → τ}
    (respects : ∀ state item, other (change state) item = Prod.map change id (act state item))
    (state : σ) (items : List ι) :
    untilFault other (change state) items = Prod.map change id (untilFault act state items) := by
  induction items generalizing state with
  | nil => rfl
  | cons item items ih =>
      have first := respects state item
      cases taken : act state item with
      | mk after found =>
          rw [taken] at first
          cases found with
          | none => rw [until_fault_of_none taken, until_fault_of_none first, ih]
          | some fault =>
              rw [until_fault_of_some taken, until_fault_of_some first]
              rfl

/-- Two ways through the items, which may change them, end in related states and with the same fault if
they do so at every item. -/
theorem until_fault_related {τ : Type u} {κ : Type v} {other : τ → κ → τ × Option GlyphFault}
    {related : σ → τ → Prop} {change : ι → κ}
    (respects : ∀ state partner item, related state partner →
      related (act state item).1 (other partner (change item)).1 ∧
        (other partner (change item)).2 = (act state item).2)
    {state : σ} {partner : τ} (start : related state partner) (items : List ι) :
    related (untilFault act state items).1 (untilFault other partner (items.map change)).1 ∧
      (untilFault other partner (items.map change)).2 = (untilFault act state items).2 := by
  induction items generalizing state partner with
  | nil => exact ⟨start, rfl⟩
  | cons item items ih =>
      obtain ⟨onward, faults⟩ := respects state partner item start
      rw [List.map_cons]
      cases first : act state item with
      | mk after found =>
          cases second : other partner (change item) with
          | mk reached also =>
              rw [first, second] at onward faults
              obtain rfl : also = found := faults
              cases also with
              | none =>
                  rw [until_fault_of_none first, until_fault_of_none second]
                  exact ih onward
              | some fault =>
                  rw [until_fault_of_some first, until_fault_of_some second]
                  exact ⟨onward, rfl⟩

theorem fault_until_fault {fault? : ι → Option GlyphFault}
    (same : ∀ state item, (act state item).2 = fault? item) (state : σ) (items : List ι) :
    (untilFault act state items).2 = items.findSome? fault? := by
  induction items generalizing state with
  | nil => rfl
  | cons item items ih =>
      have alone := same state item
      cases taken : act state item with
      | mk after found =>
          rw [taken] at alone
          obtain rfl : found = fault? item := alone
          rw [List.findSome?_cons]
          cases failed : fault? item with
          | none =>
              rw [failed] at taken
              rw [until_fault_of_none taken]
              exact ih after
          | some fault =>
              rw [failed] at taken
              rw [until_fault_of_some taken]

/-- A fault ends the items at one of them, and those before it went well. -/
theorem split_of_until_fault {state last : σ} {items : List ι} {fault : GlyphFault}
    (stopped : untilFault act state items = (last, some fault)) :
    ∃ before item after middle, items = before ++ item :: after ∧
      untilFault act state before = (middle, none) ∧ act middle item = (last, some fault) := by
  induction items generalizing state with
  | nil => simp [untilFault] at stopped
  | cons item items ih =>
      cases taken : act state item with
      | mk after found =>
          cases found with
          | some found =>
              rw [until_fault_of_some taken] at stopped
              exact ⟨[], item, items, state, rfl, rfl, taken.trans stopped⟩
          | none =>
              rw [until_fault_of_none taken] at stopped
              obtain ⟨before, last, behind, middle, rfl, through, failed⟩ := ih stopped
              exact ⟨item :: before, last, behind, middle, rfl,
                (until_fault_of_none taken).trans through, failed⟩

end

theorem find_some_flat_map {κ : Type u} {ι : Type v} (members : κ → List ι)
    (fault? : ι → Option GlyphFault) (groups : List κ) :
    (groups.flatMap members).findSome? fault? =
      groups.findSome? fun group => (members group).findSome? fault? := by
  induction groups with
  | nil => rfl
  | cons group groups ih =>
      rw [List.flatMap_cons, List.findSome?_append, List.findSome?_cons, ih]
      cases (members group).findSome? fault? <;> rfl

variable {α : Type u} [Scalar α]

/-- The fault of a program alone, as a glyph begins with it. -/
def faultAlone? (setting : Setting) (pen : Pen α) (scale : α) (program : Bytes) :
    Option GlyphFault :=
  (Glyph.execute setting program (pen.beginGlyph scale)).fault

theorem fault_alone_eq (setting : Setting) (first second : Pen α) (scale other : α)
    (program : Bytes) :
    faultAlone? setting first scale program = faultAlone? setting second other program :=
  (Glyph.execute_alike (Pen.alike_begin_glyph first second scale other) setting program).fault

theorem fault_alone_vector (setting : Setting) (pen : Pen α) (scale : α) {byte : UInt8}
    (vector : 16 ≤ byte.toNat) : faultAlone? setting pen scale [byte] = none := by
  have fetched : Instruction.fetch setting.font.kind (CodeStream.start [byte]) =
      .ready (.vector (byte.toNat / 16) (byte.toNat % 16)) { frames := [[]] } := if_pos vector
  have drawn : Glyph.step setting (pen.beginGlyph scale) (CodeStream.start [byte]) =
      .next [((pen.beginGlyph scale).drawVector (byte.toNat / 16) (byte.toNat % 16)).1]
        ((pen.beginGlyph scale).drawVector (byte.toNat / 16) (byte.toNat % 16)).2
        { frames := [[]] } := by
    rw [Glyph.step, fetched]
    rfl
  rw [faultAlone?, Glyph.execute, Glyph.run_of_next drawn, Glyph.run_of_finished rfl]
  rfl

variable (job : Typesetting α)

theorem fault_draw_glyph (state : LineState α) (program : Bytes) :
    (drawGlyph job state program).2 =
      faultAlone? job.setting state.pen job.baseScale program := by
  unfold drawGlyph faultAlone?
  dsimp only
  split <;> simp_all

theorem fault_draw_line (pen : Pen α) (start : Point α) (programs : List Bytes) (other : Pen α)
    (scale : α) :
    (drawLine job pen start programs).2 =
      programs.findSome? (faultAlone? job.setting other scale) := by
  apply fault_until_fault
  intro state program
  rw [fault_draw_glyph]
  exact fault_alone_eq job.setting state.pen other job.baseScale scale program

theorem fault_draw_row (state : BlockState α) (row : Row α) :
    (drawRow job state row).2 =
      (drawLine job state.pen (state.rowStart job row.startX) row.programs).2 := by
  unfold drawRow
  dsimp only
  split <;> simp_all

theorem fault_draw_rows (state : BlockState α) (rows : List (Row α)) (pen : Pen α) (scale : α) :
    (drawRows job state rows).2 =
      (rows.flatMap Row.programs).findSome? (faultAlone? job.setting pen scale) := by
  rw [find_some_flat_map]
  apply fault_until_fault
  intro state row
  rw [fault_draw_row]
  exact fault_draw_line job _ _ row.programs pen scale

theorem fault_draw (rows : List (Row α)) (pen : Pen α) (scale : α) :
    (draw job rows).fault =
      (rows.flatMap Row.programs).findSome? (faultAlone? job.setting pen scale) := by
  rw [← fault_draw_rows job .initial rows pen scale]
  unfold draw
  split <;> simp_all

def linePrograms (font : Font) (text : Bytes) : List (List Bytes) :=
  (splitLines text).map (select font)

theorem line_programs_of_clean (font : Font) {line : Bytes} (clean : 10 ∉ line) :
    linePrograms font line = [select font line] := by
  rw [linePrograms, split_lines_of_not_mem clean, List.map_singleton]

theorem flatten_line_programs (font : Font) (text : Bytes) :
    (linePrograms font text).flatten = selectAll font text := by
  rw [linePrograms, ← List.flatMap_def, select_lines]

theorem programs_plain_rows (texts : List (List Bytes)) :
    (plainRows texts : List (Row α)).flatMap Row.programs = texts.flatten := by
  rw [List.flatMap_def, plainRows, List.map_map]
  exact congrArg List.flatten (List.map_id texts)

theorem programs_align_rows (align : Align) {lines : List (LineInfo α)} {texts : List (List Bytes)}
    (same : lines.length = texts.length) :
    (alignRows align lines texts).map Row.programs = texts := by
  apply List.ext_getElem
  · simp [alignRows, same]
  · intro index _ _
    simp [alignRows]

theorem lines_draw_row {state after : BlockState α} {row : Row α}
    (done : drawRow job state row = (after, none)) :
    after.lines.size = state.lines.size + 1 := by
  unfold drawRow at done
  dsimp only at done
  split at done
  · simp at done
  · obtain ⟨rfl, -⟩ := Prod.mk.inj done
    exact Array.size_push _

theorem lines_draw_rows {state last : BlockState α} {rows : List (Row α)}
    (done : drawRows job state rows = (last, none)) :
    last.lines.size = state.lines.size + rows.length := by
  induction rows generalizing state with
  | nil =>
      obtain ⟨rfl, -⟩ := Prod.mk.inj done
      rfl
  | cons row rows ih =>
      obtain ⟨middle, first, later⟩ := split_of_none done
      rw [ih later, lines_draw_row job first, List.length_cons]
      omega

theorem length_lines_draw {rows : List (Row α)} (done : (draw job rows).fault = none) :
    (draw job rows).lines.length = rows.length := by
  unfold draw at done ⊢
  split at done
  · simp at done
  · next state drawn =>
      have count := lines_draw_rows job drawn
      rw [← Array.length_toList] at count
      simpa [BlockState.initial] using count

/-- What was measured without a fault is drawn without a fault, wherever its lines start. -/
theorem fault_draw_aligned {align : Align} {texts : List (List Bytes)}
    (measured : (draw job (plainRows texts)).fault = none) :
    (alignRows align (draw job (plainRows texts)).lines texts).map Row.programs = texts ∧
      (draw job (alignRows align (draw job (plainRows texts)).lines texts)).fault = none := by
  have count := length_lines_draw job measured
  have same := programs_align_rows align (count.trans (List.length_map ..))
  refine ⟨same, ?_⟩
  rw [fault_draw job _ (Pen.ready Point.origin zero) zero, programs_plain_rows] at measured
  rw [fault_draw job _ (Pen.ready Point.origin zero) zero, List.flatMap_def, same]
  exact measured

theorem render_nil : render job [] = {} := rfl

theorem render_of_start (plain : job.options.align = .start) {text : Bytes} (someByte : text ≠ []) :
    render job text = draw job (plainRows (linePrograms job.font text)) := by
  rw [render, if_neg (by simpa using someByte), if_pos plain]
  rfl

theorem render_of_aligned (aligned : job.options.align ≠ .start) {text : Bytes}
    (someByte : text ≠ []) :
    render job text =
      match (draw job (plainRows (linePrograms job.font text))).fault with
      | some fault => { fault := some fault }
      | none => draw job (alignRows job.options.align
          (draw job (plainRows (linePrograms job.font text))).lines (linePrograms job.font text)) := by
  rw [render, if_neg (by simpa using someByte), if_neg aligned]
  rfl

theorem fault_render (text : Bytes) (pen : Pen α) (scale : α) :
    (render job text).fault =
      (selectAll job.font text).findSome? (faultAlone? job.setting pen scale) := by
  have measured := fault_draw job (plainRows (linePrograms job.font text)) pen scale
  rw [programs_plain_rows, flatten_line_programs] at measured
  by_cases empty : text = []
  · subst empty
    rfl
  · by_cases plain : job.options.align = .start
    · rw [render_of_start job plain empty]
      exact measured
    · rw [render_of_aligned job plain empty, ← measured]
      cases failed : (draw job (plainRows (linePrograms job.font text))).fault with
      | some fault => rfl
      | none => exact (fault_draw_aligned job failed).2

theorem fault_render_of_vectors {text : Bytes} (bytes : Bytes)
    (selected : selectAll job.font text = bytes.map fun byte => [byte])
    (vectors : ∀ byte ∈ bytes, 16 ≤ byte.toNat) : (render job text).fault = none := by
  let pen : Pen α := Pen.ready Point.origin zero
  rw [fault_render job text pen zero, selected, List.findSome?_eq_none_iff]
  intro program member
  have ⟨byte, inside, same⟩ := List.mem_map.mp member
  rw [← same]
  exact fault_alone_vector job.setting pen zero (vectors byte inside)

/-- A text fails as the first of its programs does that fails when it is run alone, from any pen and
at any scale. Size, spacing and alignment have no part in it, nor has what earlier glyphs left in
the memory of the stream: a run gets the answers there that it gets from a fresh stream. -/
theorem render_fails_with_first_program (job : Typesetting α) (text : Bytes) :
    (∀ (pen : Pen α) (scale : α), (render job text).fault =
      (selectAll job.font text).findSome? fun program =>
        (Glyph.execute job.setting program (pen.beginGlyph scale)).fault) ∧
    (∀ (fontSize hSpacing vSpacing : α) (align : Align),
      (render { job with options := { job.options with fontSize, hSpacing, vSpacing, align } }
        text).fault = (render job text).fault) ∧
    ∀ (earlier : List CodeStream.Operation) (program : Bytes) (pen : Pen α) (scale : α),
      let start := CodeStream.start program
      let operations := Glyph.runOperations job.setting (pen.beginGlyph scale) start
      ∃ stack, FrameStack.empty.performAll (earlier ++ .reset program.counted :: operations) =
        .ok ((CodeStream.performAll {} earlier).1 ++ .done :: (start.performAll operations).1,
          stack) := by
  refine ⟨fun pen scale => fault_render job text pen scale, ?_, ?_⟩
  · intro fontSize hSpacing vSpacing align
    have pen : Pen α := Pen.ready Point.origin zero
    rw [fault_render job text pen zero, fault_render _ text pen zero]
    rfl
  · intro earlier program pen scale start operations
    exact FrameStack.answers_behind_reset earlier operations program.counted

end Layout

end ShapeFont
