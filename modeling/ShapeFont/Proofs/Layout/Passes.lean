import ShapeFont.Proofs.Layout.Faults

/-!
# Reading and drawing in one pass

A text can be drawn while it is read: code point by code point, each decoded where it stands in the
whole text and drawn at once, a row being closed where a line feed stands. What this draws, reports
and fails with is what the rows of the text give, which are cut and selected before anything is
drawn. Aligned text takes two such passes, the first of them to measure.
-/

namespace ShapeFont.Layout

universe u

variable {α : Type u} [Scalar α] (job : Typesetting α)

def drawCode (state : LineState α) (code : Nat) : LineState α × Option GlyphFault :=
  match job.font.glyph? code with
  | none => (state, none)
  | some program => drawGlyph job state program

/-- Draws a code point. Only where it has no glyph do letters stand in for it. -/
def drawCharacter (state : LineState α) (code : Nat) : LineState α × Option GlyphFault :=
  if job.font.hasGlyph code then drawCode job state code
  else match Fallback.spelling? code with
    | some spelling => untilFault (drawCode job) state (Fallback.letters spelling)
    | none => drawCode job state code

def openRow (block : BlockState α) (startX : α) : LineState α :=
  { pen := block.pen.moveTo (block.rowStart job startX), maxX := startX }

def closeRow (block : BlockState α) (startX : α) (line : LineState α) : BlockState α :=
  { pen := line.pen
    offset := block.offset - job.options.vSpacing * job.lineHeight
    events := block.events ++ line.events
    lines := block.lines.push
      { start := block.rowStart job startX, maxX := line.maxX, width := line.maxX - startX
        height := job.baseScale * job.lineHeight } }

/-- Goes on behind glyphs of a row. A fault in them ends the text there. -/
def behind (block : BlockState α) (drawn : LineState α × Option GlyphFault)
    (onward : LineState α → BlockState α × Option GlyphFault) : BlockState α × Option GlyphFault :=
  match drawn with
  | (line, some fault) =>
      ({ block with pen := line.pen, events := block.events ++ line.events }, some fault)
  | (line, none) => onward line

/-- Goes on from within a row. The first `skip` bytes belong to a code point that was drawn. The row
and those below it start where `starts` says, or at x = 0 for want of more. -/
def passFrom (starts : List α) (block : BlockState α) (line : LineState α) :
    (skip : Nat) → Bytes → BlockState α × Option GlyphFault
  | _, [] => (closeRow job block (starts.headD zero) line, none)
  | skip + 1, _ :: rest => passFrom starts block line skip rest
  | 0, byte :: rest =>
      if byte = 10 then
        let closed := closeRow job block (starts.headD zero) line
        passFrom starts.tail closed (openRow job closed (starts.tail.headD zero)) 0 rest
      else
        let head := Utf8.decodeHead byte rest
        behind block (drawCharacter job line head.code) fun line =>
          passFrom starts block line (head.width - 1) rest

def pass (starts : List α) (text : Bytes) : Rendering α :=
  match passFrom job starts .initial (openRow job .initial (starts.headD zero)) 0 text with
  | (block, some fault) => { events := block.events.toList, fault := some fault }
  | (block, none) => { events := block.events.toList, lines := block.lines.toList }

/-- Draws a text in one pass or, where it is aligned, in two. -/
def inPasses (text : Bytes) : Rendering α :=
  if text.isEmpty then {}
  else if job.options.align = .start then pass job [] text
  else
    let measured := pass job [] text
    match measured.fault with
    | some fault => { fault := some fault }
    | none =>
        pass job (measured.lines.map fun line =>
          alignedStart job.options.align (widest measured.lines) line.maxX) text

theorem draw_codes_eq (state : LineState α) (codes : List Nat) :
    untilFault (drawCode job) state codes =
      drawGlyphs job state (codes.filterMap job.font.glyph?) := by
  induction codes generalizing state with
  | nil => rfl
  | cons code codes ih =>
      cases found : job.font.glyph? code with
      | none =>
          have nothing : drawCode job state code = (state, none) := by rw [drawCode, found]
          rw [until_fault_of_none nothing, ih, List.filterMap_cons_none found]
      | some program =>
          have glyph : drawCode job state code = drawGlyph job state program := by
            rw [drawCode, found]
          rw [List.filterMap_cons_some found, untilFault, glyph, drawGlyphs, untilFault]
          cases drawGlyph job state program with
          | mk after fault =>
              cases fault with
              | none => exact ih after
              | some fault => rfl

theorem draw_character_eq (state : LineState α) (code : Nat) :
    drawCharacter job state code = drawGlyphs job state (programsOf job.font code) := by
  cases found : job.font.glyph? code with
  | some program =>
      have glyph : drawCode job state code = drawGlyph job state program := by rw [drawCode, found]
      rw [drawCharacter, Font.hasGlyph, programsOf, found, Option.isSome_some, if_pos rfl, glyph,
        drawGlyphs, until_fault_singleton]
  | none =>
      have nothing : drawCode job state code = (state, none) := by rw [drawCode, found]
      simp only [drawCharacter, programsOf, Font.hasGlyph, found, nothing]
      cases Fallback.spelling? code with
      | none => rfl
      | some spelling => exact draw_codes_eq job state (Fallback.letters spelling)

theorem behind_append (block : BlockState α) (state : LineState α) (first second : List Bytes)
    (onward : LineState α → BlockState α × Option GlyphFault) :
    behind block (drawGlyphs job state (first ++ second)) onward =
      behind block (drawGlyphs job state first) fun line =>
        behind block (drawGlyphs job line second) onward := by
  induction first generalizing state with
  | nil => rfl
  | cons program programs ih =>
      cases taken : drawGlyph job state program with
      | mk after fault =>
          cases fault with
          | none =>
              rw [List.cons_append, drawGlyphs, until_fault_of_none taken, until_fault_of_none taken]
              exact ih after
          | some fault =>
              rw [List.cons_append, drawGlyphs, until_fault_of_some taken, until_fault_of_some taken]
              rfl

/-- Up to a line feed or the end of the text the pass draws what the bytes before it select, although
it decodes them with all that comes behind. -/
theorem pass_from_line (starts : List α) (block : BlockState α) (state : LineState α) {skip : Nat}
    {line tail : Bytes} (inside : skip ≤ line.length) (clean : 10 ∉ line)
    (ends : tail = [] ∨ ∃ more, tail = 10 :: more) :
    passFrom job starts block state skip (line ++ tail) =
      behind block (drawGlyphs job state
        (((Utf8.decodeFrom skip line).map Utf8.Decoded.code).flatMap (programsOf job.font)))
        fun line => passFrom job starts block line 0 tail := by
  induction line generalizing skip state with
  | nil =>
      rw [Nat.le_zero.mp inside]
      rfl
  | cons byte rest ih =>
      have cleanRest : 10 ∉ rest := fun member => clean (List.mem_cons_of_mem _ member)
      cases skip with
      | succ skip => exact ih state (Nat.le_of_succ_le_succ inside) cleanRest
      | zero =>
          have other : byte ≠ 10 := fun same => clean (same ▸ List.mem_cons_self)
          -- A line feed continues no sequence, so the code point here is the one the line has alone.
          have head : Utf8.decodeHead byte (rest ++ tail) = Utf8.decodeHead byte rest := by
            rcases ends with rfl | ⟨more, rfl⟩
            · rw [List.append_nil]
            · exact Utf8.decode_head_append_of_stop (by decide) byte rest more
          have onward (state : LineState α) :=
            ih state (Utf8.width_decode_head_le byte rest) cleanRest
          rw [List.cons_append, passFrom, if_neg other, head, Utf8.decodeFrom, List.map_cons,
            List.flatMap_cons, behind_append]
          simp only [draw_character_eq, onward]

def rowsWith : List α → List (List Bytes) → List (Row α)
  | _, [] => []
  | starts, programs :: texts => ⟨starts.headD zero, programs⟩ :: rowsWith starts.tail texts

theorem draw_rows_cons (block : BlockState α) (startX : α) (programs : List Bytes)
    (rows : List (Row α)) :
    drawRows job block (⟨startX, programs⟩ :: rows) =
      behind block (drawGlyphs job (openRow job block startX) programs) fun line =>
        drawRows job (closeRow job block startX line) rows := by
  have same : drawLine job block.pen (block.rowStart job startX) programs =
      drawGlyphs job (openRow job block startX) programs := rfl
  cases drawn : drawGlyphs job (openRow job block startX) programs with
  | mk line fault =>
      cases fault with
      | none =>
          have row : drawRow job block ⟨startX, programs⟩ = (closeRow job block startX line, none) := by
            rw [drawRow, same, drawn]
            rfl
          exact until_fault_of_none row
      | some fault =>
          have row : drawRow job block ⟨startX, programs⟩ = behind block (line, some fault)
              fun line => (closeRow job block startX line, none) := by
            rw [drawRow, same, drawn]
            rfl
          exact until_fault_of_some row

theorem pass_from_eq (starts : List α) (block : BlockState α) (text : Bytes) :
    passFrom job starts block (openRow job block (starts.headD zero)) 0 text =
      drawRows job block (rowsWith starts (linePrograms job.font text)) := by
  -- From row to row: the first start is that of the row at hand, whose bytes are done at once.
  induction text using line_induction generalizing starts block with
  | last line clean =>
      have whole := pass_from_line job starts block (openRow job block (starts.headD zero))
        (Nat.zero_le _) clean (.inl rfl)
      rw [List.append_nil] at whole
      rw [whole, linePrograms, split_lines_of_not_mem clean, List.map_singleton, select_eq]
      exact (draw_rows_cons job block _ _ []).symm
  | feed line more clean ih =>
      have upToFeed := pass_from_line job starts block (openRow job block (starts.headD zero))
        (Nat.zero_le _) clean (.inr ⟨more, rfl⟩)
      have onward (line : LineState α) : passFrom job starts block line 0 (10 :: more) =
          drawRows job (closeRow job block (starts.headD zero) line)
            (rowsWith starts.tail (linePrograms job.font more)) := by
        rw [passFrom, if_pos rfl]
        exact ih starts.tail _
      rw [upToFeed, linePrograms, split_lines_append_feed, split_lines_of_not_mem clean,
        List.singleton_append, List.map_cons, select_eq]
      simp only [onward]
      exact (draw_rows_cons job block _ _ _).symm

theorem pass_eq (starts : List α) (text : Bytes) :
    pass job starts text = draw job (rowsWith starts (linePrograms job.font text)) := by
  rw [pass, pass_from_eq]
  rfl

theorem rows_with_nil (texts : List (List Bytes)) :
    rowsWith [] texts = (plainRows texts : List (Row α)) := by
  induction texts with
  | nil => rfl
  | cons programs texts ih =>
      rw [rowsWith, List.tail_nil, ih]
      rfl

theorem rows_with_starts (startX : LineInfo α → α) {lines : List (LineInfo α)}
    {texts : List (List Bytes)} (same : lines.length = texts.length) :
    rowsWith (lines.map startX) texts =
      List.zipWith (fun line programs => ⟨startX line, programs⟩) lines texts := by
  induction lines generalizing texts with
  | nil =>
      rw [List.eq_nil_of_length_eq_zero same.symm]
      rfl
  | cons line lines ih =>
      cases texts with
      | nil => simp at same
      | cons programs texts =>
          rw [List.map_cons, rowsWith, List.tail_cons, ih (Nat.succ.inj same)]
          rfl

theorem render_in_passes (text : Bytes) : render job text = inPasses job text := by
  by_cases empty : text = []
  · rw [empty]
    rfl
  have measuring : pass job [] text = draw job (plainRows (linePrograms job.font text)) := by
    rw [pass_eq, rows_with_nil]
  rw [inPasses, if_neg (by simpa using empty), measuring]
  by_cases plain : job.options.align = .start
  · rw [render_of_start job plain empty, if_pos plain]
  · rw [render_of_aligned job plain empty, if_neg plain]
    cases measured : (draw job (plainRows (linePrograms job.font text))).fault with
    | some fault => simp only [measured]
    | none =>
        have count := length_lines_draw job measured
        simp only [measured, pass_eq]
        rw [rows_with_starts _ (count.trans (List.length_map ..))]
        rfl

end ShapeFont.Layout
