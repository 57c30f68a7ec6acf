import Mathlib.Order.Defs.Unbundled
import ShapeFont.Proofs.Layout.Passes

/-!
# A line glyph by glyph

The numbers that a line selects name programs, and the line is the runs of these one behind the
other: each begins afresh but for its place, which is where the one before left the pen. A code point
that selects no glyph leaves no trace, not even in the pen. A byte that begins no sequence selects
U+FFFD like any other code point, so it is passed over only by a font that has no glyph for it.
-/

namespace ShapeFont

universe u

variable {α : Type u}

theorem Event.length_character_ends (events : List (Event α)) :
    (characterEnds events).length = events.countP fun event => event.stroke?.isNone := by
  unfold characterEnds
  extract_lets step
  have count (seen : Nat × Array Nat) : (events.foldl step seen).2.size =
      seen.2.size + events.countP fun event => event.stroke?.isNone := by
    induction events generalizing seen with
    | nil => rfl
    | cons event events ih =>
        rw [List.foldl_cons, ih, List.countP_cons]
        cases event with
        | stroke drawn => simp [step, stroke?]
        | characterEnd =>
            simp [step, stroke?]
            omega
  rw [Array.length_toList, count]
  exact Nat.zero_add _

namespace Layout

/-- What the program of a glyph did, and the pen that the next glyph is begun with. -/
structure GlyphRun (α : Type u) where
  outcome : Outcome α
  pen : Pen α

namespace GlyphRun

def drawn (run : GlyphRun α) : List (Event α) := run.outcome.strokes.map Event.stroke

def events (run : GlyphRun α) : List (Event α) := run.drawn ++ [.characterEnd]

theorem character_ends_drawn (run : GlyphRun α) :
    (run.drawn).countP (fun event => event.stroke?.isNone) = 0 := by
  apply List.countP_eq_zero.mpr
  intro event member
  have ⟨stroke, _, same⟩ := List.mem_map.mp member
  simp [← same, Event.stroke?]

theorem character_ends_events (runs : List (GlyphRun α)) :
    (runs.flatMap events).countP (fun event => event.stroke?.isNone) = runs.length := by
  induction runs with
  | nil => rfl
  | cons run runs ih =>
      rw [List.flatMap_cons, List.countP_append, ih, events, List.countP_append,
        character_ends_drawn, List.length_cons, Nat.zero_add]
      exact Nat.add_comm 1 runs.length

end GlyphRun

variable [Scalar α] (job : Typesetting α)

/-- A glyph drawn with a pen. Of the pen only its place counts, and what spacing adds to the advance
is measured from there. -/
def glyphRun (pen : Pen α) (program : Bytes) : GlyphRun α :=
  let outcome := Glyph.execute job.setting program (pen.beginGlyph job.baseScale)
  { outcome, pen := advance job.options.hSpacing pen.last.x outcome.pen }

def glyphRuns : Pen α → List Bytes → List (GlyphRun α)
  | _, [] => []
  | pen, program :: programs =>
      glyphRun job pen program :: glyphRuns (glyphRun job pen program).pen programs

def further (reached place : α) : α := if reached < place then place else reached

def furthest (start : α) (places : List α) : α := places.foldl further start

theorem length_glyph_runs (pen : Pen α) (programs : List Bytes) :
    (glyphRuns job pen programs).length = programs.length := by
  induction programs generalizing pen with
  | nil => rfl
  | cons program programs ih => rw [glyphRuns, List.length_cons, List.length_cons, ih]

theorem faults_of_glyph_runs (pen other : Pen α) (scale : α)
    (programs : List Bytes) :
    (glyphRuns job pen programs).map (fun run => run.outcome.fault) =
      programs.map (faultAlone? job.setting other scale) := by
  induction programs generalizing pen with
  | nil => rfl
  | cons program programs ih =>
      rw [glyphRuns, List.map_cons, List.map_cons, ih]
      exact congrArg (· :: _) (fault_alone_eq job.setting pen other job.baseScale scale program)

theorem furthest_mem (start : α) (places : List α) : furthest start places ∈ start :: places := by
  induction places generalizing start with
  | nil => exact List.mem_singleton.mpr rfl
  | cons place places ih =>
      have member : furthest start (place :: places) ∈ further start place :: places :=
        ih (further start place)
      unfold further at member
      split at member
      · exact List.mem_cons_of_mem start member
      · rcases List.mem_cons.mp member with same | later
        · rw [same]
          exact List.mem_cons_self
        · exact List.mem_cons_of_mem start (List.mem_cons_of_mem place later)

section

variable [IsStrictOrder α (· < ·)]

theorem lt_of_further_lt {reached place next : α} (beyond : further reached place < next) :
    reached < next ∧ place ≠ next := by
  unfold further at beyond
  split at beyond
  · next ahead =>
      constructor
      · exact Trans.trans ahead beyond
      · intro same
        exact irrefl next (same ▸ beyond)
  · next behind =>
      constructor
      · exact beyond
      · intro same
        exact behind (same ▸ beyond)

theorem lt_of_furthest_lt {start place : α} {places : List α}
    (beyond : furthest start places < place) : start < place := by
  induction places generalizing start with
  | nil => exact beyond
  | cons head places ih => exact (lt_of_further_lt (ih beyond)).1

theorem not_furthest_lt (start : α) (places : List α) :
    ∀ place ∈ start :: places, ¬furthest start places < place := by
  induction places generalizing start with
  | nil =>
      intro place member
      rw [List.mem_singleton.mp member]
      exact irrefl start
  | cons head places ih =>
      intro place member beyond
      have reached : furthest (further start head) places < place := beyond
      have ⟨ahead, other⟩ := lt_of_further_lt (lt_of_furthest_lt reached)
      rcases List.mem_cons.mp member with same | rest
      · exact irrefl start (same ▸ ahead)
      · rcases List.mem_cons.mp rest with same | later
        · exact other same.symm
        · exact ih (further start head) place (List.mem_cons_of_mem _ later) beyond

end

theorem draw_glyph_of_none {state : LineState α} {program : Bytes}
    (done : (glyphRun job state.pen program).outcome.fault = none) :
    ∃ after, drawGlyph job state program = (after, none) ∧
      after.pen = (glyphRun job state.pen program).pen ∧
      after.maxX = further state.maxX (glyphRun job state.pen program).pen.position.x ∧
      after.events.toList = state.events.toList ++ (glyphRun job state.pen program).events := by
  have fine : (Glyph.execute job.setting program (state.pen.beginGlyph job.baseScale)).fault =
      none := done
  unfold drawGlyph
  simp only [fine]
  refine ⟨_, rfl, rfl, rfl, ?_⟩
  simp [GlyphRun.events, GlyphRun.drawn, glyphRun]

theorem draw_glyph_of_some {state : LineState α} {program : Bytes} {fault : GlyphFault}
    (failed : (glyphRun job state.pen program).outcome.fault = some fault) :
    ∃ after, drawGlyph job state program = (after, some fault) ∧
      after.events.toList = state.events.toList ++ (glyphRun job state.pen program).drawn := by
  have stops : (Glyph.execute job.setting program (state.pen.beginGlyph job.baseScale)).fault =
      some fault := failed
  unfold drawGlyph
  simp only [stops]
  refine ⟨_, rfl, ?_⟩
  simp [GlyphRun.drawn, glyphRun]

theorem draw_glyphs_of_none {state : LineState α} {programs : List Bytes}
    (done : ∀ run ∈ glyphRuns job state.pen programs, run.outcome.fault = none) :
    ∃ last, drawGlyphs job state programs = (last, none) ∧
      last.maxX = furthest state.maxX
        ((glyphRuns job state.pen programs).map fun run => run.pen.position.x) ∧
      last.events.toList =
        state.events.toList ++ (glyphRuns job state.pen programs).flatMap GlyphRun.events := by
  induction programs generalizing state with
  | nil => exact ⟨state, rfl, rfl, (List.append_nil _).symm⟩
  | cons program programs ih =>
      rw [glyphRuns] at done ⊢
      have ⟨first, later⟩ := List.forall_mem_cons.mp done
      have ⟨after, drawn, pen, maxX, events⟩ := draw_glyph_of_none job first
      rw [← pen] at later ⊢
      have ⟨last, through, reached, behind⟩ := ih later
      refine ⟨last, (until_fault_of_none drawn).trans through, ?_, ?_⟩
      · rw [reached, maxX, pen]
        rfl
      · rw [behind, events, List.flatMap_cons, List.append_assoc]

theorem draw_glyphs_of_some {state : LineState α} {programs : List Bytes}
    {before behind : List (GlyphRun α)} {run : GlyphRun α} {fault : GlyphFault}
    (parts : glyphRuns job state.pen programs = before ++ run :: behind)
    (done : ∀ earlier ∈ before, earlier.outcome.fault = none)
    (failed : run.outcome.fault = some fault) :
    ∃ last, drawGlyphs job state programs = (last, some fault) ∧
      last.events.toList =
        state.events.toList ++ before.flatMap GlyphRun.events ++ run.drawn := by
  induction programs generalizing state before with
  | nil => simp [glyphRuns] at parts
  | cons program programs ih =>
      rw [glyphRuns] at parts
      cases before with
      | nil =>
          have ⟨first, _⟩ := List.cons.inj parts
          rw [← first] at failed
          have ⟨last, drawn, events⟩ := draw_glyph_of_some job failed
          refine ⟨last, until_fault_of_some drawn, ?_⟩
          rw [events, first, List.flatMap_nil, List.append_nil]
      | cons earlier before =>
          have ⟨first, rest⟩ := List.cons.inj parts
          have ⟨fine, later⟩ := List.forall_mem_cons.mp done
          rw [← first] at fine
          have ⟨after, drawn, pen, _, events⟩ := draw_glyph_of_none job fine
          rw [← pen] at rest
          have ⟨last, through, reached⟩ := ih rest later
          refine ⟨last, (until_fault_of_none drawn).trans through, ?_⟩
          rw [reached, events, first, List.flatMap_cons]
          simp only [List.append_assoc]

theorem map_select_codes (font : Font) (line : Bytes) :
    (selectCodes font line).map font.glyph? = (select font line).map some := by
  have present : ∀ found ∈ (selectCodes font line).map font.glyph?, found.isSome := by
    intro found member
    have ⟨code, inside, same⟩ := List.mem_map.mp member
    rw [← same]
    exact (List.mem_filter.mp inside).2
  rw [select, List.map_filterMap_some_eq_filter_map_isSome, List.filter_eq_self.mpr present]

theorem select_codes_le (font : Font) (line : Bytes) : ∀ code ∈ selectCodes font line,
    code ≤ 0xFFFF := by
  intro code member
  have present : (font.glyph? code).isSome := (List.mem_filter.mp member).2
  unfold Font.glyph? at present
  split at present
  · assumption
  · simp at present

theorem draw_character_of_nothing {code : Nat}
    (nothing : (spell job.font code).filter job.font.hasGlyph = []) (state : LineState α) :
    drawCharacter job state code = (state, none) := by
  have absent : ∀ letter ∈ spell job.font code, job.font.glyph? letter = none := by
    intro letter member
    have unmapped := List.filter_eq_nil_iff.mp nothing letter member
    simpa [Font.hasGlyph] using unmapped
  have programs : programsOf job.font code = [] := by
    rw [← programs_of_spell]
    exact List.filterMap_eq_nil_iff.mpr absent
  rw [draw_character_eq, programs]
  rfl

theorem spell_replacement {font : Font} (absent : font.hasGlyph Utf8.replacement = false) :
    (spell font Utf8.replacement).filter font.hasGlyph = [] := by
  have itself : spell font Utf8.replacement = [Utf8.replacement] := by
    rw [spell, absent]
    rfl
  rw [itself, List.filter_cons, absent]
  rfl

theorem code_of_replaced {head : Utf8.Decoded} (replaced : head.replaced = true) :
    head.code = Utf8.replacement := by
  simp only [Utf8.Decoded.replaced, Bool.and_eq_true, beq_iff_eq] at replaced
  exact replaced.1

section

variable {job} (plain : job.options.align = .start) {text : Bytes} (clean : 10 ∉ text)

include plain clean

theorem render_line_eq (someByte : text ≠ []) :
    render job text =
      match drawGlyphs job (openRow job .initial zero) (select job.font text) with
      | (line, some fault) => { events := line.events.toList, fault := some fault }
      | (line, none) =>
          { events := line.events.toList
            lines := (closeRow job .initial zero line).lines.toList } := by
  have rows : drawRows job .initial (plainRows [select job.font text]) =
      behind .initial (drawGlyphs job (openRow job .initial zero) (select job.font text))
        fun line => (closeRow job .initial zero line, none) :=
    draw_rows_cons job .initial zero (select job.font text) []
  rw [render_of_start job plain someByte, line_programs_of_clean job.font clean, draw, rows]
  cases drawGlyphs job (openRow job .initial zero) (select job.font text) with
  | mk line fault =>
      cases fault with
      | some fault => simp [behind, BlockState.initial]
      | none => simp [behind, closeRow, BlockState.initial]

theorem render_glyphs_of_none
    (done : ∀ run ∈ glyphRuns job (openRow job .initial zero).pen (select job.font text),
      run.outcome.fault = none) :
    let runs := glyphRuns job (openRow job .initial zero).pen (select job.font text)
    (render job text).fault = none ∧ (render job text).events = runs.flatMap GlyphRun.events ∧
      (text ≠ [] → ∃ line, (render job text).lines = [line] ∧
        line.start = BlockState.initial.rowStart job zero ∧
        line.maxX = furthest zero (runs.map fun run => run.pen.position.x)) := by
  intro runs
  by_cases empty : text = []
  · subst empty
    exact ⟨rfl, rfl, fun absent => absurd rfl absent⟩
  · have ⟨last, drawn, maxX, events⟩ := draw_glyphs_of_none job done
    rw [render_line_eq plain clean empty, drawn]
    exact ⟨rfl, events, fun _ => ⟨_, rfl, rfl, maxX⟩⟩

theorem lines_of_glyphs (someByte : text ≠ [])
    (done : ∀ run ∈ glyphRuns job (openRow job .initial zero).pen (select job.font text),
      run.outcome.fault = none) :
    let runs := glyphRuns job (openRow job .initial zero).pen (select job.font text)
    let maxX := furthest zero (runs.map fun run => run.pen.position.x)
    (render job text).lines =
      [{ start := BlockState.initial.rowStart job zero, maxX, width := maxX - zero
         height := job.baseScale * job.lineHeight }] := by
  intro runs maxX
  obtain ⟨last, drawn, reached, -⟩ := draw_glyphs_of_none job done
  have line : (render job text).lines = (closeRow job .initial zero last).lines.toList := by
    rw [render_line_eq plain clean someByte, drawn]
  rw [line]
  simp only [closeRow, reached]
  rfl

theorem render_glyphs_of_some {before behind : List (GlyphRun α)} {run : GlyphRun α}
    {fault : GlyphFault}
    (parts : glyphRuns job (openRow job .initial zero).pen (select job.font text) =
      before ++ run :: behind)
    (done : ∀ earlier ∈ before, earlier.outcome.fault = none)
    (failed : run.outcome.fault = some fault) :
    (render job text).fault = some fault ∧ (render job text).lines = [] ∧
      (render job text).events = before.flatMap GlyphRun.events ++ run.drawn := by
  by_cases empty : text = []
  · subst empty
    have nothing : glyphRuns job (openRow job .initial zero).pen (select job.font []) = [] := rfl
    simp [nothing] at parts
  · have ⟨last, drawn, events⟩ := draw_glyphs_of_some job parts done failed
    rw [render_line_eq plain clean empty, drawn]
    exact ⟨rfl, rfl, events⟩

end

/-- A line is drawn by running the programs of the glyphs that it selects, one behind the other, and
reports how far to the right they left the pen. A fault ends it within a glyph, behind the glyphs
before. Code points without a glyph and without letters to stand in for them leave drawing and pen
as they are, and so does a byte that begins no sequence where the font has no glyph for U+FFFD. All
this is so of the pass that decodes, selects and draws code point by code point. -/
theorem line_draws_its_glyphs (job : Typesetting α) (plain : job.options.align = .start)
    (text : Bytes) (clean : 10 ∉ text) :
    let keys := selectCodes job.font text
    let programs := select job.font text
    let start := BlockState.initial.rowStart job zero
    let runs := glyphRuns job (Pen.ready start (ofInt 1)) programs
    let rendering := render job text
    rendering = inPasses job text ∧
      keys.map job.font.glyph? = programs.map some ∧ (∀ key ∈ keys, key ≤ 0xFFFF) ∧
      ((∀ run ∈ runs, run.outcome.fault = none) →
        rendering.fault = none ∧ rendering.events = runs.flatMap GlyphRun.events ∧
        (Event.characterEnds rendering.events).length = keys.length ∧
        (text ≠ [] → ∃ line, rendering.lines = [line] ∧ line.start = start ∧
          line.maxX = furthest start.x (runs.map fun run => run.pen.position.x) ∧
          line.maxX ∈ start.x :: runs.map (fun run => run.pen.position.x) ∧
          (IsStrictOrder α (· < ·) → ∀ place ∈ start.x :: runs.map (fun run => run.pen.position.x),
            ¬line.maxX < place))) ∧
      (∀ before run behind fault, runs = before ++ run :: behind →
        (∀ earlier ∈ before, earlier.outcome.fault = none) → run.outcome.fault = some fault →
        rendering.fault = some fault ∧ rendering.lines = [] ∧
        rendering.events = before.flatMap GlyphRun.events ++ run.drawn ∧
        (Event.characterEnds rendering.events).length = before.length) ∧
      (∀ code, (spell job.font code).filter job.font.hasGlyph = [] →
        ∀ state, drawCharacter job state code = (state, none)) ∧
      (job.font.hasGlyph Utf8.replacement = false → ∀ byte rest,
        (Utf8.decodeHead byte rest).replaced = true →
        ∀ state, drawCharacter job state (Utf8.decodeHead byte rest).code = (state, none)) := by
  intro keys programs start runs rendering
  have glyphs := map_select_codes job.font text
  have count : runs.length = keys.length := by
    have same := congrArg List.length glyphs
    rw [List.length_map, List.length_map] at same
    exact (length_glyph_runs job _ programs).trans same.symm
  constructor
  · exact render_in_passes job text
  constructor
  · exact glyphs
  constructor
  · exact select_codes_le job.font text
  constructor
  · intro done
    have ⟨fault, events, reported⟩ := render_glyphs_of_none plain clean done
    have ends : (Event.characterEnds rendering.events).length = runs.length := by
      rw [Event.length_character_ends, events]
      exact GlyphRun.character_ends_events runs
    refine ⟨fault, events, ends.trans count, ?_⟩
    intro someByte
    have ⟨line, lines, place, maxX⟩ := reported someByte
    refine ⟨line, lines, place, maxX, ?_, ?_⟩
    · rw [maxX]
      exact furthest_mem _ _
    · intro order
      rw [maxX]
      exact not_furthest_lt _ _
  constructor
  · intro before run behind fault parts done failed
    have ⟨fault, lines, events⟩ := render_glyphs_of_some plain clean parts done failed
    refine ⟨fault, lines, events, ?_⟩
    rw [Event.length_character_ends, events, List.countP_append, GlyphRun.character_ends_events,
      GlyphRun.character_ends_drawn, Nat.add_zero]
  constructor
  · intro code nothing state
    exact draw_character_of_nothing job nothing state
  · intro absent byte rest replaced state
    rw [code_of_replaced replaced]
    exact draw_character_of_nothing job (spell_replacement absent) state

/-- Letters stand in for one that the font lacks. The second of them restores a position that none
saved, behind two glyphs. Without it the line is drawn to its end, past a stray byte. -/
theorem letter_that_stands_in_fails :
    let font := (Font.empty.insertGlyph 97 [0x10]).insertGlyph 101 [6]
    let job : Typesetting Float := ⟨font, Options.standard⟩
    let text : Bytes := [97, 0xC3, 0xA4, 97]
    let shorter : Bytes := [97, 0xFF, 97]
    job.options.align = .start ∧ 10 ∉ text ∧ selectCodes font text = [97, 97, 101, 97] ∧
      (render job text).fault = some .stackUnderflow ∧ (render job text).lines = [] ∧
      (Event.characterEnds (render job text).events).length = 2 ∧
      10 ∉ shorter ∧ (render job shorter).fault = none ∧
      (Event.characterEnds (render job shorter).events).length = 2 ∧
      ∀ state, drawCharacter job state (Utf8.decodeHead 0xFF [97]).code = (state, none) := by
  intro font job text shorter
  have step (pen : Pen Float) : (glyphRun job pen [0x10]).outcome.fault = none :=
    fault_alone_vector job.setting pen job.baseScale (by decide)
  have restore (pen : Pen Float) : (glyphRun job pen [6]).outcome.fault = some .stackUnderflow := by
    rw [glyphRun, Glyph.execute, Glyph.run_of_faulty rfl]
  have selected : select font text = [[0x10], [0x10], [6], [0x10]] := by decide
  have chosen : select font shorter = [[0x10], [0x10]] := by decide
  let start := BlockState.initial.rowStart job zero
  let first := glyphRun job (Pen.ready start (ofInt 1)) [0x10]
  let second := glyphRun job first.pen [0x10]
  let third := glyphRun job second.pen [6]
  have runs : glyphRuns job (Pen.ready start (ofInt 1)) (select font text) =
      [first, second] ++ third :: [glyphRun job third.pen [0x10]] := by
    rw [selected]
    rfl
  have fine : ∀ earlier ∈ [first, second], earlier.outcome.fault = none := by
    intro earlier member
    rcases List.mem_pair.mp member with same | same
    · exact same ▸ step _
    · exact same ▸ step _
  have broken := line_draws_its_glyphs job rfl text (by decide)
  obtain ⟨fault, lines, _, ends⟩ := broken.2.2.2.2.1 _ _ _ _ runs fine (restore _)
  have whole := line_draws_its_glyphs job rfl shorter (by decide)
  have done : ∀ run ∈ glyphRuns job (Pen.ready start (ofInt 1)) (select font shorter),
      run.outcome.fault = none := by
    rw [chosen]
    exact fine
  obtain ⟨sound, _, glyphs, _⟩ := whole.2.2.2.1 done
  have keys : (selectCodes font shorter).length = 2 := by decide
  exact ⟨rfl, by decide, by decide, fault, lines, ends, by decide, sound, glyphs.trans keys,
    whole.2.2.2.2.2.2 (by decide) 0xFF [97] (by decide)⟩

/-- A font that has a glyph for U+FFFD draws it for a byte that begins no sequence. -/
theorem stray_byte_is_drawn :
    let font := Font.empty.insertGlyph Utf8.replacement [0x10]
    let job : Typesetting Float := ⟨font, Options.standard⟩
    job.options.align = .start ∧ 10 ∉ ([0xFF] : Bytes) ∧
      (Utf8.decodeHead 0xFF []).replaced = true ∧ (render job [0xFF]).fault = none ∧
      (Event.characterEnds (render job [0xFF]).events).length = 1 ∧
      (render job [0xFF]).events ≠ [] ∧
      ¬∀ state, drawCharacter job state (Utf8.decodeHead 0xFF []).code = (state, none) := by
  intro font job
  have step (pen : Pen Float) : ∀ run ∈ glyphRuns job pen [[0x10]], run.outcome.fault = none := by
    intro run member
    rw [List.mem_singleton.mp member]
    exact fault_alone_vector job.setting pen job.baseScale (by decide)
  have selected : select job.font [0xFF] = [[0x10]] := by decide
  have done : ∀ run ∈ glyphRuns job (openRow job .initial zero).pen (select job.font [0xFF]),
      run.outcome.fault = none := by
    rw [selected]
    exact step _
  have ⟨fault, events, _⟩ := render_glyphs_of_none rfl (by decide) done
  have ends : (Event.characterEnds (render job [0xFF]).events).length = 1 := by
    rw [Event.length_character_ends, events, GlyphRun.character_ends_events, selected]
    rfl
  refine ⟨rfl, by decide, by decide, fault, ends, ?_, ?_⟩
  · intro nothing
    rw [nothing] at ends
    simp [Event.characterEnds] at ends
  · intro unseen
    let state : LineState Float := openRow job .initial zero
    have programs : programsOf job.font (Utf8.decodeHead 0xFF []).code = [[0x10]] := by decide
    have same := unseen state
    rw [draw_character_eq, programs] at same
    have ⟨last, drawn, _, behind⟩ := draw_glyphs_of_none job (step state.pen)
    rw [drawn] at same
    rw [(Prod.mk.inj same).1] at behind
    have longer := congrArg List.length behind
    simp [glyphRuns, GlyphRun.events] at longer

end Layout

end ShapeFont
