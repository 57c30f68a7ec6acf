import ShapeFont.Proofs.Glyph.Lockstep
import ShapeFont.Proofs.Glyph.Step

/-!
# Fonts with more glyphs

A program looks a glyph up only where it calls one, and a number that was found stays found in a font
that has more glyphs. Runs in the two fonts therefore keep step up to the first call of a glyph that
the smaller one lacks, where it stops and the larger one goes on.
-/

namespace ShapeFont

universe u

/-- Every glyph of `font` is in `larger` under its number. What a program can ask of a font besides is
the same. -/
structure Font.Extends (larger font : Font) : Prop where
  kind : larger.kind = font.kind
  modes : larger.modes = font.modes
  glyphs {code : Nat} {program : Bytes} (found : font.glyph? code = some program) :
    larger.glyph? code = some program

theorem Font.extends_insert {font : Font} {index : Nat} (absent : font.glyph? index = none)
    (program : Bytes) : (font.insertGlyph index program).Extends font where
  kind := rfl
  modes := rfl
  glyphs {code} {_} found := by
    have other : index ≠ code := by
      rintro rfl
      rw [absent] at found
      cases found
    unfold glyph? at found ⊢
    rwa [get_insert_glyph, if_neg other]

namespace Glyph

variable {α : Type u} {font larger : Font}

theorem vertical_of_extends (extension : larger.Extends font) (horizontal : Bool) :
    Setting.vertical { font := larger, horizontal } = Setting.vertical { font, horizontal } := by
  simp only [Setting.vertical, Font.isDual, extension.modes]

theorem enter_extended (extension : larger.Extends font) (horizontal : Bool) (pen : Pen α)
    (code : Nat) (stream : CodeStream) :
    enter { font, horizontal } pen code stream = .faulty [] pen .missingSubshape ∨
      enter { font := larger, horizontal } pen code stream =
        enter { font, horizontal } pen code stream := by
  cases found : font.glyph? code with
  | none => exact .inl (by simp only [enter, found])
  | some program => exact .inr (by simp only [enter, found, extension.glyphs found])

variable [Scalar α]

theorem step_extended (extension : larger.Extends font) (horizontal : Bool) (pen : Pen α)
    (stream : CodeStream) :
    step { font, horizontal } pen stream = .faulty [] pen .missingSubshape ∨
      step { font := larger, horizontal } pen stream = step { font, horizontal } pen stream := by
  unfold step
  simp only [extension.kind]
  cases Instruction.fetch font.kind stream with
  | finished => exact .inr rfl
  | faulty legs fault => exact .inr rfl
  | ready instruction middle =>
      cases skip : pen.skipNext with
      | true => exact .inr rfl
      | false =>
          rcases instruction.subshape_or_plain with ⟨code, rfl⟩ | plain
          · exact enter_extended extension horizontal pen code middle
          · right
            simp only [perform_of_plain plain, vertical_of_extends extension]

/-- Two runs in step: either they are the same to the end, or the smaller font lacks a glyph and what
was drawn up to there is the beginning of what the larger one draws. -/
theorem run_extended (extension : larger.Extends font) (horizontal : Bool) (pen : Pen α)
    (stream : CodeStream) :
    run { font := larger, horizontal } pen stream = run { font, horizontal } pen stream ∨
      (run { font, horizontal } pen stream).fault = some .missingSubshape ∧
        (run { font, horizontal } pen stream).strokes <+:
          (run { font := larger, horizontal } pen stream).strokes := by
  induction pen, stream using @run_induction α _ { font, horizontal } with
  | state pen stream ih =>
      rcases step_extended extension horizontal pen stream with missing | same
      · right
        rw [run_of_faulty missing]
        exact ⟨rfl, List.nil_prefix⟩
      · cases taken : step { font, horizontal } pen stream with
        | finished =>
            left
            rw [run_of_finished taken, run_of_finished (same.trans taken)]
        | faulty drawn after fault =>
            left
            rw [run_of_faulty taken, run_of_faulty (same.trans taken)]
        | next drawn after rest =>
            rw [run_of_next taken, run_of_next (same.trans taken)]
            rcases ih drawn after rest taken with onward | ⟨stopped, begins⟩
            · exact .inl (congrArg (Outcome.after drawn) onward)
            · exact .inr ⟨stopped, (List.prefix_append_right_inj drawn).mpr begins⟩

/-- Glyphs that are added to a font do not disturb a program that found all the glyphs it called. One
that did not find a glyph draws with them at least what it drew without. -/
theorem added_glyphs_leave_resolved_programs (extension : larger.Extends font) (horizontal : Bool)
    (program : Bytes) (pen : Pen α) :
    let plain := execute { font, horizontal } program pen
    let extended := execute { font := larger, horizontal } program pen
    (plain.fault.map GlyphFault.kind ≠ some .unresolvedSubshape → extended = plain) ∧
      (plain.fault.map GlyphFault.kind = some .unresolvedSubshape →
        plain.strokes <+: extended.strokes) := by
  intro plain extended
  rcases run_extended extension horizontal pen (.start program) with same | ⟨stopped, begins⟩
  · have whole : plain.strokes <+: extended.strokes := by
      have strokes : extended.strokes = plain.strokes := congrArg Outcome.strokes same
      exact strokes ▸ List.prefix_refl plain.strokes
    exact ⟨fun _ => same, fun _ => whole⟩
  · constructor
    · intro resolved
      have fault : plain.fault = some .missingSubshape := stopped
      rw [fault] at resolved
      exact absurd rfl resolved
    · exact fun _ => begins

/-- A program that calls glyph 1 and then glyph 2, which only the larger font has, and one that calls
glyph 1 alone. -/
theorem call_of_added_glyph_goes_on :
    let font := Font.empty.insertGlyph 1 [0x20]
    let larger := font.insertGlyph 2 [0x14]
    let pen : Pen Float := Pen.ready Point.origin 1
    let plain := execute { font } [7, 1, 7, 2] pen
    let extended := execute { font := larger } [7, 1, 7, 2] pen
    larger.Extends font ∧
      plain.fault = some .missingSubshape ∧ extended.fault = none ∧
      plain.strokes.length = 1 ∧ extended.strokes.length = 2 ∧ plain.strokes <+: extended.strokes ∧
      (execute { font } [7, 1] pen).fault = none ∧
      execute { font := larger } [7, 1] pen = execute { font } [7, 1] pen := by
  intro font larger pen plain extended
  have extension : larger.Extends font := Font.extends_insert rfl [0x14]
  have stopped : ∃ stroke after, plain = ⟨[stroke], after, some .missingSubshape⟩ := by
    show ∃ stroke after, execute { font } [7, 1, 7, 2] pen = _
    rw [execute, run_of_next rfl, run_of_next rfl, run_of_faulty rfl]
    exact ⟨_, _, rfl⟩
  have drawn : ∃ stroke other after, extended = ⟨[stroke, other], after, none⟩ := by
    show ∃ stroke other after, execute { font := larger } [7, 1, 7, 2] pen = _
    rw [execute, run_of_next rfl, run_of_next rfl, run_of_next rfl, run_of_next rfl,
      run_of_finished rfl]
    exact ⟨_, _, _, rfl⟩
  have found : (execute { font } [7, 1] pen).fault = none := by
    rw [execute, run_of_next rfl, run_of_next rfl, run_of_finished rfl]
    rfl
  have unresolved := added_glyphs_leave_resolved_programs extension true [7, 1, 7, 2] pen
  have resolved := added_glyphs_leave_resolved_programs extension true [7, 1] pen
  have same : execute { font := larger } [7, 1] pen = execute { font } [7, 1] pen := by
    apply resolved.1
    rw [found]
    simp
  rcases stopped with ⟨stroke, after, plainRun⟩
  rcases drawn with ⟨first, second, last, extendedRun⟩
  have fault : plain.fault = some .missingSubshape := by rw [plainRun]
  have begins : plain.strokes <+: extended.strokes :=
    unresolved.2 (congrArg (Option.map GlyphFault.kind) fault)
  refine ⟨extension, fault, ?_, ?_, ?_, begins, found, same⟩
  · rw [extendedRun]
  · rw [plainRun]
    rfl
  · rw [extendedRun]
    rfl

end Glyph

end ShapeFont
