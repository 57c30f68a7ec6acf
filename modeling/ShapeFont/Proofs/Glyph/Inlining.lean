import ShapeFont.Proofs.Glyph.Splicing

/-!
# A call as the program written out

A call can be replaced by the program that it names, in the middle of the caller and even where the
program breaks off inside an instruction that the caller completes. Only an end of shape sees the
difference, since it discards the rest of the program that it stands in.
-/

namespace ShapeFont.Glyph

open Instruction CodeStream

universe u

variable {α : Type u} [Scalar α] {setting : Setting} {pen after : Pen α} {stream rest : CodeStream}

theorem outer_of_fetch {kind : FontKind} {middle : CodeStream} {instruction : Instruction}
    (read : fetch kind stream = .ready instruction middle) :
    middle.frames ≠ [] ∧ middle.outer.length ≤ stream.outer.length := by
  obtain ⟨byte, operands, ahead, -, front, -, rfl⟩ := spells_of_fetch read
  have someFrame : stream.frames ≠ [] := by
    intro none
    simp [unread, none] at front
  obtain ⟨kept, shorter⟩ := outer_advance_le stream (1 + operands.length)
  obtain ⟨also, least⟩ := outer_discard_le (stream.advance (1 + operands.length))
  unfold behind
  split
  · exact ⟨also (kept someFrame), Nat.le_trans least shorter⟩
  · exact ⟨kept someFrame, shorter⟩

/-- What a step goes on to has as much of the outermost program as what it read left. -/
theorem outer_of_proceeds {instruction : Instruction} {middle : CodeStream}
    {drawn : List (Stroke α)} (someFrame : middle.frames ≠ [])
    (rule : Proceeds setting pen instruction middle drawn after rest) :
    rest.outer = middle.outer := by
  cases rule with
  | skipped skip => rfl
  | called carry subshape found entered => exact (outer_of_call someFrame entered).2
  | performed carry plain done => rfl

theorem outer_of_reaches (reach : Reaches setting pen stream after rest) :
    rest.outer.length ≤ stream.outer.length := by
  induction reach with
  | start => exact Nat.le_refl _
  | next taken later ih =>
      obtain ⟨instruction, middle, read, rule⟩ := proceeds_of_step taken
      obtain ⟨someFrame, shorter⟩ := outer_of_fetch read
      rw [outer_of_proceeds someFrame rule] at ih
      exact Nat.le_trans ih shorter

theorem fits_of_outer {kind : FontKind} {stretch : Stretch} {more : Bytes} {calls : Nat}
    {middle : CodeStream} {instruction : Instruction} (someByte : more ≠ [])
    (read : fetch kind (stretch.followedBy more [] calls) = .ready instruction middle)
    (kept : more.length ≤ middle.outer.length) :
    ∃ rest : Stretch, ∀ other count,
      fetch kind (stretch.followedBy other [] count) =
        .ready instruction (rest.followedBy other [] count) := by
  obtain ⟨byte, operands, ahead, spells, front, rfl, reached⟩ := spells_of_fetch read
  rw [Stretch.unread_followed_by, List.flatten_nil, List.append_nil] at front
  have aheadOfOuter := outer_le_unread middle
  have left : middle.unread.length ≤
      ((stretch.followedBy more [] calls).advance (1 + operands.length)).unread.length := by
    rw [reached]
    exact length_behind_le byte.toNat _
  rw [unread_advance, Stretch.unread_followed_by, List.length_drop, List.flatten_nil,
    List.append_nil, List.length_append] at left
  have positive := List.length_pos_of_ne_nil someByte
  have fits : 1 + operands.length ≤ stretch.bytes.length := by omega
  obtain ⟨behind, lies⟩ := front_of_fits front fits
  obtain ⟨rest, fetched⟩ := fetch_within spells lies
  refine ⟨rest, fun other count => fetched other [] count ?_⟩
  rintro rfl empty
  left
  -- an end of shape that finds no zero in the stretch discards a part of `more`
  apply Classical.byContradiction
  intro noZero
  obtain rfl := operands_of_end spells
  obtain ⟨left, -, single, -, next⟩ := Stretch.next_within lies
  obtain ⟨front, outermost⟩ := single empty
  rw [front] at noZero
  have lost := length_outer_discard_lt someByte outermost noZero calls
  rw [reached, List.length_nil, advance_of_next (next more [] calls)] at kept
  exact Nat.lt_irrefl _ (Nat.lt_of_le_of_lt kept lost)

theorem unlimited_of_reaches (reach : Reaches setting pen stream after rest)
    (unlimited : (run setting pen stream).fault ≠ some .nestingLimit) :
    (run setting after rest).fault ≠ some .nestingLimit := by
  induction reach with
  | start => exact unlimited
  | next taken later ih => exact ih (unlimited_of_next taken unlimited)

/-- Until only `more` is left, `other` could stand in its place. Where the runs go on alike from
there, they are alike. -/
theorem run_of_reaches {stretch : Stretch} {more other : Bytes} {calls count : Nat}
    (someByte : more ≠ [])
    (reach : Reaches setting pen (stretch.followedBy more [] calls) after rest)
    (left : rest.LeftWith [more]) (fewer : count ≤ calls)
    (unlimited : (run setting pen (stretch.followedBy more [] calls)).fault ≠ some .nestingLimit)
    (meet : ∀ made ≤ rest.calls, run setting after ⟨[other], made⟩ = run setting after rest) :
    run setting pen (stretch.followedBy other [] count) =
      run setting pen (stretch.followedBy more [] calls) := by
  generalize whole : stretch.followedBy more [] calls = stream at reach unlimited ⊢
  induction reach generalizing stretch calls count with
  | start =>
      -- the stretch is read up to its end, so either run goes on behind it
      subst whole
      obtain ⟨exhausted, front, empty⟩ := left
      obtain ⟨rfl, same⟩ := List.append_inj' front rfl
      have outermost : stretch.front = [] := by simpa using same
      have ended : stretch.bytes = [] := by rw [Stretch.bytes, empty, outermost, List.nil_append]
      rw [run_congr (Stretch.next_of_exhausted ended other [] count)]
      exact meet count fewer
  | @next pen middle after first through rest drawn taken later ih =>
      -- all of `more` is still unread later, so this step stays in the stretch
      subst whole
      obtain ⟨instruction, behind, read, rule⟩ := proceeds_of_step taken
      have kept := outer_of_reaches later
      rw [outer_of_proceeds (outer_of_fetch read).1 rule, outer_of_left_with left] at kept
      obtain ⟨further, fetched⟩ := fits_of_outer someByte read kept
      have alike := step_beside (fetched more calls) (fetched other count) (Nat.le_refl 0) fewer
        unlimited
      rw [taken] at alike
      generalize reached :
        step setting pen (stretch.followedBy other [] count) = result at alike
      cases alike with
      | next drawings onward =>
          obtain ⟨rfl, beyond, made, put, fewer, rfl, rfl⟩ := onward
          rw [List.forall₂_eq_eq_eq] at drawings
          subst drawings
          have same := ih left fewer meet rfl (unlimited_of_next taken unlimited)
          rw [run_of_next reached, run_of_next taken, same]

/-- A call may be replaced by the program that it names if no shape ends in that program. Either way
the whole is small enough to be read to its end. -/
theorem execute_inlined (setting : Setting) (pen reached : Pen α) (stream : CodeStream) (code : Nat)
    (before key program behind : Bytes)
    (callerFits : (before ++ 7 :: (key ++ behind)).length < 0x80000000)
    (inlinedFits : (before ++ program ++ behind).length < 0x80000000)
    (writes : WritesKey setting.font.kind code key)
    (found : setting.font.glyph? code = some program)
    (reach : Reaches setting pen (start (before ++ 7 :: (key ++ behind))) reached stream)
    (left : stream.LeftWith [7 :: (key ++ behind)]) (carry : reached.skipNext = false)
    (quiet : NeverEndsShapeAbove setting behind reached stream)
    (unlimited : (execute setting (before ++ 7 :: (key ++ behind)) pen).fault ≠
      some .nestingLimit) :
    execute setting (before ++ program ++ behind) pen =
      execute setting (before ++ 7 :: (key ++ behind)) pen := by
  have programFits : program.length < 0x80000000 := by
    rw [List.length_append, List.length_append] at inlinedFits
    omega
  have whole (more : Bytes) (fits : (before ++ more).length < 0x80000000) :
      start (before ++ more) = (Stretch.mk [] before).followedBy more [] 0 := by
    rw [start, Bytes.counted_of_small fits]
    rfl
  have openLimit := unlimited_of_reaches reach unlimited
  have taken := step_of_call carry writes found (next_of_left_with left) openLimit
  rw [Bytes.wrapped_of_small programFits] at taken
  rw [List.append_assoc] at inlinedFits ⊢
  unfold execute at unlimited ⊢
  rw [whole _ callerFits] at reach unlimited ⊢
  rw [whole _ inlinedFits]
  apply run_of_reaches (List.cons_ne_nil _ _) reach left (Nat.le_refl 0) unlimited
  intro made fewer
  rw [run_of_next taken, Outcome.after_nil]
  apply run_spliced
  refine ⟨unlimited_of_next taken openLimit, .inr ⟨?_, ?_⟩⟩
  · exact ⟨rfl, ⟨[], program⟩, stream.calls + 1, made, Nat.le_succ_of_le fewer,
      (Stretch.followed_by_of_program ..).symm, rfl⟩
  · intro later rest onward
    exact quiet later rest (.next taken onward)

theorem not_ends_of_next_ne {caller : Bytes} (other : stream.next?.map Prod.fst ≠ some 0) :
    ¬EndsShapeAbove caller stream := by
  rintro ⟨rest, left⟩
  rw [next_of_left_with left] at other
  exact other rfl

theorem never_ends_of_next {caller : Bytes} {drawn : List (Stroke α)}
    (taken : step setting pen stream = .next drawn after rest)
    (other : stream.next?.map Prod.fst ≠ some 0)
    (later : NeverEndsShapeAbove setting caller after rest) :
    NeverEndsShapeAbove setting caller pen stream := by
  intro last behind reach
  cases reach with
  | start => exact not_ends_of_next_ne other
  | next also onward =>
      rw [taken] at also
      obtain ⟨rfl, rfl, rfl⟩ := Step.next.inj also
      exact later last behind onward

theorem never_ends_of_finished {caller : Bytes} (taken : step setting pen stream = .finished)
    (other : stream.next?.map Prod.fst ≠ some 0) :
    NeverEndsShapeAbove setting caller pen stream := by
  intro last behind reach
  cases reach with
  | start => exact not_ends_of_next_ne other
  | next also onward => simp [taken] at also

/-- The program ends inside a call, for which the caller has the number. -/
theorem key_across_call_is_inlined :
    let setting : Setting := { font := (Font.empty.insertGlyph 1 [7]).insertGlyph 2 [1] }
    let pen : Pen Float := Pen.ready Point.origin 1
    let raised : Pen Float := { pen with down := false }
    let stream : CodeStream := ⟨[7 :: ([1] ++ [2])], 0⟩
    ([2] ++ 7 :: ([1] ++ [2])).length < 0x80000000 ∧ ([2] ++ [7] ++ [2]).length < 0x80000000 ∧
      WritesKey setting.font.kind 1 [1] ∧ setting.font.glyph? 1 = some [7] ∧
      Reaches setting pen (start ([2] ++ 7 :: ([1] ++ [2]))) raised stream ∧
      stream.LeftWith [7 :: ([1] ++ [2])] ∧ raised.skipNext = false ∧
      NeverEndsShapeAbove setting [2] raised stream ∧
      (execute setting ([2] ++ 7 :: ([1] ++ [2])) pen).fault ≠ some .nestingLimit ∧
      execute setting ([2] ++ [7] ++ [2]) pen = execute setting ([2] ++ 7 :: ([1] ++ [2])) pen := by
  intro setting pen raised stream
  have callerFits : ([2] ++ 7 :: ([1] ++ [2])).length < 0x80000000 := by decide
  have inlinedFits : ([2] ++ [7] ++ [2]).length < 0x80000000 := by decide
  have reach : Reaches setting pen (start ([2] ++ 7 :: ([1] ++ [2]))) raised stream :=
    .next rfl .start
  have left : stream.LeftWith [7 :: ([1] ++ [2])] := ⟨[], rfl, rfl⟩
  have quiet : NeverEndsShapeAbove setting [2] raised stream := by
    apply never_ends_of_next rfl (by decide)
    apply never_ends_of_next rfl (by decide)
    apply never_ends_of_next rfl (by decide)
    exact never_ends_of_finished rfl (by decide)
  have unlimited : (execute setting ([2] ++ 7 :: ([1] ++ [2])) pen).fault ≠
      some .nestingLimit := by
    rw [execute, run_of_next rfl, run_of_next rfl, run_of_next rfl, run_of_next rfl,
      run_of_finished rfl]
    simp
  exact ⟨callerFits, inlinedFits, .shapes 1, rfl, reach, left, rfl, quiet, unlimited,
    execute_inlined setting pen raised stream 1 [2] [1] [7] [2] callerFits inlinedFits (.shapes 1)
      rfl reach left rfl quiet unlimited⟩

theorem unit_vectors_never_end {caller : Bytes} {count calls : Nat} (carry : pen.skipNext = false)
    (front : stream.next? = CodeStream.next? ⟨[unitVectors count], calls⟩) :
    NeverEndsShapeAbove setting caller pen stream := by
  induction count generalizing pen stream with
  | zero =>
      have finished : step setting pen stream = .finished := step_congr front
      refine never_ends_of_finished finished ?_
      rw [front]
      simp [next?, unitVectors]
  | succ count ih =>
      obtain ⟨stroke, after, still, taken⟩ := step_unit_vector setting carry count calls
      refine never_ends_of_next ((step_congr front).trans taken) ?_ (ih still rfl)
      rw [front]
      simp [next?, unitVectors, List.replicate_succ]

/-- Without the bounds the call takes room from the bytes that can be counted: the last two vectors
are cut off behind a call of an empty program, and they are there where nothing stands for the
call. -/
theorem long_program_is_cut_behind_call :
    let behind : Bytes := unitVectors 0x7FFFFFFF
    let setting : Setting := { font := Font.empty.insertGlyph 1 [] }
    let pen : Pen Float := Pen.ready Point.origin 1
    let stream := start ([] ++ 7 :: ([1] ++ behind))
    WritesKey setting.font.kind 1 [1] ∧ setting.font.glyph? 1 = some [] ∧
      Reaches setting pen stream pen stream ∧
      stream.LeftWith [Bytes.counted (7 :: ([1] ++ behind))] ∧ pen.skipNext = false ∧
      (∀ caller, NeverEndsShapeAbove setting caller pen stream) ∧
      (execute setting ([] ++ 7 :: ([1] ++ behind)) pen).fault ≠ some .nestingLimit ∧
      execute setting ([] ++ [] ++ behind) pen ≠
        execute setting ([] ++ 7 :: ([1] ++ behind)) pen := by
  intro behind setting pen stream
  have called := @execute_call_of_empty Float _ setting pen rfl rfl rfl 0x7FFFFFFF
  have alone := @execute_unit_vectors Float _ pen setting rfl 0x7FFFFFFF
  refine ⟨.shapes 1, rfl, .start, ⟨[], rfl, rfl⟩, rfl, ?_, ?_, ?_⟩
  · intro caller
    have begins : stream = ⟨[7 :: ([1] ++ unitVectors (min 0x7FFFFFFD 0x7FFFFFFF))], 0⟩ :=
      start_of_call_of_one _
    have taken := @step_call_of_empty Float _ setting pen rfl rfl rfl
    have dropped (room : Nat) :
        next? ⟨[[], unitVectors room], 1⟩ = next? ⟨[unitVectors room], 1⟩ := rfl
    rw [begins]
    refine never_ends_of_next (taken _) ?_ (unit_vectors_never_end rfl (dropped _))
    simp [next?]
  · rw [List.nil_append, called.1]
    simp
  · intro same
    rw [List.nil_append, List.nil_append, List.nil_append] at same
    have lengths := congrArg (List.length ∘ Outcome.strokes) same
    have short := alone.2.symm.trans (lengths.trans called.2)
    exact absurd short (by decide)

end ShapeFont.Glyph
