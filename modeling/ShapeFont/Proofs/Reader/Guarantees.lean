import ShapeFont.Proofs.Reader.Buffer

/-!
# What a parser can rely on

A parser asks for records by counts and places that come from the file, and looks at the latch only
afterwards. So every operation keeps its promise in any state that operations lead to, also behind a
seek that failed: the cursor stays in the file, numbers and parts are those of the bytes, and the latch
tells whether something was missing.
-/

namespace ShapeFont

open Reader (Operation Answer endsText)

namespace Buffer

def Counts (data : Bytes) (before after : Buffer) (answer : Answer Buffer) (width : Nat) : Prop :=
  answer = .number (Bytes.littleEndian ((data.drop before.position).takeD width 0)) ∧
    after.position = before.position + min width (data.length - before.position)

/-- What an operation answers and where it leaves the cursor. A part is the slice that was asked for,
and a text goes up to the next byte that ends one. -/
def Answers (data : Bytes) (before after : Buffer) (answer : Answer Buffer) : Operation → Prop
  | .byte => Counts data before after answer 1
  | .uint16 => Counts data before after answer 2
  | .uint32 => Counts data before after answer 4
  | .uint width => Counts data before after answer width.toInt.toNat
  | .seek place =>
      answer = .done ∧ after.position =
        if 0 ≤ place.toInt ∧ place.toInt ≤ data.length then place.toInt.toNat else data.length
  | .take count =>
      let available := min count.toInt.toNat (data.length - before.position)
      (∃ part, answer = .part (fresh part) ∧
        part.IsSlice before.toWindow data before.position available) ∧
        after.position = before.position + available
  | .text =>
      ∃ part length, answer = .part (fresh part) ∧
        part.IsSlice before.toWindow data before.position length ∧
        (∀ value ∈ (data.drop before.position).take length, endsText value = false) ∧
        match (data.drop before.position).drop length with
        | [] => after.position = before.position + length
        | terminator :: _ =>
            endsText terminator = true ∧ after.position = before.position + length + 1
  | .slice offset length =>
      after = before ∧
        if 0 ≤ offset.toInt ∧ 0 ≤ length.toInt ∧ offset.toInt + length.toInt ≤ data.length then
          ∃ part, answer = .part (fresh part) ∧
            part.IsSlice before.toWindow data offset.toInt.toNat length.toInt.toNat
        else answer = .part (fresh .empty)

structure Effect (data : Bytes) (before : Buffer) (operation : Operation) (answer : Answer Buffer)
    (after : Buffer) : Prop where
  window : after.toWindow = before.toWindow
  cursor : 0 ≤ after.cursor.toInt ∧ after.cursor.toInt ≤ after.size.toInt
  latch : after.shortRead = true ↔
    before.shortRead = true ∨ operation.Misses data before.position
  answers : Answers data before after answer operation

/-- An operation goes through, on the buffer as on the reader. -/
structure Mirrors (buffer : Buffer) (reader : Reader) (operation : Operation)
    (answer : Answer Buffer) (after : Buffer) : Prop where
  performed : buffer.perform operation = .ok (answer, after)
  stands : after.Stands (reader.perform operation).2
  shown : shown answer = .ok (reader.perform operation).1
  effect : Effect reader.data.toList buffer operation answer after

theorem perform_all_cons {buffer middle : Buffer} {operation : Operation} {answer : Answer Buffer}
    (performed : buffer.perform operation = .ok (answer, middle)) (history : List Operation) :
    buffer.performAll (operation :: history) =
      (middle.performAll history).map fun result => (answer :: result.1, result.2) := by
  simp only [performAll, performed, bind, Except.bind]
  cases middle.performAll history <;> rfl

theorem shown_part {part : Window} {data : Bytes} (bytes : part.bytes = .ok data) :
    shown (.part (fresh part)) = .ok (.part data) := by
  have same : (fresh part).toWindow.bytes = .ok data := bytes
  rw [shown, same]
  rfl

namespace Stands

variable {buffer : Buffer} {reader : Reader}

theorem answering_uint (stands : buffer.Stands reader) (width : Int32) (lower : 1 ≤ width.toInt)
    (upper : width.toInt ≤ 4) :
    ∃ after, answering (fun value => .number value.toNat) (buffer.uint width) =
        .ok (.number (reader.uint width.toInt.toNat).1, after) ∧
      after.Stands (reader.uint width.toInt.toNat).2 ∧ after.toWindow = buffer.toWindow := by
  obtain ⟨value, after, read, sum, still, same⟩ := stands.uint lower upper
  refine ⟨after, ?_, still, same⟩
  rw [read, ← sum]
  rfl

theorem performs_number (stands : buffer.Stands reader) {operation : Operation} {width : Nat}
    (reads : operation.Reads width) (allowed : operation.Allowed) :
    ∃ after, buffer.perform operation = .ok (.number (reader.uint width).1, after) ∧
      after.Stands (reader.uint width).2 ∧ after.toWindow = buffer.toWindow := by
  cases reads with
  | byte =>
      obtain ⟨after, read, still, same⟩ := stands.byte
      exact ⟨after, by rw [perform, read]; rfl, still, same⟩
  | uint16 => exact stands.answering_uint 2 (by decide) (by decide)
  | uint32 => exact stands.answering_uint 4 (by decide) (by decide)
  | uint width => exact stands.answering_uint width allowed.1 allowed.2

theorem mirrors_number (stands : buffer.Stands reader) {operation : Operation} {width : Nat}
    (reads : operation.Reads width) (allowed : operation.Allowed) :
    ∃ answer after, Mirrors buffer reader operation answer after := by
  obtain ⟨after, performed, still, same⟩ := stands.performs_number reads allowed
  obtain ⟨value, cursor, latch⟩ := reader.uint_spec width
  have counts : Counts reader.data.toList buffer after (.number (reader.uint width).1) width := by
    rw [Counts, value, still.position, cursor, stands.length_ahead, stands.position]
    exact ⟨rfl, rfl⟩
  refine ⟨_, after, performed, ?_, ?_, same, still.cursor_within, ?_, ?_⟩
  · rw [Reader.perform_of_reads reads]
    exact still
  · rw [Reader.perform_of_reads reads]
    rfl
  · rw [Operation.misses_iff_of_reads reads, still.latch, latch, stands.latch, stands.length_ahead]
  · cases reads <;> exact counts

theorem mirrors_seek (stands : buffer.Stands reader) (place : Int32) :
    Mirrors buffer reader (.seek place) .done (buffer.seek place) := by
  obtain ⟨still, same⟩ := stands.seek place
  obtain ⟨cursor, latch⟩ := reader.seek_spec place.toInt
  refine ⟨rfl, still, rfl, same, still.cursor_within, ?_, rfl, ?_⟩
  · rw [Operation.misses_seek_iff, still.latch, latch, stands.latch, Array.length_toList]
    rfl
  · rw [still.position, cursor, Array.length_toList]
    rfl

theorem mirrors_take (stands : buffer.Stands reader) (count : Int32) :
    ∃ answer after, Mirrors buffer reader (.take count) answer after := by
  obtain ⟨part, after, taken, slice, still, same⟩ := stands.take count
  obtain ⟨cursor, latch⟩ := reader.take_spec count.toInt
  have ahead : reader.remaining = reader.data.toList.length - buffer.position := by
    rw [← Reader.length_rest, stands.length_ahead]
  refine ⟨.part (fresh part), after, ?_, still, ?_, same, still.cursor_within, ?_, ⟨part, rfl, ?_⟩,
    ?_⟩
  · rw [perform, taken]
    rfl
  · rw [shown_part slice.bytes]
    exact congrArg (fun bytes => Except.ok (Answer.part bytes))
      (Reader.take_eq stands.inside count.toInt).symm
  · rw [Operation.misses_iff_of_no_seek (fun place => Operation.noConfusion), still.latch, latch,
      stands.latch, ahead]
    rfl
  · rw [← ahead, stands.position]
    exact slice
  · rw [still.position, cursor, ahead, stands.position]

theorem mirrors_text (stands : buffer.Stands reader) :
    ∃ answer after, Mirrors buffer reader .text answer after := by
  obtain ⟨part, after, taken, slice, still, same⟩ := stands.text
  refine ⟨.part (fresh part), after, ?_, still, ?_, same, still.cursor_within, ?_, part,
    reader.takeText.1.length, rfl, ?_, ?_, ?_⟩
  · rw [perform, taken]
    rfl
  · rw [shown_part slice.bytes]
    exact congrArg (fun bytes => Except.ok (Answer.part bytes)) reader.take_length_text
  · rw [Operation.misses_iff_of_no_seek (fun place => Operation.noConfusion), still.latch,
      stands.latch]
    exact (or_iff_left (Nat.not_lt_zero _)).symm
  · rw [stands.position]
    exact slice
  · rw [stands.position]
    show ∀ value ∈ reader.rest.take reader.takeText.1.length, endsText value = false
    rw [reader.take_length_text]
    exact reader.clean_take_text
  · rw [still.position, stands.position]
    exact Reader.take_text_spec stands.inside

theorem mirrors_slice (stands : buffer.Stands reader) (offset length : Int32) :
    ∃ answer, Mirrors buffer reader (.slice offset length) answer buffer := by
  have never : ¬(Operation.slice offset length).Misses reader.data.toList buffer.position := by
    rw [Operation.misses_iff_of_no_seek (fun place => Operation.noConfusion)]
    exact Nat.not_lt_zero _
  have size : reader.data.toList.length = reader.size := Array.length_toList
  by_cases inside : 0 ≤ offset.toInt ∧ 0 ≤ length.toInt ∧
      offset.toInt + length.toInt ≤ reader.data.toList.length
  · obtain ⟨part, cut, slice⟩ := stands.shows.slice_of_inside
      (Int.toNat_of_nonneg inside.1).symm (Int.toNat_of_nonneg inside.2.1).symm (by omega)
    refine ⟨.part (fresh part), ?_, stands, ?_, rfl, stands.cursor_within,
      (or_iff_left never).symm, rfl, ?_⟩
    · rw [perform, cut]
      rfl
    · rw [shown_part slice.bytes, ← Reader.slice_of_inside (by omega)]
      rfl
    · rw [if_pos inside]
      exact ⟨part, rfl, slice⟩
  · refine ⟨.part (fresh .empty), ?_, stands, ?_, rfl, stands.cursor_within,
      (or_iff_left never).symm, rfl, ?_⟩
    · rw [perform, stands.shows.slice_of_outside inside]
      rfl
    · have nothing : reader.slice offset.toInt length.toInt = [] :=
        Reader.slice_of_outside (by omega)
      rw [shown_part Window.bytes_empty, ← nothing]
      rfl
    · rw [if_neg inside]

theorem mirrors (stands : buffer.Stands reader) {operation : Operation}
    (allowed : operation.Allowed) : ∃ answer after, Mirrors buffer reader operation answer after := by
  cases operation with
  | byte => exact stands.mirrors_number .byte allowed
  | uint16 => exact stands.mirrors_number .uint16 allowed
  | uint32 => exact stands.mirrors_number .uint32 allowed
  | uint width => exact stands.mirrors_number (.uint width) allowed
  | seek place => exact ⟨_, _, stands.mirrors_seek place⟩
  | take count => exact stands.mirrors_take count
  | text => exact stands.mirrors_text
  | slice offset length =>
      obtain ⟨answer, mirrors⟩ := stands.mirrors_slice offset length
      exact ⟨answer, buffer, mirrors⟩

theorem performs_all (stands : buffer.Stands reader) {history : List Operation}
    (allowed : ∀ operation ∈ history, operation.Allowed) :
    ∃ answers after, buffer.performAll history = .ok (answers, after) ∧
      after.Stands (reader.performAll history).2 ∧
      answers.mapM Buffer.shown = .ok (reader.performAll history).1 ∧
      after.toWindow = buffer.toWindow := by
  induction history generalizing buffer reader with
  | nil => exact ⟨[], buffer, rfl, stands, rfl, rfl⟩
  | cons operation history ih =>
      obtain ⟨answer, middle, step⟩ := stands.mirrors (allowed operation List.mem_cons_self)
      obtain ⟨answers, after, run, still, seen, same⟩ :=
        ih step.stands fun later member => allowed later (List.mem_cons_of_mem _ member)
      refine ⟨answer :: answers, after, ?_, still, ?_, same.trans step.effect.window⟩
      · rw [perform_all_cons step.performed, run]
        rfl
      · rw [List.mapM_cons, step.shown, seen]
        rfl

end Stands

/-- Some operation of the history missed something, where those before it had led to. -/
def Missed (data : Bytes) (buffer : Buffer) (history : List Operation) : Prop :=
  ∃ earlier operation later answers stage, history = earlier ++ operation :: later ∧
    buffer.performAll earlier = .ok (answers, stage) ∧ operation.Misses data stage.position

theorem not_missed_nil (data : Bytes) (buffer : Buffer) : ¬Missed data buffer [] := by
  rintro ⟨earlier, operation, later, -, -, parts, -⟩
  exact List.append_ne_nil_of_right_ne_nil earlier (List.cons_ne_nil operation later) parts.symm

theorem missed_cons_iff {data : Bytes} {buffer middle : Buffer} {operation : Operation}
    {answer : Answer Buffer} (performed : buffer.perform operation = .ok (answer, middle))
    (history : List Operation) :
    Missed data buffer (operation :: history) ↔
      operation.Misses data buffer.position ∨ Missed data middle history := by
  constructor
  · rintro ⟨earlier, missing, later, answers, stage, parts, run, misses⟩
    cases earlier with
    | nil =>
        obtain ⟨rfl, rfl⟩ := List.cons.inj parts
        cases run
        exact Or.inl misses
    | cons first earlier =>
        obtain ⟨rfl, rfl⟩ := List.cons.inj parts
        rw [perform_all_cons performed] at run
        cases reached : middle.performAll earlier with
        | error misstep => simp [reached, Except.map] at run
        | ok result =>
            obtain ⟨-, rfl⟩ : _ ∧ result.2 = stage := by simpa [reached, Except.map] using run
            exact Or.inr ⟨earlier, missing, later, result.1, result.2, rfl, reached, misses⟩
  · rintro (misses | ⟨earlier, missing, later, answers, stage, rfl, run, misses⟩)
    · exact ⟨[], operation, history, [], buffer, rfl, rfl, misses⟩
    · refine ⟨operation :: earlier, missing, later, answer :: answers, stage, rfl, ?_, misses⟩
      rw [perform_all_cons performed, run]
      rfl

theorem Stands.latched_iff {buffer : Buffer} {reader : Reader} (stands : buffer.Stands reader)
    {history : List Operation} (allowed : ∀ operation ∈ history, operation.Allowed)
    {answers : List (Answer Buffer)} {after : Buffer}
    (run : buffer.performAll history = .ok (answers, after)) :
    after.shortRead = true ↔
      buffer.shortRead = true ∨ Missed reader.data.toList buffer history := by
  induction history generalizing buffer reader answers with
  | nil =>
      cases run
      exact (or_iff_left (not_missed_nil _ _)).symm
  | cons operation history ih =>
      obtain ⟨answer, middle, step⟩ := stands.mirrors (allowed operation List.mem_cons_self)
      rw [perform_all_cons step.performed] at run
      cases reached : middle.performAll history with
      | error misstep => simp [reached, Except.map] at run
      | ok result =>
          obtain ⟨-, rfl⟩ : _ ∧ result.2 = after := by simpa [reached, Except.map] using run
          have latch := ih step.stands
            (fun later member => allowed later (List.mem_cons_of_mem _ member)) reached
          rw [(reader.onward_perform operation).data] at latch
          rw [latch, step.effect.latch, missed_cons_iff step.performed, or_assoc]

/-- In whatever order a file is asked for numbers, parts and places, no sum overflows and no byte
outside of it is read. The cursor stays in the file, each operation answers with the bytes it names,
and the latch is set by the operations that missed something and by no others. -/
theorem operations_stay_in_file (data : Bytes) (small : data.length < 0x80000000)
    (history : List Operation) (allowed : ∀ operation ∈ history, operation.Allowed) :
    ∃ answers buffer, (ofBytes data).performAll history = .ok (answers, buffer) ∧
      (buffer.memory.toList = data ∧ buffer.start = 0 ∧ buffer.size.toInt = data.length) ∧
      (0 ≤ buffer.cursor.toInt ∧ buffer.cursor.toInt ≤ buffer.size.toInt) ∧
      (buffer.shortRead = true ↔ Missed data (ofBytes data) history) ∧
      (∀ operation, operation.Allowed →
        ∃ answer after, buffer.perform operation = .ok (answer, after) ∧
          Effect data buffer operation answer after) ∧
      answers.mapM shown = .ok ((Reader.ofBytes data).performAll history).1 ∧
      buffer.position = ((Reader.ofBytes data).performAll history).2.cursor ∧
      buffer.shortRead = ((Reader.ofBytes data).performAll history).2.shortRead := by
  rw [Reader.ofBytes, Bytes.counted_of_small small]
  have begun := stands_of_bytes small
  obtain ⟨answers, buffer, run, stands, seen, window⟩ := begun.performs_all allowed
  have same : ((Reader.start data).performAll history).2.data.toList = data := by
    rw [((Reader.start data).onward_perform_all history).data]
    rfl
  refine ⟨answers, buffer, run, ?_, stands.cursor_within, ?_, ?_, seen, stands.position,
    stands.latch⟩
  · rw [window]
    exact ⟨rfl, rfl, begun.shows.size⟩
  · rw [begun.latched_iff allowed run]
    exact or_iff_right Bool.false_ne_true
  · intro operation permitted
    obtain ⟨answer, after, step⟩ := stands.mirrors permitted
    have effect := step.effect
    rw [same] at effect
    exact ⟨answer, after, step.performed, effect⟩

/-- A number that runs over the end of its file, and what is read behind seeks that fail and succeed. -/
theorem file_read_over_its_end :
    let data : Bytes := [65, 10, 1, 2, 3]
    let history : List Operation := [.text, .uint 4, .seek (-1), .byte, .seek 1, .take 2, .slice 2 4]
    data.length < 0x80000000 ∧ (∀ operation ∈ history, operation.Allowed) ∧
      ∃ answers buffer, (ofBytes data).performAll history = .ok (answers, buffer) ∧
        answers.mapM shown = .ok
          [.part [65], .number 0x030201, .done, .number 0, .done, .part [10, 1], .part []] ∧
        buffer.position = 3 ∧ buffer.shortRead = true ∧ Missed data (ofBytes data) history := by
  intro data history
  have small : data.length < 0x80000000 := by decide
  have allowed : ∀ operation ∈ history, operation.Allowed := by
    simp [history, Operation.Allowed]
  have read : ((Reader.ofBytes data).performAll history).1 =
      [.part [65], .number 0x030201, .done, .number 0, .done, .part [10, 1], .part []] := by decide
  have state : ((Reader.ofBytes data).performAll history).2.cursor = 3 ∧
      ((Reader.ofBytes data).performAll history).2.shortRead = true := by decide
  obtain ⟨answers, buffer, run, _, _, latch, _, seen, position, short⟩ :=
    operations_stay_in_file data small history allowed
  rw [read] at seen
  rw [state.1] at position
  rw [state.2] at short
  exact ⟨small, allowed, answers, buffer, run, seen, position, short, latch.mp short⟩

end Buffer

end ShapeFont
