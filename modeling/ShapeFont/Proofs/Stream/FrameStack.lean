import ShapeFont.Glyph.FrameStack
import ShapeFont.Proofs.Stream.Unread

/-!
# Frames in memory behave like one string of bytes

No operation ever reaches for a slot or a byte that does not exist, and the stack answers and
changes as the stream does that it stands for. Exhausted programs stay on the stack until the next
read, so the same string has many stacks; only a discard and the depth tell them apart.
-/

namespace ShapeFont

namespace Cursor

def Inside (cursor : Cursor) : Prop := cursor.position ≤ cursor.program.size

theorem inside_start (program : Bytes) : (start program).Inside := Nat.zero_le _

theorem unread_start (program : Bytes) : (start program).unread = program := by
  simp [start, unread]

theorem at_end_iff {cursor : Cursor} : cursor.atEnd = true ↔ cursor.unread = [] := by
  simp [atEnd, unread]

theorem read_of_unread {cursor : Cursor} {byte : UInt8} {ahead : Bytes}
    (front : cursor.unread = byte :: ahead) :
    ∃ rest, cursor.read = .ok (byte, rest) ∧ rest.unread = ahead ∧ rest.Inside := by
  have inside : cursor.position < cursor.program.size := by
    have length := congrArg List.length front
    simp only [unread, List.length_drop, Array.length_toList, List.length_cons] at length
    omega
  have parts : cursor.unread =
      cursor.program[cursor.position] :: cursor.program.toList.drop (cursor.position + 1) := by
    unfold unread
    rw [List.drop_eq_getElem_cons (by simpa using inside)]
    rfl
  obtain ⟨rfl, rfl⟩ := List.cons.inj (parts.symm.trans front)
  refine ⟨{ cursor with position := cursor.position + 1 }, ?_, rfl, inside⟩
  unfold read
  rw [Array.getElem?_eq_getElem inside]

theorem skip_through_zero_spec {cursor : Cursor} (inside : cursor.Inside) :
    ∃ rest, cursor.skipThroughZero = .ok rest ∧ rest.unread = cursor.unread.behindZero ∧
      rest.Inside := by
  fun_induction skipThroughZero cursor with
  | case1 cursor ended =>
      exact ⟨cursor, rfl, by rw [at_end_iff.mp ended]; rfl, inside⟩
  | case2 cursor more outside taken =>
      cases front : cursor.unread with
      | nil => exact absurd (at_end_iff.mpr front) more
      | cons byte ahead =>
          obtain ⟨rest, read, -, -⟩ := read_of_unread front
          simp [read] at taken
  | case3 cursor more rest taken =>
      cases front : cursor.unread with
      | nil => exact absurd (at_end_iff.mpr front) more
      | cons byte ahead =>
          obtain ⟨reached, read, behind, within⟩ := read_of_unread front
          obtain ⟨rfl, rfl⟩ := by simpa [read] using taken
          refine ⟨reached, rfl, ?_, within⟩
          rw [behind, Bytes.behind_zero_cons, if_pos rfl]
  | case4 cursor more byte rest taken other ih =>
      cases front : cursor.unread with
      | nil => exact absurd (at_end_iff.mpr front) more
      | cons first ahead =>
          obtain ⟨reached, read, behind, within⟩ := read_of_unread front
          obtain ⟨rfl, rfl⟩ := by simpa [read] using taken
          rw [Bytes.behind_zero_cons, if_neg other, ← behind]
          exact ih within

end Cursor

namespace FrameStack

open CodeStream

/-- The heights and counts that limits allow, with every cursor inside its program. Slots that are
not in use are no exception. -/
structure Sound (stack : FrameStack) : Prop where
  height : stack.height ≤ maxDepth + 1
  calls : stack.calls ≤ maxCalls
  cursors : ∀ index (inside : index < maxDepth + 1), stack.slots[index].Inside

theorem sound_empty : empty.Sound where
  height := Nat.zero_le _
  calls := Nat.zero_le _
  cursors := by
    intro index inside
    simp [empty, Cursor.Inside]

section

variable {stack : FrameStack} {index : Nat}

theorem slot_of_inside (inside : index < maxDepth + 1) :
    stack.slot index = .ok stack.slots[index] := by
  simp [slot, Vector.getElem?_eq_getElem inside]

theorem set_slot_of_inside (inside : index < maxDepth + 1) (cursor : Cursor) :
    stack.setSlot index cursor =
      .ok { stack with slots := stack.slots.set index cursor inside } := by
  simp [setSlot, inside]

theorem frames_below_succ (slots : Vector Cursor (maxDepth + 1)) (inside : index < maxDepth + 1) :
    framesBelow slots (index + 1) = slots[index].unread :: framesBelow slots index := by
  simp [framesBelow, Vector.getElem?_eq_getElem inside]

theorem frames_below_set_of_le {slots : Vector Cursor (maxDepth + 1)} {height : Nat}
    (inside : index < maxDepth + 1) (cursor : Cursor) (below : height ≤ index) :
    framesBelow (slots.set index cursor inside) height = framesBelow slots height := by
  induction height with
  | zero => rfl
  | succ height ih =>
      have other : index ≠ height := by omega
      rw [framesBelow, framesBelow, ih (by omega), Vector.getElem?_set_ne inside other]

theorem frames_below_set_succ {slots : Vector Cursor (maxDepth + 1)}
    (inside : index < maxDepth + 1) (cursor : Cursor) :
    framesBelow (slots.set index cursor inside) (index + 1) =
      cursor.unread :: framesBelow slots index := by
  rw [frames_below_succ _ inside, Vector.getElem_set_self,
    frames_below_set_of_le inside cursor (Nat.le_refl _)]

theorem length_frames_below (slots : Vector Cursor (maxDepth + 1)) (height : Nat) :
    (framesBelow slots height).length = height := by
  induction height with
  | zero => rfl
  | succ height ih => rw [framesBelow, List.length_cons, ih]

theorem depth_to_stream (stack : FrameStack) : stack.toStream.depth = stack.height :=
  length_frames_below stack.slots stack.height

theorem inside_set {slots : Vector Cursor (maxDepth + 1)} {cursor : Cursor}
    (inside : index < maxDepth + 1) (within : cursor.Inside)
    (all : ∀ other (bound : other < maxDepth + 1), slots[other].Inside)
    (other : Nat) (bound : other < maxDepth + 1) :
    (slots.set index cursor inside)[other].Inside := by
  rw [Vector.getElem_set]
  split
  · exact within
  · exact all other bound

end

theorem height_in_use_spec (stack : FrameStack) {height : Nat} (bound : height ≤ maxDepth + 1) :
    ∃ left, stack.heightInUse height = .ok left ∧ left ≤ height ∧
      framesBelow stack.slots left = (framesBelow stack.slots height).dropWhile List.isEmpty := by
  induction height with
  | zero => exact ⟨0, rfl, Nat.le_refl _, rfl⟩
  | succ height ih =>
      have inside : height < maxDepth + 1 := bound
      simp only [heightInUse, slot_of_inside inside, bind, Except.bind]
      rw [frames_below_succ _ inside]
      by_cases ended : stack.slots[height].atEnd = true
      · obtain ⟨left, found, lower, same⟩ := ih (by omega)
        refine ⟨left, by rw [if_pos ended, found], by omega, ?_⟩
        rw [Cursor.at_end_iff.mp ended, same]
        rfl
      · refine ⟨height + 1, by rw [if_neg ended]; rfl, Nat.le_refl _, ?_⟩
        have nonempty : stack.slots[height].unread.isEmpty = false := by
          rw [Cursor.at_end_iff] at ended
          simpa using ended
        rw [frames_below_succ _ inside, List.dropWhile_cons_of_neg (by simp [nonempty])]

theorem reset_spec {stack : FrameStack} (sound : stack.Sound) (program : Bytes) :
    ∃ after, stack.reset program = .ok after ∧ after.Sound ∧ after.toStream = CodeStream.reset program := by
  have inside : 0 < maxDepth + 1 := by decide
  refine ⟨{ slots := stack.slots.set 0 (Cursor.start program) inside, height := 1, calls := 0 },
    ?_, ⟨Nat.succ_le_succ (Nat.zero_le _), Nat.zero_le _, ?_⟩, ?_⟩
  · simp only [reset, set_slot_of_inside inside]
    rfl
  · exact inside_set inside (Cursor.inside_start program) sound.cursors
  · simp only [toStream, frames, frames_below_set_succ inside, Cursor.unread_start]
    rfl

theorem call_spec {stack : FrameStack} (sound : stack.Sound) (program : Bytes) :
    match stack.toStream.call? program with
    | none => stack.call program = .ok (false, stack)
    | some called => ∃ after, stack.call program = .ok (true, after) ∧ after.Sound ∧
        after.toStream = called := by
  have calls : stack.toStream.calls = stack.calls := rfl
  unfold CodeStream.call?
  rw [stack.depth_to_stream, calls]
  by_cases limited : maxDepth < stack.height ∨ maxCalls ≤ stack.calls
  · rw [if_pos limited]
    simp only [call, if_pos limited]
    rfl
  · rw [if_neg limited]
    have inside : stack.height < maxDepth + 1 := by omega
    refine ⟨{ slots := stack.slots.set stack.height (Cursor.start program) inside,
              height := stack.height + 1, calls := stack.calls + 1 }, ?_, ⟨?_, ?_, ?_⟩, ?_⟩
    · simp only [call, if_neg limited, set_slot_of_inside inside]
      rfl
    · exact inside
    · show stack.calls + 1 ≤ maxCalls
      omega
    · exact inside_set inside (Cursor.inside_start program) sound.cursors
    · simp only [toStream, frames, frames_below_set_succ inside, Cursor.unread_start]

theorem pop_spec {stack : FrameStack} (sound : stack.Sound) :
    ∃ after, stack.pop = .ok (stack.toStream.pop.1, after) ∧ after.Sound ∧
      after.toStream = stack.toStream.pop.2 := by
  obtain ⟨left, found, lower, same⟩ := stack.height_in_use_spec sound.height
  have front : stack.toStream.frames.dropWhile List.isEmpty = framesBelow stack.slots left :=
    same.symm
  simp only [pop, found, bind, Except.bind]
  cases left with
  | zero =>
      have ended : stack.toStream.next? = none := by
        unfold CodeStream.next?
        rw [front]
        rfl
      refine ⟨{ stack with height := 0 }, ?_, ⟨Nat.zero_le _, sound.calls, sound.cursors⟩, ?_⟩
      · rw [CodeStream.pop, ended]
        rfl
      · rw [CodeStream.pop, ended]
        rfl
  | succ top =>
      have inside : top < maxDepth + 1 := Nat.lt_of_lt_of_le lower sound.height
      rw [frames_below_succ _ inside] at front
      cases ahead : stack.slots[top].unread with
      | nil =>
          -- the height was lowered until the top program had a byte
          have kept := List.head?_dropWhile_not List.isEmpty stack.toStream.frames
          rw [front, ahead] at kept
          simp at kept
      | cons byte frame =>
          obtain ⟨rest, read, behind, within⟩ := Cursor.read_of_unread ahead
          rw [ahead] at front
          have taken : stack.toStream.next? =
              some (byte, { stack.toStream with
                frames := frame :: framesBelow stack.slots top }) := by
            unfold CodeStream.next?
            rw [front]
          refine ⟨{ stack with slots := stack.slots.set top rest inside, height := top + 1 },
            ?_, ⟨inside, sound.calls, inside_set inside within sound.cursors⟩, ?_⟩
          · rw [CodeStream.pop, taken]
            simp only [Nat.add_one_ne_zero, if_false, Nat.add_sub_cancel]
            rw [slot_of_inside inside]
            simp only [read, set_slot_of_inside inside]
            rfl
          · rw [CodeStream.pop, taken]
            simp only [toStream, frames, frames_below_set_succ inside, behind]

theorem discard_spec {stack : FrameStack} (sound : stack.Sound) :
    ∃ after, stack.discardThroughZero = .ok after ∧ after.Sound ∧
      after.toStream = stack.toStream.discardThroughZero := by
  cases height : stack.height with
  | zero =>
      refine ⟨stack, by simp [discardThroughZero, height]; rfl, sound, ?_⟩
      simp [CodeStream.discardThroughZero, toStream, frames, height, framesBelow]
  | succ top =>
      have inside : top < maxDepth + 1 := by
        have bound := sound.height
        omega
      obtain ⟨rest, skipped, behind, within⟩ :=
        Cursor.skip_through_zero_spec (sound.cursors top inside)
      refine ⟨{ stack with slots := stack.slots.set top rest inside },
        ?_, ⟨sound.height, sound.calls, inside_set inside within sound.cursors⟩, ?_⟩
      · simp only [discardThroughZero, height, Nat.add_one_ne_zero, if_false, Nat.add_sub_cancel,
          bind, Except.bind]
        rw [slot_of_inside inside]
        simp only [skipped, set_slot_of_inside inside, height]
      · have front : stack.toStream.frames =
            stack.slots[top].unread :: framesBelow stack.slots top := by
          simp only [toStream, frames, height, frames_below_succ _ inside]
        rw [discard_of_frames front]
        simp only [toStream, frames, height, frames_below_set_succ inside, behind]

/-- One operation: it never fails, and the stack goes on standing for the stream. -/
theorem perform_spec {stack : FrameStack} (sound : stack.Sound) (operation : Operation) :
    ∃ after, stack.perform operation = .ok ((stack.toStream.perform operation).1, after) ∧
      after.Sound ∧ after.toStream = (stack.toStream.perform operation).2 := by
  cases operation with
  | reset program =>
      obtain ⟨after, done, kept, same⟩ := reset_spec sound program
      exact ⟨after, by simp only [perform, done]; rfl, kept, same⟩
  | call program =>
      have spec := call_spec sound program
      simp only [perform, CodeStream.perform]
      cases called : stack.toStream.call? program with
      | none =>
          rw [called] at spec
          exact ⟨stack, by rw [spec]; rfl, sound, rfl⟩
      | some stream =>
          rw [called] at spec
          obtain ⟨after, done, kept, same⟩ := spec
          exact ⟨after, by rw [done]; rfl, kept, same⟩
  | pop =>
      obtain ⟨after, done, kept, same⟩ := pop_spec sound
      exact ⟨after, by simp only [perform, done]; rfl, kept, same⟩
  | discard =>
      obtain ⟨after, done, kept, same⟩ := discard_spec sound
      exact ⟨after, by simp only [perform, done]; rfl, kept, same⟩

theorem perform_all_spec {stack : FrameStack} (sound : stack.Sound) (history : List Operation) :
    ∃ after, stack.performAll history = .ok ((stack.toStream.performAll history).1, after) ∧
      after.Sound ∧ after.toStream = (stack.toStream.performAll history).2 := by
  induction history generalizing stack with
  | nil => exact ⟨stack, rfl, sound, rfl⟩
  | cons operation history ih =>
      obtain ⟨middle, first, kept, same⟩ := perform_spec sound operation
      obtain ⟨after, later, bounded, agrees⟩ := ih kept
      rw [same] at later agrees
      refine ⟨after, ?_, bounded, agrees⟩
      simp only [performAll, first, later, bind, Except.bind]
      rfl

/-- What an operation answers, and what it does to the bytes ahead. A discard looks at the top
program alone: it goes up to the first zero there, or takes all that is left of it. -/
def Effect (before after : FrameStack) (answer : Answer) : Operation → Prop
  | .reset program =>
      answer = .done ∧ after.unread = program ∧ after.height = 1 ∧ after.calls = 0
  | .call program =>
      if 16 < before.height ∨ 1024 ≤ before.calls then answer = .refused ∧ after = before
      else answer = .called ∧ after.unread = program ++ before.unread ∧
        after.height = before.height + 1 ∧ after.calls = before.calls + 1
  | .pop =>
      after.calls = before.calls ∧ after.height ≤ before.height ∧
        match before.unread with
        | [] => answer = .exhausted ∧ after.unread = []
        | byte :: ahead => answer = .byte byte ∧ after.unread = ahead
  | .discard =>
      answer = .done ∧ after.calls = before.calls ∧
        match before.frames with
        | [] => after = before
        | frame :: lower => ∃ skipped kept, frame = skipped ++ kept ∧ after.frames = kept :: lower ∧
            ((∃ nonzero, skipped = nonzero ++ [0] ∧ 0 ∉ nonzero) ∨ (kept = [] ∧ 0 ∉ skipped))

theorem sound_of_perform {stack after : FrameStack} {operation : Operation} {answer : Answer}
    (sound : stack.Sound) (performed : stack.perform operation = .ok (answer, after)) :
    after.Sound := by
  obtain ⟨reached, done, kept, -⟩ := perform_spec sound operation
  obtain ⟨-, rfl⟩ : (stack.toStream.perform operation).1 = answer ∧ reached = after := by
    simpa using done.symm.trans performed
  exact kept

theorem simulates {stack after : FrameStack} {operation : Operation} {answer : Answer}
    (sound : stack.Sound) (performed : stack.perform operation = .ok (answer, after)) :
    stack.toStream.perform operation = (answer, after.toStream) := by
  obtain ⟨reached, done, -, same⟩ := perform_spec sound operation
  obtain ⟨answers, rfl⟩ : (stack.toStream.perform operation).1 = answer ∧ reached = after := by
    simpa using done.symm.trans performed
  rw [← answers, same]

theorem call_effect {stack after : FrameStack} {program : Bytes} {answer : Answer}
    (sound : stack.Sound) (performed : stack.perform (.call program) = .ok (answer, after)) :
    Effect stack after answer (.call program) := by
  show if maxDepth < stack.height ∨ maxCalls ≤ stack.calls then _ else _
  by_cases limited : maxDepth < stack.height ∨ maxCalls ≤ stack.calls
  · rw [if_pos limited]
    simp only [perform, call, if_pos limited] at performed
    cases performed
    exact ⟨rfl, rfl⟩
  · rw [if_neg limited]
    have same := simulates sound performed
    have allowed : ¬(maxDepth < stack.toStream.depth ∨ maxCalls ≤ stack.toStream.calls) := by
      rw [stack.depth_to_stream]
      exact limited
    rw [CodeStream.perform, call?, if_neg allowed] at same
    obtain ⟨rfl, reached⟩ := Prod.mk.inj same
    refine ⟨rfl, (congrArg CodeStream.unread reached).symm, ?_,
      (congrArg CodeStream.calls reached).symm⟩
    rw [← after.depth_to_stream, ← stack.depth_to_stream, ← reached]
    rfl

theorem pop_effect {stack after : FrameStack} {answer : Answer}
    (sound : stack.Sound) (performed : stack.perform .pop = .ok (answer, after)) :
    Effect stack after answer .pop := by
  have same := simulates sound performed
  simp only [CodeStream.perform, CodeStream.pop] at same
  show _ ∧ after.height ≤ stack.height ∧ _
  rw [← after.depth_to_stream, ← stack.depth_to_stream]
  cases read : stack.toStream.next? with
  | none =>
      have nothing : stack.unread = [] := next_eq_none_iff.mp read
      rw [read] at same
      obtain ⟨rfl, reached⟩ := Prod.mk.inj same
      refine ⟨(congrArg CodeStream.calls reached).symm, ?_, ?_⟩
      · rw [← reached]
        exact Nat.zero_le _
      · rw [nothing]
        exact ⟨rfl, (congrArg CodeStream.unread reached).symm⟩
  | some found =>
      obtain ⟨byte, rest⟩ := found
      rw [read] at same
      obtain ⟨rfl, rfl⟩ := Prod.mk.inj same
      obtain ⟨front, calls⟩ := unread_of_next read
      refine ⟨calls, depth_of_next read, ?_⟩
      rw [show stack.unread = byte :: after.unread from front]
      exact ⟨rfl, rfl⟩

theorem discard_effect {stack after : FrameStack} {answer : Answer}
    (sound : stack.Sound) (performed : stack.perform .discard = .ok (answer, after)) :
    Effect stack after answer .discard := by
  obtain ⟨done, reached⟩ := Prod.mk.inj (simulates sound performed)
  have reached : stack.toStream.discardThroughZero = after.toStream := reached
  refine ⟨done.symm, ?_, ?_⟩
  · have calls := calls_discard_through_zero stack.toStream
    rwa [reached] at calls
  · cases front : stack.frames with
    | nil =>
        have empty : stack.height = 0 := by
          rw [← stack.depth_to_stream]
          exact congrArg List.length front
        simp only [perform, discardThroughZero, empty] at performed
        cases performed
        rfl
    | cons frame lower =>
        obtain ⟨skipped, parts, stop⟩ := frame.split_behind_zero
        rw [discard_of_frames front] at reached
        have behind : after.frames = frame.behindZero :: lower :=
          (congrArg CodeStream.frames reached).symm
        exact ⟨skipped, frame.behindZero, parts, behind, stop⟩

theorem perform_effect {stack after : FrameStack} {operation : Operation} {answer : Answer}
    (sound : stack.Sound) (performed : stack.perform operation = .ok (answer, after)) :
    Effect stack after answer operation := by
  cases operation with
  | reset program =>
      obtain ⟨done, reached⟩ := Prod.mk.inj (simulates sound performed)
      have reached : CodeStream.reset program = after.toStream := reached
      refine ⟨done.symm, ?_, ?_, (congrArg CodeStream.calls reached).symm⟩
      · show after.toStream.unread = program
        rw [← reached]
        simp [CodeStream.reset, CodeStream.unread]
      · rw [← after.depth_to_stream, ← reached]
        rfl
  | call program => exact call_effect sound performed
  | pop => exact pop_effect sound performed
  | discard => exact discard_effect sound performed

/-- A discard behind a byte stays inside the program that gave the byte, also when that was its
last one. -/
theorem discard_behind_byte {stack popped after : FrameStack} {byte : UInt8} {answer : Answer}
    (sound : stack.Sound) (read : stack.perform .pop = .ok (.byte byte, popped))
    (discarded : popped.perform .discard = .ok (answer, after)) :
    ∃ (exhausted : List Bytes) (frame : Bytes) (lower : List Bytes),
      stack.frames = exhausted ++ (byte :: frame) :: lower ∧
      (∀ dropped ∈ exhausted, dropped = []) ∧ popped.frames = frame :: lower ∧
      after.frames = frame.behindZero :: lower := by
  have popping := simulates sound read
  have discarding := simulates (sound_of_perform sound read) discarded
  have front : stack.toStream.next? = some (byte, popped.toStream) := by
    simp only [CodeStream.perform, CodeStream.pop] at popping
    cases taken : stack.toStream.next? with
    | none => simp [taken] at popping
    | some found =>
        rw [taken] at popping
        obtain ⟨same, reached⟩ := Prod.mk.inj popping
        rw [← reached, ← Answer.byte.inj same]
  obtain ⟨exhausted, frame, lower, before, empty, behind⟩ := frames_of_next front
  have rest : popped.frames = frame :: lower := congrArg CodeStream.frames behind
  have reached : popped.toStream.discardThroughZero = after.toStream := (Prod.mk.inj discarding).2
  rw [discard_of_frames rest] at reached
  exact ⟨exhausted, frame, lower, before, empty, rest, (congrArg CodeStream.frames reached).symm⟩

/-- From the empty stack on, any list of operations runs without an access out of range, within the
limits, and answers as one string of bytes would. -/
theorem frame_stack_refines_one_string (history : List Operation) :
    ∃ stack, empty.performAll history = .ok ((CodeStream.performAll {} history).1, stack) ∧
      stack.toStream = (CodeStream.performAll {} history).2 ∧
      (stack.height ≤ 17 ∧ stack.calls ≤ 1024 ∧
        ∀ index (inside : index < 17), stack.slots[index].position ≤ stack.slots[index].program.size) ∧
      (∀ operation, ∃ answer after, stack.perform operation = .ok (answer, after) ∧
        Effect stack after answer operation) ∧
      (∀ byte popped, stack.perform .pop = .ok (.byte byte, popped) →
        ∃ after exhausted, ∃ (frame : Bytes) (lower : List Bytes),
          popped.perform .discard = .ok (.done, after) ∧
          stack.frames = exhausted ++ (byte :: frame) :: lower ∧
          (∀ dropped ∈ exhausted, dropped = []) ∧ popped.frames = frame :: lower ∧
          after.frames = frame.behindZero :: lower) := by
  obtain ⟨stack, run, sound, same⟩ := perform_all_spec sound_empty history
  refine ⟨stack, run, same, ⟨sound.height, sound.calls, sound.cursors⟩, ?_, ?_⟩
  · intro operation
    obtain ⟨after, performed, -⟩ := perform_spec sound operation
    exact ⟨_, after, performed, perform_effect sound performed⟩
  · intro byte popped read
    obtain ⟨after, discarded, -⟩ := perform_spec (sound_of_perform sound read) .discard
    obtain ⟨exhausted, frame, lower, parts⟩ := discard_behind_byte sound read discarded
    exact ⟨after, exhausted, frame, lower, discarded, parts⟩

end FrameStack

end ShapeFont
