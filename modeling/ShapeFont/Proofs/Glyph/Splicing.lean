import ShapeFont.Proofs.Glyph.Limits
import ShapeFont.Proofs.Glyph.Lockstep
import ShapeFont.Proofs.Instruction.Spelling
import ShapeFont.Proofs.Stream.Stretch

/-!
# Calls return

A call puts a program in front of its caller and there is no instruction to return. The program runs
as it does alone, and where it ends, the caller goes on behind the number of the subshape with
whatever pen the program left. Only the limits on nesting and on calls, which count the caller's
share as well, can tell the difference.
-/

namespace ShapeFont

universe u

namespace Instruction

open CodeStream

variable {kind : FontKind} {stretch : Stretch} {byte : UInt8} {operands ahead : Bytes}

theorem operands_of_end (spells : Spells kind 0 operands) : operands = [] :=
  List.eq_nil_of_length_eq_zero (Option.some.inj spells.width).symm

/-- The stretch behind an instruction that ends in it. -/
def leave (opcode : Nat) (stretch : Stretch) : Stretch :=
  if opcode = 0 then stretch.discard else stretch

theorem behind_within {opcode : Nat} {more : Bytes}
    (inside : opcode = 0 → stretch.upper = [] → 0 ∈ stretch.front ∨ more = [])
    (below : List Bytes) (calls : Nat) :
    behind opcode (stretch.followedBy more below calls) =
      (leave opcode stretch).followedBy more below calls := by
  unfold behind leave
  by_cases ended : opcode = 0
  · rw [if_pos ended, if_pos ended, Stretch.discard_within (inside ended)]
  · rw [if_neg ended, if_neg ended]

/-- An instruction that lies in the stretch is read whatever follows. The end of a shape has to find
its zero in the stretch, unless its program has no more. -/
theorem fetch_within (spells : Spells kind byte operands)
    (front : stretch.bytes = byte :: (operands ++ ahead)) :
    ∃ rest : Stretch, ∀ more below calls,
      (byte = 0 → stretch.upper.flatten = [] → 0 ∈ stretch.front.tail ∨ more = []) →
      fetch kind (stretch.followedBy more below calls) =
        .ready (decode kind byte.toNat operands) (rest.followedBy more below calls) := by
  have read (more : Bytes) (below : List Bytes) (calls : Nat) :
      fetch kind (stretch.followedBy more below calls) = .ready (decode kind byte.toNat operands)
        (behind byte.toNat ((stretch.followedBy more below calls).advance (1 + operands.length))) := by
    have unread : (stretch.followedBy more below calls).unread =
        byte :: (operands ++ (ahead ++ (more ++ below.flatten))) := by
      rw [Stretch.unread_followed_by, front, List.cons_append, List.append_assoc]
    exact fetch_of_spells spells unread
  by_cases ended : byte = 0
  · -- There are no operands, so the frame of the opcode is on top when the discard comes.
    subst ended
    obtain rfl := operands_of_end spells
    obtain ⟨rest, -, single, called, next⟩ := Stretch.next_within front
    refine ⟨leave 0 rest, ?_⟩
    intro more below calls inside
    have stays : rest.upper = [] → 0 ∈ rest.front ∨ more = [] := by
      intro outermost
      have empty : stretch.upper.flatten = [] :=
        Classical.byContradiction fun someByte => called someByte outermost
      have zero := inside rfl empty
      rwa [(single empty).1] at zero
    rw [read, List.length_nil, advance_of_next (next more below calls)]
    exact congrArg _ (behind_within (fun _ => stays) below calls)
  · have fits : 1 + operands.length ≤ stretch.bytes.length := by
      rw [front, List.length_cons, List.length_append]
      omega
    obtain ⟨rest, -, reached⟩ := Stretch.advance_within fits
    refine ⟨leave byte.toNat rest, ?_⟩
    intro more below calls _
    have other : byte.toNat ≠ 0 := fun same => ended (UInt8.toNat_inj.mp same)
    rw [read, reached, behind_within fun same => absurd same other]

theorem front_of_fits {bytes tail operands ahead : Bytes} {byte : UInt8}
    (front : bytes ++ tail = byte :: (operands ++ ahead))
    (fits : 1 + operands.length ≤ bytes.length) : ∃ kept, bytes = byte :: (operands ++ kept) := by
  have whole : byte :: operands <+: bytes ++ tail := ⟨ahead, by rw [front, List.cons_append]⟩
  have shorter : (byte :: operands).length ≤ bytes.length := by
    rw [List.length_cons]
    omega
  obtain ⟨kept, rfl⟩ := List.prefix_of_prefix_length_le whole (List.prefix_append bytes tail) shorter
  exact ⟨kept, rfl⟩

/-- An instruction that ends in the caller leaves the same frames, whether or not there was a frame
between the program and its caller. -/
theorem fetch_past {caller : Bytes} (spells : Spells kind byte operands)
    (front : stretch.bytes ++ caller = byte :: (operands ++ ahead))
    (past : stretch.bytes.length < 1 + operands.length) :
    ∃ rest : Stretch, ∀ calls,
      fetch kind (stretch.followedBy [] [caller] calls) =
        .ready (decode kind byte.toNat operands) (rest.followedBy [] [] calls) ∧
      fetch kind (stretch.followedBy caller [] calls) =
        .ready (decode kind byte.toNat operands) (rest.followedBy [] [] calls) := by
  have enough : 1 + operands.length ≤ (stretch.bytes ++ caller).length := by
    rw [front, List.length_cons, List.length_append]
    omega
  obtain ⟨further, count⟩ := Nat.exists_eq_add_of_lt past
  have fits : further + 1 ≤ (Stretch.mk [] caller).bytes.length := by
    rw [List.length_append] at enough
    show further + 1 ≤ caller.length
    omega
  obtain ⟨rest, -, reached⟩ := Stretch.advance_within fits
  -- either way the caller alone is left, and the same bytes are read from it
  have alone (calls : Nat) :
      CodeStream.advance ⟨[caller], calls⟩ (further + 1) = rest.followedBy [] [] calls := by
    have same := reached [] [] calls
    rwa [Stretch.followedBy, List.append_nil] at same
  have dropped (calls : Nat) : CodeStream.advance ⟨[[], caller], calls⟩ (further + 1) =
      CodeStream.advance ⟨[caller], calls⟩ (further + 1) := by
    cases caller with
    | nil => simp [Stretch.bytes] at fits
    | cons first after => rfl
  have left (calls : Nat) : behind byte.toNat (rest.followedBy [] [] calls) =
      (leave byte.toNat rest).followedBy [] [] calls :=
    behind_within (fun _ _ => .inr rfl) [] calls
  have width : 1 + operands.length - stretch.bytes.length = further + 1 := by omega
  refine ⟨leave byte.toNat rest, ?_⟩
  intro calls
  constructor
  · have unread : (stretch.followedBy [] [caller] calls).unread = byte :: (operands ++ ahead) := by
      rw [Stretch.unread_followed_by, ← front]
      simp
    have through := @Stretch.advance_past stretch [] [caller] calls _ past (by simpa using enough)
    rw [fetch_of_spells spells unread, through, width, dropped, alone, left]
  · have unread : (stretch.followedBy caller [] calls).unread = byte :: (operands ++ ahead) := by
      rw [Stretch.unread_followed_by, ← front]
      simp
    have through := @Stretch.advance_past stretch caller [] calls _ past (by simpa using enough)
    rw [fetch_of_spells spells unread, through, width, alone, left]

end Instruction

namespace Glyph

open Instruction CodeStream

variable {α : Type u} [Scalar α]

section

variable {setting : Setting} {pen : Pen α} {stream first second : CodeStream}
  {states : Pen α → CodeStream → Pen α → CodeStream → Prop}

theorem step_of_ready {instruction : Instruction} {middle : CodeStream}
    (read : fetch setting.font.kind stream = .ready instruction middle) :
    step setting pen stream =
      if pen.skipNext then .next [] { pen with skipNext := false } middle
      else perform setting pen instruction middle := by
  rw [step, read]

theorem run_of_travel {legs : List Leg} {middle : CodeStream} (carry : pen.skipNext = false)
    (read : fetch setting.font.kind stream = .ready (.travel legs) middle) :
    run setting pen stream =
      (run setting (pen.drawLegs legs).2 middle).after (pen.drawLegs legs).1 := by
  apply run_of_next
  rw [step_of_ready read, carry, if_neg Bool.false_ne_true]
  rfl

theorem step_congr (same : first.next? = second.next?) :
    step setting pen first = step setting pen second := by
  unfold step fetch
  rw [same]

theorem run_of_same_step (steps : step setting pen first = step setting pen second) :
    run setting pen first = run setting pen second := by
  cases taken : step setting pen second with
  | finished => rw [run_of_finished taken, run_of_finished (steps.trans taken)]
  | faulty drawn after fault => rw [run_of_faulty taken, run_of_faulty (steps.trans taken)]
  | next drawn after rest => rw [run_of_next taken, run_of_next (steps.trans taken)]

theorem run_congr (same : first.next? = second.next?) :
    run setting pen first = run setting pen second :=
  run_of_same_step (step_congr same)

theorem step_corresponds_of_ready {instruction : Instruction} {left right : CodeStream}
    (readFirst : fetch setting.font.kind first = .ready instruction left)
    (readSecond : fetch setting.font.kind second = .ready instruction right)
    (onward : ∀ after, states after left after right)
    (calls : ∀ code program, instruction = .subshape code → pen.skipNext = false →
      setting.font.glyph? code = some program →
      left.call? program.wrapped = none ∧ right.call? program.wrapped = none ∨
      ∃ called other, left.call? program.wrapped = some called ∧
        right.call? program.wrapped = some other ∧ states pen called pen other) :
    (step setting pen first).Corresponds Eq Eq states (step setting pen second) := by
  have same (drawn : List (Stroke α)) : List.Forall₂ Eq drawn drawn := List.forall₂_refl drawn
  rw [step_of_ready readFirst, step_of_ready readSecond]
  cases skip : pen.skipNext with
  | true =>
      rw [if_pos rfl, if_pos rfl]
      exact .next (same []) (onward _)
  | false =>
      rw [if_neg Bool.false_ne_true, if_neg Bool.false_ne_true]
      rcases instruction.subshape_or_plain with ⟨code, rfl⟩ | plain
      · simp only [perform, enter]
        cases found : setting.font.glyph? code with
        | none => exact .faulty (same []) rfl
        | some program =>
            dsimp only
            rcases calls code program rfl skip found with ⟨refused, also⟩ |
              ⟨called, other, entered, also, related⟩
            · rw [refused, also]
              exact .faulty (same []) rfl
            · rw [entered, also]
              exact .next (same []) related
      · rw [perform_of_plain plain, perform_of_plain plain]
        cases pen.perform setting.vertical instruction with
        | error fault => exact .faulty (same []) rfl
        | ok result => exact .next (same result.1) (onward result.2)

/-- A run that meets no limit has its calls taken, so that the other one has to take them as well. -/
theorem step_corresponds {instruction : Instruction} {left right : CodeStream}
    (readFirst : fetch setting.font.kind first = .ready instruction left)
    (readSecond : fetch setting.font.kind second = .ready instruction right)
    (unlimited : (run setting pen first).fault ≠ some .nestingLimit)
    (onward : ∀ after, states after left after right)
    (entered : ∀ program called, left.call? program = some called →
      ∃ other, right.call? program = some other ∧ states pen called pen other) :
    (step setting pen first).Corresponds Eq Eq states (step setting pen second) := by
  apply step_corresponds_of_ready readFirst readSecond onward
  rintro code program rfl carry found
  right
  cases accepted : left.call? program.wrapped with
  | none =>
      have refused : step setting pen first = .faulty [] pen .nestingLimit := by
        rw [step_of_ready readFirst, carry]
        simp only [Bool.false_eq_true, if_false, perform, enter, found, accepted]
      rw [run_of_faulty refused] at unlimited
      exact absurd rfl unlimited
  | some called =>
      rcases entered _ called accepted with ⟨other, also, related⟩
      exact ⟨called, other, rfl, also, related⟩

/-- The same pen, and a stretch that both streams have in common; the first stream is at least as
close to the limits as the second. -/
def Beside (more : Bytes) (below : List Bytes) (other : Bytes) (lower : List Bytes)
    (pen : Pen α) (first : CodeStream) (after : Pen α) (second : CodeStream) : Prop :=
  pen = after ∧ ∃ (stretch : Stretch) (calls count : Nat), count ≤ calls ∧
    first = stretch.followedBy more below calls ∧ second = stretch.followedBy other lower count

theorem step_beside {instruction : Instruction} {rest : Stretch} {more other : Bytes}
    {below lower : List Bytes} {calls count : Nat}
    (readFirst : fetch setting.font.kind first =
      .ready instruction (rest.followedBy more below calls))
    (readSecond : fetch setting.font.kind second =
      .ready instruction (rest.followedBy other lower count))
    (shallower : lower.length ≤ below.length) (fewer : count ≤ calls)
    (unlimited : (run setting pen first).fault ≠ some .nestingLimit) :
    (step setting pen first).Corresponds Eq Eq (Beside more below other lower)
      (step setting pen second) := by
  apply step_corresponds readFirst readSecond unlimited
  · intro after
    exact ⟨rfl, rest, calls, count, fewer, rfl, rfl⟩
  · intro program called accepted
    obtain ⟨rfl, also⟩ := Stretch.call_within accepted shallower fewer
    exact ⟨_, also, rfl, rest.enter program, calls + 1, count + 1, Nat.succ_le_succ fewer, rfl, rfl⟩

theorem unlimited_of_next {drawn : List (Stroke α)} {after : Pen α} {rest : CodeStream}
    (taken : step setting pen stream = .next drawn after rest)
    (unlimited : (run setting pen stream).fault ≠ some .nestingLimit) :
    (run setting after rest).fault ≠ some .nestingLimit := by
  rwa [run_of_next taken, Outcome.fault_after] at unlimited

/-- A program on top of another one runs as it does alone, and where it ends, the other one goes
on. -/
theorem run_on_top {stretch : Stretch} {caller : Bytes} {calls count : Nat} (fewer : count ≤ calls)
    (unlimited : (run setting pen (stretch.followedBy [] [caller] calls)).fault ≠
      some .nestingLimit)
    (returns : (run setting pen (stretch.followedBy [] [] count)).fault = none) :
    ∃ made, run setting pen (stretch.followedBy [] [caller] calls) =
      (run setting (run setting pen (stretch.followedBy [] [] count)).pen ⟨[caller], made⟩).after
        (run setting pen (stretch.followedBy [] [] count)).strokes := by
  generalize alone : stretch.followedBy [] [] count = stream at returns ⊢
  induction pen, stream using run_induction generalizing stretch calls count with
  | state pen stream ih =>
      subst alone
      cases taken : step setting pen (stretch.followedBy [] [] count) with
      | finished =>
          have nothing := fetch_eq_finished_iff.mp (finished_of_step taken)
          rw [Stretch.unread_followed_by] at nothing
          have ended : stretch.bytes = [] := (List.append_eq_nil_iff.mp nothing).1
          refine ⟨calls, ?_⟩
          rw [run_of_finished taken]
          apply run_congr
          rw [Stretch.next_of_exhausted ended, next_of_empty]
      | faulty drawn after fault =>
          rw [run_of_faulty taken] at returns
          simp at returns
      | next drawn after rest =>
          obtain ⟨instruction, middle, read, -⟩ := proceeds_of_step taken
          obtain ⟨byte, operands, ahead, spells, front, -, -⟩ := spells_of_fetch read
          rw [Stretch.unread_followed_by, List.flatten_nil, List.append_nil,
            List.append_nil] at front
          obtain ⟨behind, fetched⟩ := fetch_within spells front
          have alike := step_beside (fetched [] [caller] calls fun _ _ => .inr rfl)
            (fetched [] [] count fun _ _ => .inr rfl) (Nat.zero_le 1) fewer unlimited
          rw [taken] at alike
          generalize reached :
            step setting pen (stretch.followedBy [] [caller] calls) = result at alike
          cases alike with
          | next drawings onward =>
              obtain ⟨rfl, further, made, left, fewer, rfl, rfl⟩ := onward
              rw [List.forall₂_eq_eq_eq] at drawings
              subst drawings
              rw [run_of_next taken, Outcome.fault_after] at returns
              obtain ⟨total, same⟩ :=
                ih _ _ _ taken fewer (unlimited_of_next reached unlimited) rfl returns
              refine ⟨total, ?_⟩
              rw [run_of_next reached, run_of_next taken, same, Outcome.after_after]
              rfl

/-- The next instruction is the end of a shape in the program right above `caller`, of which nothing
is read yet. -/
def EndsShapeAbove (caller : Bytes) (stream : CodeStream) : Prop :=
  ∃ rest, stream.LeftWith [0 :: rest, caller]

def NeverEndsShapeAbove (setting : Setting) (caller : Bytes) (pen : Pen α) (stream : CodeStream) :
    Prop :=
  ∀ later rest, Reaches setting pen stream later rest → ¬EndsShapeAbove caller rest

/-- A program in front of its caller, and the same bytes with no frame between them. Behind the
program the frames are the same. -/
def Spliced (setting : Setting) (caller : Bytes) (pen : Pen α) (first : CodeStream) (after : Pen α)
    (second : CodeStream) : Prop :=
  (run setting pen first).fault ≠ some .nestingLimit ∧
    (Beside [] [] [] [] pen first after second ∨
      Beside [] [caller] caller [] pen first after second ∧
        NeverEndsShapeAbove setting caller pen first)

theorem step_corresponds_of_unread (same : second.unread = first.unread)
    (ready : ∀ byte operands ahead, Spells setting.font.kind byte operands →
      first.unread = byte :: (operands ++ ahead) →
      (step setting pen first).Corresponds Eq Eq states (step setting pen second)) :
    (step setting pen first).Corresponds Eq Eq states (step setting pen second) := by
  cases read : fetch setting.font.kind first with
  | finished =>
      have nothing := fetch_eq_finished_iff.mp read
      have also : fetch setting.font.kind second = .finished :=
        fetch_eq_finished_iff.mpr (same.trans nothing)
      rw [step, step, read, also]
      exact .finished
  | faulty legs fault =>
      rw [step, step, read, fetch_faulty_of_unread read same]
      cases pen.skipNext with
      | true => exact .faulty (List.forall₂_refl _) rfl
      | false => exact .faulty (List.forall₂_refl _) rfl
  | ready instruction middle =>
      obtain ⟨byte, operands, ahead, spells, front, -, -⟩ := spells_of_fetch read
      exact ready byte operands ahead spells front

theorem step_spliced {caller : Bytes} {after : Pen α}
    (spliced : Spliced setting caller pen first after second) :
    (step setting pen first).Corresponds Eq Eq (Spliced setting caller)
      (step setting after second) := by
  obtain ⟨unlimited, beside | ⟨beside, quiet⟩⟩ := spliced
  · obtain ⟨rfl, stretch, calls, count, fewer, rfl, rfl⟩ := beside
    apply step_corresponds_of_unread
    · rw [Stretch.unread_followed_by, Stretch.unread_followed_by]
    intro byte operands ahead spells front
    rw [Stretch.unread_followed_by, List.flatten_nil, List.append_nil, List.append_nil] at front
    obtain ⟨rest, fetched⟩ := fetch_within spells front
    have alike := step_beside (fetched [] [] calls fun _ _ => .inr rfl)
      (fetched [] [] count fun _ _ => .inr rfl) (Nat.le_refl 0) fewer unlimited
    apply alike.imp
    intro drawn after stream other rest taken beside
    exact ⟨unlimited_of_next taken unlimited, .inl beside⟩
  · obtain ⟨rfl, stretch, calls, count, fewer, rfl, rfl⟩ := beside
    apply step_corresponds_of_unread
    · rw [Stretch.unread_followed_by, Stretch.unread_followed_by]
      simp
    intro byte operands ahead spells front
    rw [Stretch.unread_followed_by, List.nil_append, List.flatten_singleton] at front
    by_cases fits : 1 + operands.length ≤ stretch.bytes.length
    · obtain ⟨kept, lies⟩ := front_of_fits front fits
      obtain ⟨rest, fetched⟩ := fetch_within spells lies
      have elsewhere : byte = 0 → stretch.upper.flatten = [] →
          0 ∈ stretch.front.tail ∨ caller = [] := by
        rintro rfl empty
        have whole : stretch.front = 0 :: (operands ++ kept) := by
          rwa [Stretch.bytes, empty] at lies
        refine absurd ⟨operands ++ kept, stretch.upper, ?_, empty⟩ (quiet _ _ .start)
        rw [Stretch.followedBy, List.append_nil, whole]
      have alike := step_beside (fetched [] [caller] calls fun _ _ => .inr rfl)
        (fetched caller [] count elsewhere) (Nat.zero_le 1) fewer unlimited
      apply alike.imp
      intro drawn after stream other rest taken beside
      refine ⟨unlimited_of_next taken unlimited, .inr ⟨beside, ?_⟩⟩
      intro later behind reach
      exact quiet later behind (.next taken reach)
    · obtain ⟨rest, fetched⟩ := fetch_past spells front (Nat.lt_of_not_le fits)
      have alike := step_beside (fetched calls).1 (fetched count).2 (Nat.le_refl 0) fewer unlimited
      apply alike.imp
      intro drawn after stream other rest taken beside
      exact ⟨unlimited_of_next taken unlimited, .inl beside⟩

theorem run_spliced {caller : Bytes} {after : Pen α}
    (spliced : Spliced setting caller pen first after second) :
    run setting after second = run setting pen first := by
  have ends : ∀ (pen : Pen α) stream other rest,
      Spliced setting caller pen stream other rest → pen = other := by
    rintro pen stream other rest ⟨-, ⟨same, -⟩ | ⟨⟨same, -⟩, -⟩⟩
    · exact same
    · exact same
  have alike := run_corresponds ends (fun _ _ _ _ => step_spliced) spliced
  exact (Outcome.eq_of_corresponds alike).symm

theorem run_of_fewer_calls {program : Bytes} {calls count : Nat} (fewer : count ≤ calls)
    (unlimited : (run setting pen ⟨[program], calls⟩).fault ≠ some .nestingLimit) :
    run setting pen ⟨[program], count⟩ = run setting pen ⟨[program], calls⟩ := by
  have spliced : Spliced setting [] pen ⟨[program], calls⟩ pen ⟨[program], count⟩ := by
    refine ⟨unlimited, .inl ⟨rfl, ⟨[], program⟩, calls, count, fewer, ?_, ?_⟩⟩
    · exact (Stretch.followed_by_of_program program [] calls).symm
    · exact (Stretch.followed_by_of_program program [] count).symm
  exact run_spliced spliced

/-- A call leads to the program in front of the bytes behind the call. -/
theorem step_of_call {code calls : Nat} {key program caller : Bytes}
    (carry : pen.skipNext = false) (writes : WritesKey setting.font.kind code key)
    (found : setting.font.glyph? code = some program)
    (front : stream.next? = CodeStream.next? ⟨[7 :: (key ++ caller)], calls⟩)
    (unlimited : (run setting pen stream).fault ≠ some .nestingLimit) :
    step setting pen stream = .next [] pen ⟨[program.wrapped, caller], calls + 1⟩ := by
  obtain ⟨spells, decoded⟩ := spells_subshape writes
  have read : fetch setting.font.kind ⟨[7 :: (key ++ caller)], calls⟩ =
      .ready (.subshape code) ⟨[caller], calls⟩ := by
    have unread : CodeStream.unread ⟨[7 :: (key ++ caller)], calls⟩ = 7 :: (key ++ caller) :=
      List.append_nil _
    have reached := advance_front (7 :: key) caller [] calls
    rw [List.length_cons, List.cons_append] at reached
    rw [fetch_of_spells spells unread, Nat.add_comm 1, reached, ← decoded]
    rfl
  have entered : step setting pen stream = enter setting pen code ⟨[caller], calls⟩ := by
    rw [step_congr front, step_of_ready read, carry]
    rfl
  cases accepted : CodeStream.call? ⟨[caller], calls⟩ program.wrapped with
  | none =>
      have refused : enter setting pen code ⟨[caller], calls⟩ = .faulty [] pen .nestingLimit := by
        simp only [enter, found, accepted]
      rw [run_of_faulty (entered.trans refused)] at unlimited
      exact absurd rfl unlimited
  | some called =>
      rw [entered]
      simp only [enter, found, accepted]
      unfold call? at accepted
      split at accepted
      · simp at accepted
      · obtain rfl := Option.some.inj accepted
        rfl

/-- A program that calls another one draws what the other draws alone, and goes on behind the number
of the subshape with the pen that the other leaves. Both programs are small enough to be read to their
ends. -/
theorem execute_call (setting : Setting) (pen : Pen α) (code : Nat) (key program caller : Bytes)
    (callerFits : (7 :: (key ++ caller)).length < 0x80000000)
    (programFits : program.length < 0x80000000)
    (carry : pen.skipNext = false) (writes : WritesKey setting.font.kind code key)
    (found : setting.font.glyph? code = some program)
    (returns : (execute setting program pen).fault = none)
    (unlimited : (execute setting (7 :: (key ++ caller)) pen).fault ≠ some .nestingLimit) :
    execute setting (7 :: (key ++ caller)) pen =
      (execute setting caller (execute setting program pen).pen).after
        (execute setting program pen).strokes := by
  have restFits : caller.length < 0x80000000 := by
    rw [List.length_cons, List.length_append] at callerFits
    omega
  unfold execute start reset at returns unlimited ⊢
  rw [Bytes.counted_of_small callerFits] at unlimited
  rw [Bytes.counted_of_small programFits] at returns
  rw [Bytes.counted_of_small callerFits, Bytes.counted_of_small programFits,
    Bytes.counted_of_small restFits]
  have called := step_of_call carry writes found rfl unlimited
  rw [Bytes.wrapped_of_small programFits] at called
  rw [run_of_next called, Outcome.after_nil] at unlimited ⊢
  have alone := Stretch.followed_by_of_program program [] 0
  have above := Stretch.followed_by_of_program program [caller] 1
  rw [← alone] at returns ⊢
  rw [← above] at unlimited ⊢
  obtain ⟨made, same⟩ := run_on_top (Nat.zero_le 1) unlimited returns
  rw [same, Outcome.fault_after] at unlimited
  rw [same, run_of_fewer_calls (Nat.zero_le made) unlimited]

/-- The program ends a shape before its last byte and leaves the order to skip the next instruction,
which skips the caller's first vector. -/
theorem caller_goes_on_behind_call :
    let program : Bytes := [0, 5, 0, 14]
    let setting : Setting :=
      { font := { Font.empty.insertGlyph 1 program with modes := 2 } }
    let pen : Pen Float := Pen.ready Point.origin 1
    let caller : Bytes := [0x10, 0x24]
    (7 :: ([1] ++ caller)).length < 0x80000000 ∧ program.length < 0x80000000 ∧
      pen.skipNext = false ∧ WritesKey setting.font.kind 1 [1] ∧
      setting.font.glyph? 1 = some program ∧ (execute setting program pen).fault = none ∧
      (execute setting (7 :: ([1] ++ caller)) pen).fault ≠ some .nestingLimit ∧
      execute setting (7 :: ([1] ++ caller)) pen =
        (execute setting caller { pen with skipNext := true }).after [.newPath] := by
  intro program setting pen caller
  have callerFits : (7 :: ([1] ++ caller)).length < 0x80000000 := by decide
  have programFits : program.length < 0x80000000 := by decide
  have returns : execute setting program pen = ⟨[.newPath], { pen with skipNext := true }, none⟩ := by
    rw [execute, run_of_next rfl, run_of_next rfl, run_of_finished rfl]
    rfl
  have drawn : (execute setting (7 :: ([1] ++ caller)) pen).fault = none := by
    rw [execute, run_of_next rfl, run_of_next rfl, run_of_next rfl, run_of_next rfl,
      run_of_next rfl, run_of_finished rfl]
    rfl
  have unlimited : (execute setting (7 :: ([1] ++ caller)) pen).fault ≠ some .nestingLimit := by
    rw [drawn]
    simp
  have quiet : (execute setting program pen).fault = none := by rw [returns]
  refine ⟨callerFits, programFits, rfl, .shapes 1, rfl, quiet, unlimited, ?_⟩
  have law := execute_call setting pen 1 [1] program caller callerFits programFits rfl (.shapes 1)
    rfl quiet unlimited
  rwa [returns] at law

def unitVectors (count : Nat) : Bytes := List.replicate count 16

theorem step_unit_vector (setting : Setting) (carry : pen.skipNext = false) (count calls : Nat) :
    ∃ stroke after, after.skipNext = false ∧
      step setting pen ⟨[unitVectors (count + 1)], calls⟩ =
        .next [stroke] after ⟨[unitVectors count], calls⟩ := by
  have read : fetch setting.font.kind ⟨[unitVectors (count + 1)], calls⟩ =
      .ready (.vector 1 0) ⟨[unitVectors count], calls⟩ := rfl
  refine ⟨(pen.drawVector 1 0).1, (pen.drawVector 1 0).2, carry, ?_⟩
  rw [step_of_ready read, carry]
  rfl

theorem run_unit_vectors (setting : Setting) (carry : pen.skipNext = false) (count calls : Nat) :
    (run setting pen ⟨[unitVectors count], calls⟩).fault = none ∧
      (run setting pen ⟨[unitVectors count], calls⟩).strokes.length = count := by
  induction count generalizing pen with
  | zero =>
      rw [run_of_finished rfl]
      exact ⟨rfl, rfl⟩
  | succ count ih =>
      obtain ⟨stroke, after, still, taken⟩ := step_unit_vector setting carry count calls
      obtain ⟨quiet, drawn⟩ := ih still
      rw [run_of_next taken]
      exact ⟨quiet, congrArg (· + 1) drawn⟩

theorem execute_unit_vectors (setting : Setting) (carry : pen.skipNext = false) (count : Nat) :
    (execute setting (unitVectors count) pen).fault = none ∧
      (execute setting (unitVectors count) pen).strokes.length = min 0x7FFFFFFF count := by
  unfold execute start Bytes.counted unitVectors
  rw [List.take_replicate]
  exact run_unit_vectors setting carry _ 0

theorem start_of_call_of_one (count : Nat) :
    start (7 :: ([1] ++ unitVectors count)) =
      ⟨[7 :: ([1] ++ unitVectors (min 0x7FFFFFFD count))], 0⟩ := by
  unfold unitVectors
  rw [← List.take_replicate]
  rfl

theorem step_call_of_empty (carry : pen.skipNext = false) (shapes : setting.font.kind = .shapes)
    (found : setting.font.glyph? 1 = some []) (caller : Bytes) :
    step setting pen ⟨[7 :: ([1] ++ caller)], 0⟩ = .next [] pen ⟨[[], caller], 1⟩ := by
  have read : fetch setting.font.kind ⟨[7 :: ([1] ++ caller)], 0⟩ =
      .ready (.subshape 1) ⟨[caller], 0⟩ := by
    rw [shapes]
    rfl
  rw [step_of_ready read, carry]
  simp only [Bool.false_eq_true, if_false, perform, enter, found]
  rfl

theorem execute_call_of_empty (carry : pen.skipNext = false) (shapes : setting.font.kind = .shapes)
    (found : setting.font.glyph? 1 = some []) (count : Nat) :
    (execute setting (7 :: ([1] ++ unitVectors count)) pen).fault = none ∧
      (execute setting (7 :: ([1] ++ unitVectors count)) pen).strokes.length =
        min 0x7FFFFFFD count := by
  have called := step_call_of_empty carry shapes found (unitVectors (min 0x7FFFFFFD count))
  have dropped (caller : Bytes) :
      CodeStream.next? ⟨[[], caller], 1⟩ = CodeStream.next? ⟨[caller], 1⟩ := rfl
  rw [execute, start_of_call_of_one, run_of_next called, Outcome.after_nil, run_congr (dropped _)]
  exact run_unit_vectors setting carry _ 1

/-- Without the bounds there are two ways to lose vectors. The call takes room from the bytes that
can be counted, so that the last two of `long` are cut off behind it; and a program with more bytes
is run by itself up to there, but its size is below zero as a word, so that a call runs none of it. -/
theorem long_programs_are_cut_at_call :
    let long : Bytes := unitVectors 0x7FFFFFFF
    let longer : Bytes := unitVectors 0x80000000
    let setting : Setting := { font := (Font.empty.insertGlyph 1 []).insertGlyph 2 longer }
    let pen : Pen Float := Pen.ready Point.origin 1
    pen.skipNext = false ∧
      (WritesKey setting.font.kind 1 [1] ∧ setting.font.glyph? 1 = some [] ∧
        (execute setting [] pen).fault = none ∧
        (execute setting (7 :: ([1] ++ long)) pen).fault ≠ some .nestingLimit ∧
        execute setting (7 :: ([1] ++ long)) pen ≠
          (execute setting long (execute setting [] pen).pen).after
            (execute setting [] pen).strokes) ∧
      (WritesKey setting.font.kind 2 [2] ∧ setting.font.glyph? 2 = some longer ∧
        (execute setting longer pen).fault = none ∧
        (execute setting (7 :: ([2] ++ [])) pen).fault ≠ some .nestingLimit ∧
        execute setting (7 :: ([2] ++ [])) pen ≠
          (execute setting [] (execute setting longer pen).pen).after
            (execute setting longer pen).strokes) := by
  intro long longer setting pen
  have nothing : execute setting [] pen = ⟨[], pen, none⟩ := run_of_finished rfl
  have behind := @execute_call_of_empty Float _ setting pen rfl rfl rfl 0x7FFFFFFF
  have alone := @execute_unit_vectors Float _ pen setting rfl
  have refused : execute setting (7 :: ([2] ++ [])) pen = ⟨[], pen, none⟩ := by
    have below : longer.wrapped = [] := by
      unfold Bytes.wrapped longer unitVectors
      rw [List.length_replicate]
      rfl
    have called : step setting pen ⟨[7 :: ([2] ++ [])], 0⟩ = .next [] pen ⟨[longer.wrapped, []], 1⟩ :=
      rfl
    have fits : (7 :: ([2] ++ []) : Bytes).length < 0x80000000 := by decide
    unfold execute start
    rw [Bytes.counted_of_small fits, reset, run_of_next called, Outcome.after_nil, below]
    exact run_of_finished rfl
  refine ⟨rfl, ⟨.shapes 1, rfl, ?_, ?_, ?_⟩, ⟨.shapes 2, rfl, ?_, ?_, ?_⟩⟩
  · rw [nothing]
  · rw [behind.1]
    simp
  · intro same
    have lengths := congrArg (List.length ∘ Outcome.strokes) same
    rw [nothing, Outcome.after_nil] at lengths
    have short := behind.2.symm.trans (lengths.trans (alone 0x7FFFFFFF).2)
    exact absurd short (by decide)
  · exact (alone 0x80000000).1
  · rw [refused]
    simp
  · intro same
    have lengths := congrArg (List.length ∘ Outcome.strokes) same
    rw [refused] at lengths
    have drawn := (alone 0x80000000).2
    have undrawn : (execute setting longer pen).strokes = [] :=
      (List.append_eq_nil_iff.mp (List.eq_nil_of_length_eq_zero lengths.symm)).1
    rw [undrawn] at drawn
    exact absurd drawn (by decide)

end

end Glyph

end ShapeFont
