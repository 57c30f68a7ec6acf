import ShapeFont.Proofs.Glyph.Splicing

/-!
# Programs that are cut

A program that is cut draws the beginning of what the whole program draws. Both read the same
instructions up to the cut. There they part: an instruction that the cut goes through may be read in the
whole program, and the end of a shape may discard more of it.
-/

namespace ShapeFont

universe u

variable {α : Type u}

/-- The outcome of a run that was cut, beside that of the whole run. A fault that more bytes would not
have healed is met by the whole run as well. -/
structure Outcome.Begins (first whole : Outcome α) : Prop where
  strokes : first.strokes <+: whole.strokes
  settled : ∀ fault, first.fault = some fault → fault.kind ≠ .emptyStream → whole = first

namespace Outcome

variable {first whole : Outcome α}

theorem begins_self (outcome : Outcome α) : outcome.Begins outcome where
  strokes := List.prefix_refl outcome.strokes
  settled _ _ _ := rfl

theorem Begins.after (begins : first.Begins whole) (drawn : List (Stroke α)) :
    (first.after drawn).Begins (whole.after drawn) where
  strokes := (List.prefix_append_right_inj drawn).mpr begins.strokes
  settled fault stopped lasting := congrArg (Outcome.after drawn) (begins.settled fault stopped lasting)

theorem begins_of_no_fault (fine : first.fault = none) (strokes : first.strokes <+: whole.strokes) :
    first.Begins whole where
  strokes := strokes
  settled fault stopped _ := by
    rw [fine] at stopped
    cases stopped

theorem begins_of_cut {fault : GlyphFault} (stopped : first.fault = some fault)
    (cut : fault.kind = .emptyStream) (strokes : first.strokes <+: whole.strokes) :
    first.Begins whole where
  strokes := strokes
  settled other same lasting := by
    rw [stopped] at same
    rw [← Option.some.inj same] at lasting
    exact absurd cut lasting

end Outcome

theorem Stretch.call_followed_by (stretch : Stretch) (more : Bytes) (below : List Bytes) (calls : Nat)
    (program : Bytes) :
    (stretch.followedBy more below calls).call? program =
      if CodeStream.maxDepth < stretch.upper.length + 1 + below.length ∨ CodeStream.maxCalls ≤ calls
      then none
      else some ((stretch.enter program).followedBy more below (calls + 1)) := by
  rw [CodeStream.call?, depth_followed_by]
  rfl

namespace Instruction

open CodeStream

variable {kind : FontKind} {stream longer : CodeStream}

theorem legs_begin (bulged : Bool) (ahead more : Bytes) :
    legs bulged ahead <+: legs bulged (ahead ++ more) := by
  fun_induction legs bulged ahead with
  | case1 dx dy ahead stop => exact List.nil_prefix
  | case2 dx dy ahead unfinished ih =>
      rw [List.cons_append, List.cons_append, legs, if_neg unfinished]
      exact (List.prefix_cons_inj _).mpr ih
  | case3 dx dy height ahead stop => exact List.nil_prefix
  | case4 dx dy height ahead unfinished ih =>
      rw [List.cons_append, List.cons_append, List.cons_append, legs, if_neg unfinished]
      exact (List.prefix_cons_inj _).mpr ih
  | case5 => exact List.nil_prefix

def Lists (kind : FontKind) (stream : CodeStream) (legs : List Leg) : Prop :=
  (∃ fault, fetch kind stream = .faulty legs fault) ∨
    ∃ rest, fetch kind stream = .ready (.travel legs) rest

theorem lists_legs {bulged : Bool} {byte : UInt8} {ahead : Bytes}
    (opcode : byte.toNat = if bulged then 13 else 9) (front : stream.unread = byte :: ahead) :
    Lists kind stream (legs bulged ahead) := by
  unfold Lists
  rw [fetch_of_unread front, opcode]
  cases bulged with
  | false =>
      cases found : listWidth? false ahead with
      | none => simp [operandWidth?, found, cutLegs]
      | some width => simp [operandWidth?, found, factorFault?, decode, legs_take found]
  | true =>
      cases found : listWidth? true ahead with
      | none => simp [operandWidth?, found, cutLegs]
      | some width => simp [operandWidth?, found, factorFault?, decode, legs_take found]

theorem cut_legs_cases (opcode : Nat) (ahead : Bytes) :
    cutLegs opcode ahead = [] ∨
      ∃ bulged, opcode = (if bulged then 13 else 9) ∧ cutLegs opcode ahead = legs bulged ahead := by
  unfold cutLegs
  split
  · exact .inr ⟨false, rfl, rfl⟩
  · exact .inr ⟨true, rfl, rfl⟩
  · exact .inl rfl

/-- More bytes do not help against a factor of zero. An instruction whose operands ran out has at least
the same legs with them. -/
theorem fetch_of_longer {legs : List Leg} {fault : GlyphFault} {more : Bytes}
    (read : fetch kind stream = .faulty legs fault) (unread : longer.unread = stream.unread ++ more) :
    fault.kind ≠ .emptyStream ∧ fetch kind longer = .faulty legs fault ∨
      fault.kind = .emptyStream ∧
        (legs = [] ∨ ∃ whole, legs <+: whole ∧ Lists kind longer whole) := by
  cases front : stream.unread with
  | nil =>
      rw [fetch_eq_finished_iff.mpr front] at read
      cases read
  | cons byte ahead =>
      rw [front, List.cons_append] at unread
      rw [fetch_of_unread front] at read
      cases found : operandWidth? kind byte.toNat ahead with
      | none =>
          rw [found] at read
          rcases Fetch.faulty.inj read with ⟨rfl, rfl⟩
          refine .inr ⟨cut_fault_kind byte.toNat, ?_⟩
          rcases cut_legs_cases byte.toNat ahead with none | ⟨bulged, opcode, same⟩
          · exact .inl none
          · rw [same]
            exact .inr ⟨_, legs_begin bulged ahead more, lists_legs opcode unread⟩
      | some width =>
          rw [found] at read
          cases zero : factorFault? byte.toNat ahead with
          | none => simp [zero] at read
          | some found =>
              simp only [zero] at read
              rcases Fetch.faulty.inj read with ⟨rfl, rfl⟩
              rcases factor_fault_eq_some_iff.mp zero with ⟨first, which⟩
              have also : (ahead ++ more).head? = some 0 := by
                rw [List.head?_append, first, Option.some_or]
              have factor : byte.toNat = 3 ∨ byte.toNat = 4 := which.imp And.left And.left
              left
              constructor
              · rcases which with ⟨_, rfl⟩ | ⟨_, rfl⟩ <;> decide
              · rw [fetch_of_unread unread, operand_width_factor factor also]
                simp only [factor_fault_eq_some_iff.mpr ⟨also, which⟩]

end Instruction

namespace Glyph

open Instruction CodeStream

variable [Scalar α] {setting : Setting} {pen : Pen α} {stream : CodeStream}

theorem run_of_fault {legs : List Leg} {fault : GlyphFault}
    (read : fetch setting.font.kind stream = .faulty legs fault) :
    run setting pen stream =
      if pen.skipNext then ⟨[], pen, some fault⟩
      else ⟨(pen.drawLegs legs).1, (pen.drawLegs legs).2, some fault⟩ := by
  cases skip : pen.skipNext with
  | true =>
      apply run_of_faulty
      rw [step, read, skip]
      rfl
  | false =>
      apply run_of_faulty
      rw [step, read, skip]
      rfl

theorem draw_legs_begin (pen : Pen α) {legs whole : List Leg} (front : legs <+: whole) :
    (pen.drawLegs legs).1 <+: (pen.drawLegs whole).1 := by
  rcases front with ⟨more, rfl⟩
  have parts := congrArg Prod.fst (pen.draw_legs_append legs more)
  exact ⟨_, parts.symm⟩

theorem draw_legs_of_lists {legs : List Leg} (carry : pen.skipNext = false)
    (lists : Lists setting.font.kind stream legs) :
    (pen.drawLegs legs).1 <+: (run setting pen stream).strokes := by
  rcases lists with ⟨fault, read⟩ | ⟨rest, read⟩
  · have stopped : run setting pen stream =
        ⟨(pen.drawLegs legs).1, (pen.drawLegs legs).2, some fault⟩ := by
      rw [run_of_fault read, carry, if_neg Bool.false_ne_true]
    exact ⟨[], (List.append_nil _).trans (congrArg Outcome.strokes stopped).symm⟩
  · exact ⟨_, (congrArg Outcome.strokes (run_of_travel carry read)).symm⟩

/-- Where the operands run out, the run draws the beginning of what it draws with more bytes. -/
theorem run_begins_of_fault {longer : CodeStream} {legs : List Leg} {fault : GlyphFault}
    {more : Bytes} (read : fetch setting.font.kind stream = .faulty legs fault)
    (unread : longer.unread = stream.unread ++ more) :
    (run setting pen stream).Begins (run setting pen longer) := by
  rcases fetch_of_longer read unread with ⟨_, same⟩ | ⟨cut, someLegs⟩
  · rw [run_of_fault read, run_of_fault same]
    exact Outcome.begins_self _
  · rw [run_of_fault read]
    cases skip : pen.skipNext with
    | true =>
        rw [if_pos rfl]
        exact Outcome.begins_of_cut rfl cut List.nil_prefix
    | false =>
        rw [if_neg Bool.false_ne_true]
        apply Outcome.begins_of_cut rfl cut
        rcases someLegs with rfl | ⟨whole, front, lists⟩
        · exact List.nil_prefix
        · exact (draw_legs_begin pen front).trans (draw_legs_of_lists skip lists)

/-- The same pen, and streams that differ only in what is left of the outermost program. -/
def Alongside (more : Bytes) (pen : Pen α) (first : CodeStream) (after : Pen α)
    (second : CodeStream) : Prop :=
  pen = after ∧ ∃ (stretch : Stretch) (calls : Nat),
    first = stretch.followedBy [] [] calls ∧ second = stretch.followedBy more [] calls

/-- The depth of the streams is the same, so that they take the same calls. -/
theorem step_alongside {instruction : Instruction} {first second : CodeStream} {rest : Stretch}
    {more : Bytes} {calls : Nat}
    (readFirst : fetch setting.font.kind first = .ready instruction (rest.followedBy [] [] calls))
    (readSecond : fetch setting.font.kind second =
      .ready instruction (rest.followedBy more [] calls)) :
    (step setting pen first).Corresponds Eq Eq (Alongside more) (step setting pen second) := by
  apply step_corresponds_of_ready readFirst readSecond
  · intro after
    exact ⟨rfl, rest, calls, rfl, rfl⟩
  · intro code program _ _ _
    rw [Stretch.call_followed_by, Stretch.call_followed_by]
    by_cases limit : maxDepth < rest.upper.length + 1 + ([] : List Bytes).length ∨ maxCalls ≤ calls
    · rw [if_pos limit, if_pos limit]
      exact .inl ⟨rfl, rfl⟩
    · rw [if_neg limit, if_neg limit]
      exact .inr ⟨_, _, rfl, rfl, rfl, rest.enter program.wrapped, calls + 1, rfl, rfl⟩

theorem unread_behind_end {stretch rest : Stretch} {calls : Nat}
    (next : (stretch.followedBy [] [] calls).next? = some (0, rest.followedBy [] [] calls))
    (outermost : rest.upper = []) (noZero : 0 ∉ rest.front) :
    (behind 0 ((stretch.followedBy [] [] calls).advance 1)).unread = [] := by
  have discarded : rest.front.behindZero = [] := by
    have alone := Bytes.behind_zero_append rest.front []
    rwa [List.append_nil, if_neg noZero] at alone
  rw [advance_of_next next, advance_zero]
  show (rest.followedBy [] [] calls).discardThroughZero.unread = []
  rw [Stretch.discard_within (fun _ => .inr rfl), Stretch.unread_followed_by, Stretch.bytes,
    Stretch.discard, outermost]
  simp [discarded]

/-- An instruction that the cut program reads is read in the whole one as well. Behind it both have the
same stretch ahead, unless it ends a shape of which the cut program has nothing more. -/
theorem fetch_cut {kind : FontKind} {stretch : Stretch} {byte : UInt8} {operands ahead : Bytes}
    (spells : Spells kind byte operands) (front : stretch.bytes = byte :: (operands ++ ahead))
    (more : Bytes) (calls : Nat) :
    (∃ (instruction : Instruction) (rest : Stretch),
      fetch kind (stretch.followedBy [] [] calls) =
        .ready instruction (rest.followedBy [] [] calls) ∧
      fetch kind (stretch.followedBy more [] calls) =
        .ready instruction (rest.followedBy more [] calls)) ∨
    (∃ left right, left.unread = [] ∧
      fetch kind (stretch.followedBy [] [] calls) = .ready .endOfShape left ∧
      fetch kind (stretch.followedBy more [] calls) = .ready .endOfShape right) := by
  by_cases inside : byte = 0 → stretch.upper.flatten = [] → 0 ∈ stretch.front.tail ∨ more = []
  · rcases fetch_within spells front with ⟨rest, fetched⟩
    exact .inl ⟨_, rest, fetched [] [] calls fun _ _ => .inr rfl, fetched more [] calls inside⟩
  · right
    rcases Classical.not_imp.mp inside with ⟨rfl, called⟩
    rcases Classical.not_imp.mp called with ⟨empty, missed⟩
    rcases not_or.mp missed with ⟨noZero, _⟩
    obtain rfl := operands_of_end spells
    rcases Stretch.next_within front with ⟨rest, _, single, _, next⟩
    rcases single empty with ⟨whole, outermost⟩
    rw [whole, List.tail_cons] at noZero
    have bytes (other : Bytes) :
        (stretch.followedBy other [] calls).unread = 0 :: ([] ++ (ahead ++ other)) := by
      rw [Stretch.unread_followed_by, front, List.flatten_nil, List.append_nil, List.cons_append,
        List.append_assoc]
    exact ⟨_, _, unread_behind_end (next [] [] calls) outermost noZero,
      fetch_of_spells spells (bytes []), fetch_of_spells spells (bytes more)⟩

theorem step_of_end {rest : CodeStream}
    (read : fetch setting.font.kind stream = .ready .endOfShape rest) :
    step setting pen stream =
      .next (if pen.skipNext then [] else [.newPath]) { pen with skipNext := false } rest := by
  rw [step_of_ready read]
  cases skip : pen.skipNext with
  | true => rfl
  | false =>
      have same : { pen with skipNext := false } = pen := by rw [← skip]
      rw [same]
      rfl

/-- Bytes behind a program only add to what it draws, and take no fault away that is not for want of
them. -/
theorem run_begins (pen : Pen α) (stretch : Stretch) (more : Bytes) (calls : Nat) :
    (run setting pen (stretch.followedBy [] [] calls)).Begins
      (run setting pen (stretch.followedBy more [] calls)) := by
  generalize cut : stretch.followedBy [] [] calls = stream
  induction pen, stream using @run_induction α _ setting generalizing stretch calls with
  | state pen stream ih =>
      subst cut
      have unread : (stretch.followedBy more [] calls).unread =
          (stretch.followedBy [] [] calls).unread ++ more := by
        simp [Stretch.unread_followed_by]
      cases read : fetch setting.font.kind (stretch.followedBy [] [] calls) with
      | finished =>
          have ended : step setting pen (stretch.followedBy [] [] calls) = .finished := by
            rw [step, read]
          rw [run_of_finished ended]
          exact Outcome.begins_of_no_fault rfl List.nil_prefix
      | faulty legs fault => exact run_begins_of_fault read unread
      | ready instruction middle =>
          rcases spells_of_fetch read with ⟨byte, operands, ahead, spells, front, _, _⟩
          rw [Stretch.unread_followed_by, List.flatten_nil, List.append_nil,
            List.append_nil] at front
          rcases fetch_cut spells front more calls with ⟨_, rest, first, second⟩ |
            ⟨left, right, ended, first, second⟩
          · have alike := @step_alongside _ _ setting pen _ _ _ _ _ _ first second
            generalize taken : step setting pen (stretch.followedBy [] [] calls) = result at alike
            generalize reached : step setting pen (stretch.followedBy more [] calls) = other at alike
            cases alike with
            | finished =>
                rw [run_of_finished taken, run_of_finished reached]
                exact Outcome.begins_self _
            | faulty drawings ends =>
                rw [List.forall₂_eq_eq_eq] at drawings
                rw [run_of_faulty taken, run_of_faulty reached, drawings, ends]
                exact Outcome.begins_self _
            | next drawings onward =>
                rw [List.forall₂_eq_eq_eq] at drawings
                rcases onward with ⟨rfl, further, made, rfl, rfl⟩
                rw [run_of_next taken, run_of_next reached, drawings]
                exact (ih _ _ _ taken further made rfl).after _
          · rw [run_of_next (step_of_end first), run_of_next (step_of_end second)]
            apply Outcome.Begins.after
            have finished : step setting { pen with skipNext := false } left = .finished := by
              rw [step, fetch_eq_finished_iff.mpr ended]
            rw [run_of_finished finished]
            exact Outcome.begins_of_no_fault rfl List.nil_prefix

/-- A program that is cut draws the beginning of what the whole program draws. If a fault stops it that
is not for want of bytes, then the whole program stops there with the same fault, strokes and pen. -/
theorem cut_program_draws_beginning (setting : Setting) (pen : Pen α) (program more : Bytes) :
    (execute setting program pen).strokes <+: (execute setting (program ++ more) pen).strokes ∧
      ∀ fault, (execute setting program pen).fault = some fault → fault.kind ≠ .emptyStream →
        execute setting (program ++ more) pen = execute setting program pen := by
  have begins : (execute setting program pen).Begins (execute setting (program ++ more) pen) := by
    have cut := @run_begins α _ setting pen ⟨[], program.counted⟩
      (more.take (0x7FFFFFFF - program.length)) 0
    rw [Stretch.followed_by_of_program] at cut
    rw [execute, execute, start, start, Bytes.counted_append]
    exact cut
  exact ⟨begins.strokes, begins.settled⟩

end Glyph

end ShapeFont
