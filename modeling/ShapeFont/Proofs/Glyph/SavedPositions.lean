import ShapeFont.Proofs.Glyph.Continuity
import ShapeFont.Proofs.Instruction.Encoding

/-!
# Saved positions

Saving a position opens a bracket and restoring one closes it, in whatever programs the two
instructions lie. What a pen holds saved is what the brackets so far have left open. So a position is
restored to where the pen was when the matching bracket opened, and only a bracket too many, to open or
to close, is a fault.
-/

namespace ShapeFont

universe u

variable {α : Type u}

/-- The saving of a position, or the restoring of one. -/
inductive Bracket (α : Type u) where
  | opening (saved : Point α)
  | closing
  deriving Repr, DecidableEq

namespace Bracket

/-- Every bracket that is opened is closed, and every one that is closed was opened before. -/
inductive Matched : List (Bracket α) → Prop where
  | nil : Matched []
  | pair {earlier inner : List (Bracket α)} (saved : Point α) (before : Matched earlier)
      (within : Matched inner) : Matched (earlier ++ opening saved :: (inner ++ [closing]))

/-- A closing bracket behind `history` belongs to one that was opened with `saved`. -/
def Closes (history : List (Bracket α)) (saved : Point α) : Prop :=
  ∃ earlier between, history = earlier ++ opening saved :: between ∧ Matched between

def isOpening : Bracket α → Bool
  | opening _ => true
  | closing => false

def openings (history : List (Bracket α)) : Nat := history.countP isOpening

def closings (history : List (Bracket α)) : Nat := history.countP fun bracket => !bracket.isOpening

@[simp] theorem openings_opening (saved : Point α) (history : List (Bracket α)) :
    openings (opening saved :: history) = openings history + 1 := List.countP_cons_of_pos rfl

@[simp] theorem openings_closing (history : List (Bracket α)) :
    openings (closing :: history) = openings history := List.countP_cons_of_neg Bool.false_ne_true

@[simp] theorem closings_opening (saved : Point α) (history : List (Bracket α)) :
    closings (opening saved :: history) = closings history :=
  List.countP_cons_of_neg Bool.false_ne_true

@[simp] theorem closings_closing (history : List (Bracket α)) :
    closings (closing :: history) = closings history + 1 := List.countP_cons_of_pos rfl

/-- Positions that were saved one after the other, the latest first in the list. -/
def entries (saved : List (Point α)) : List (Bracket α) := saved.reverse.map opening

def act (stack : List (Point α)) : Bracket α → List (Point α)
  | opening saved => saved :: stack
  | closing => stack.tail

/-- The positions that are left open behind some brackets, the latest first. -/
def openBehind (stack : List (Point α)) (history : List (Bracket α)) : List (Point α) :=
  history.foldl act stack

theorem open_behind_append (stack : List (Point α)) (earlier later : List (Bracket α)) :
    openBehind stack (earlier ++ later) = openBehind (openBehind stack earlier) later :=
  List.foldl_append

theorem open_behind_matched {between : List (Bracket α)} (matched : Matched between)
    (stack : List (Point α)) : openBehind stack between = stack := by
  induction matched generalizing stack with
  | nil => rfl
  | @pair earlier inner saved _ _ first second =>
      have opened : openBehind stack (opening saved :: (inner ++ [closing])) =
          openBehind (saved :: stack) (inner ++ [closing]) := rfl
      rw [open_behind_append, first, opened, open_behind_append, second]
      rfl

theorem open_behind_entries (saved : List (Point α)) : openBehind [] (entries saved) = saved := by
  induction saved with
  | nil => rfl
  | cons point saved ih =>
      rw [entries, List.reverse_cons, List.map_append, open_behind_append, ← entries, ih]
      rfl

/-- The latest position left open is that of an opening bracket with matching brackets behind it. -/
theorem exists_opening {history : List (Bracket α)} {saved : Point α} {stack : List (Point α)}
    (top : openBehind [] history = saved :: stack) :
    ∃ earlier between, history = earlier ++ opening saved :: between ∧ Matched between ∧
      openBehind [] earlier = stack := by
  -- A closing bracket at the end takes a matched part away, so the induction is on the length.
  induction length : history.length using Nat.strongRecOn generalizing history saved stack with
  | _ size ih =>
      rcases List.eq_nil_or_concat' history with rfl | ⟨front, last, rfl⟩
      · simp [openBehind] at top
      · have shorter : front.length < size := by
          rw [← length, List.length_append, List.length_singleton]
          exact Nat.lt_succ_self _
        rw [open_behind_append] at top
        cases last with
        | opening point =>
            obtain ⟨same, below⟩ := List.cons.inj top
            exact ⟨front, [], by rw [same], .nil, below⟩
        | closing =>
            have below : (openBehind [] front).tail = saved :: stack := top
            cases upper : openBehind [] front with
            | nil => simp [upper] at below
            | cons point points =>
                obtain rfl : points = saved :: stack := by rwa [upper] at below
                obtain ⟨middle, inner, rfl, within, left⟩ := ih _ shorter upper rfl
                have before : middle.length < size := by
                  rw [List.length_append] at shorter
                  omega
                obtain ⟨earlier, between, rfl, matched, rest⟩ := ih _ before left rfl
                refine ⟨earlier, between ++ opening point :: (inner ++ [closing]), ?_,
                  .pair point matched within, rest⟩
                simp

theorem closes_iff {history : List (Bracket α)} {saved : Point α} {stack : List (Point α)}
    (top : openBehind [] history = saved :: stack) (point : Point α) :
    Closes history point ↔ point = saved := by
  constructor
  · rintro ⟨earlier, between, rfl, matched⟩
    have opened : openBehind (openBehind [] earlier) (opening point :: between) =
        openBehind (point :: openBehind [] earlier) between := rfl
    rw [open_behind_append, opened, open_behind_matched matched] at top
    exact (List.cons.inj top).1
  · rintro rfl
    obtain ⟨earlier, between, parts, matched, _⟩ := exists_opening top
    exact ⟨earlier, between, parts, matched⟩

/-- How the saved positions change in a step, by the bracket that it opens or closes, if any. -/
inductive Changes : Option (Bracket α) → List (Point α) → List (Point α) → Prop where
  | none (stack : List (Point α)) : Changes none stack stack
  | opening (saved : Point α) (stack : List (Point α)) (room : stack.length < Pen.savedLimit) :
      Changes (some (opening saved)) stack (saved :: stack)
  | closing (saved : Point α) (stack : List (Point α)) : Changes (some closing) (saved :: stack) stack

structure Accounts (first : List (Point α)) (history : List (Bracket α)) (last : List (Point α)) :
    Prop where
  left : last = openBehind first history
  count : last.length + closings history = first.length + openings history
  within : first.length ≤ Pen.savedLimit → last.length ≤ Pen.savedLimit

theorem accounts_nil (stack : List (Point α)) : Accounts stack [] stack := ⟨rfl, rfl, id⟩

theorem Changes.accounts {bracket? : Option (Bracket α)} {first middle last : List (Point α)}
    {history : List (Bracket α)} (change : Changes bracket? first middle)
    (later : Accounts middle history last) : Accounts first (bracket?.toList ++ history) last := by
  have count := later.count
  cases change with
  | none => exact later
  | opening saved stack room =>
      rw [List.length_cons] at count
      refine ⟨later.left, ?_, fun _ => later.within room⟩
      simp only [Option.toList_some, List.singleton_append, openings_opening, closings_opening]
      omega
  | closing saved stack =>
      refine ⟨later.left, ?_, fun within => later.within (Nat.le_of_succ_le within)⟩
      simp only [Option.toList_some, List.singleton_append, openings_closing, closings_closing,
        List.length_cons]
      omega

end Bracket

namespace Pen

def bracket? (pen : Pen α) : Instruction → Option (Bracket α)
  | .savePosition => some (.opening pen.position)
  | .restorePosition => some .closing
  | _ => none

variable {pen after : Pen α}

theorem save_of_room (room : pen.saved.length < savedLimit) :
    pen.save = .ok ([], { pen with saved := pen.position :: pen.saved }) := if_pos room

theorem save_of_full (full : savedLimit ≤ pen.saved.length) : pen.save = .error .stackOverflow :=
  if_neg (Nat.not_lt.mpr full)

theorem restore_of_none (empty : pen.saved = []) : pen.restore = .error .stackUnderflow := by
  rw [restore, empty]

theorem restore_of_saved {point : Point α} {saved : List (Point α)}
    (top : pen.saved = point :: saved) :
    pen.restore = .ok ([.move point], { pen.moveTo point with saved }) := by
  rw [restore, top]

variable [Scalar α]

theorem saved_draw_leg (pen : Pen α) (leg : Leg) : (pen.drawLeg leg).2.saved = pen.saved := by
  cases leg with
  | straight dx dy => rfl
  | bulge dx dy height => rfl

theorem saved_draw_legs (pen : Pen α) (legs : List Leg) : (pen.drawLegs legs).2.saved = pen.saved := by
  induction legs generalizing pen with
  | nil => rfl
  | cons leg legs ih => rw [draw_legs_cons, ih, saved_draw_leg]

theorem saved_draw_arc (pen : Pen α) (spec : ArcSpec) : (pen.drawArc spec).2.saved = pen.saved := by
  obtain ⟨first, last, sweeps⟩ := draw_arc_sweeps (α := α) spec
  rw [sweeps]
  rfl

theorem changes_perform {vertical : Bool} {instruction : Instruction} {drawn : List (Stroke α)}
    (done : pen.perform vertical instruction = .ok (drawn, after)) :
    Bracket.Changes (pen.bracket? instruction) pen.saved after.saved := by
  have kept {result : List (Stroke α) × Pen α} (same : result = (drawn, after))
      (saved : result.2.saved = pen.saved) : Bracket.Changes none pen.saved after.saved := by
    rw [← saved, same]
    exact .none after.saved
  cases instruction with
  | savePosition =>
      have saves : pen.save = .ok (drawn, after) := done
      by_cases room : pen.saved.length < savedLimit
      · rw [save_of_room room] at saves
        have result := (Prod.mk.inj (Except.ok.inj saves)).2
        rw [← result]
        exact .opening pen.position pen.saved room
      · rw [save_of_full (Nat.not_lt.mp room)] at saves
        cases saves
  | restorePosition =>
      have restores : pen.restore = .ok (drawn, after) := done
      cases top : pen.saved with
      | nil =>
          rw [restore_of_none top] at restores
          cases restores
      | cons point saved =>
          rw [restore_of_saved top] at restores
          have result := (Prod.mk.inj (Except.ok.inj restores)).2
          rw [← result]
          exact .closing point saved
  | travel legs => exact kept (Except.ok.inj done) (saved_draw_legs pen legs)
  | arc spec => exact kept (Except.ok.inj done) (saved_draw_arc pen spec)
  | _ => exact kept (Except.ok.inj done) rfl

theorem fault_of_perform {vertical : Bool} {instruction : Instruction} {fault : GlyphFault}
    (failed : pen.perform vertical instruction = .error fault) :
    instruction = .savePosition ∧ savedLimit ≤ pen.saved.length ∧ fault = .stackOverflow ∨
      instruction = .restorePosition ∧ pen.saved = [] ∧ fault = .stackUnderflow := by
  cases instruction with
  | savePosition =>
      have saves : pen.save = .error fault := failed
      by_cases room : pen.saved.length < savedLimit
      · rw [save_of_room room] at saves
        cases saves
      · rw [save_of_full (Nat.not_lt.mp room)] at saves
        exact .inl ⟨rfl, Nat.not_lt.mp room, (Except.error.inj saves).symm⟩
  | restorePosition =>
      have restores : pen.restore = .error fault := failed
      cases top : pen.saved with
      | nil =>
          rw [restore_of_none top] at restores
          exact .inr ⟨rfl, rfl, (Except.error.inj restores).symm⟩
      | cons point saved =>
          rw [restore_of_saved top] at restores
          cases restores
  | _ => cases failed

end Pen

theorem Instruction.fetch_fault_kind {kind : FontKind} {stream : CodeStream} {legs : List Leg}
    {fault : GlyphFault} (read : fetch kind stream = .faulty legs fault) :
    fault ≠ .stackOverflow ∧ fault ≠ .stackUnderflow := by
  cases front : stream.unread with
  | nil =>
      have none := CodeStream.next_eq_none_iff.mpr front
      simp [fetch, none] at read
  | cons byte ahead =>
      rw [fetch_of_unread front] at read
      cases found : operandWidth? kind byte.toNat ahead with
      | none =>
          rw [found] at read
          have same := (Fetch.faulty.inj read).2
          have cut := cut_fault_kind byte.toNat
          rw [same] at cut
          constructor
          · rintro rfl
            cases cut
          · rintro rfl
            cases cut
      | some width =>
          rw [found] at read
          cases zero : factorFault? byte.toNat ahead with
          | none => simp [zero] at read
          | some factor =>
              simp only [zero] at read
              have same := (Fetch.faulty.inj read).2
              rw [same] at zero
              rcases (factor_fault_eq_some_iff.mp zero).2 with ⟨_, rfl⟩ | ⟨_, rfl⟩
              · simp
              · simp

namespace Glyph

namespace Moment

/-- The next instruction saves the position and is not skipped. -/
def Saves (setting : Setting) (moment : Moment α) : Prop :=
  moment.pen.skipNext = false ∧
    ∃ rest, Instruction.fetch setting.font.kind moment.stream = .ready .savePosition rest

/-- The bracket that the next instruction opens or closes. One that is skipped does neither. -/
def bracket? (setting : Setting) (moment : Moment α) : Option (Bracket α) :=
  if moment.pen.skipNext then none
  else match Instruction.fetch setting.font.kind moment.stream with
    | .ready instruction _ => moment.pen.bracket? instruction
    | _ => none

end Moment

theorem bracket_of_ready {setting : Setting} {pen : Pen α} {stream middle : CodeStream}
    {instruction : Instruction} (carry : pen.skipNext = false)
    (read : Instruction.fetch setting.font.kind stream = .ready instruction middle) :
    Moment.bracket? setting ⟨pen, stream⟩ = pen.bracket? instruction := by
  simp [Moment.bracket?, carry, read]

variable [Scalar α]

section

variable {setting : Setting} {pen after : Pen α} {stream rest : CodeStream}
  {drawn : List (Stroke α)} {fault : GlyphFault}

theorem changes_of_next (taken : step setting pen stream = .next drawn after rest) :
    Bracket.Changes (Moment.bracket? setting ⟨pen, stream⟩) pen.saved after.saved := by
  obtain ⟨instruction, middle, read, rule⟩ := proceeds_of_step taken
  cases rule with
  | skipped skip =>
      have nothing : Moment.bracket? setting ⟨pen, stream⟩ = none := by
        simp [Moment.bracket?, skip]
      rw [nothing]
      exact .none pen.saved
  | called carry subshape found entered =>
      rw [bracket_of_ready carry read, subshape]
      exact .none pen.saved
  | performed carry plain done =>
      rw [bracket_of_ready carry read]
      exact Pen.changes_perform done

theorem saved_of_faulty (failed : step setting pen stream = .faulty drawn after fault) :
    after.saved = pen.saved := by
  have rule := fails_of_step failed
  generalize Instruction.fetch setting.font.kind stream = fetched at rule
  cases rule with
  | operands carry => exact Pen.saved_draw_legs pen _
  | _ => rfl

theorem step_of_saves {moment : Moment α} (saves : moment.Saves setting) :
    (moment.pen.saved.length < Pen.savedLimit → ∃ rest,
      step setting moment.pen moment.stream =
        .next [] { moment.pen with saved := moment.pen.position :: moment.pen.saved } rest) ∧
    (Pen.savedLimit ≤ moment.pen.saved.length →
      step setting moment.pen moment.stream = .faulty [] moment.pen .stackOverflow) := by
  obtain ⟨carry, rest, read⟩ := saves
  have opened : step setting moment.pen moment.stream =
      perform setting moment.pen .savePosition rest := by
    simp only [step, read, carry]
    rfl
  have plain : ∀ code, Instruction.savePosition ≠ .subshape code := by simp
  have saving : moment.pen.perform setting.vertical .savePosition = moment.pen.save := rfl
  rw [opened, perform_of_plain plain, saving]
  constructor
  · intro room
    rw [Pen.save_of_room room]
    exact ⟨rest, rfl⟩
  · intro full
    rw [Pen.save_of_full full]

theorem step_of_restores {moment : Moment α} (restores : moment.Restores setting) :
    (∀ point saved, moment.pen.saved = point :: saved → ∃ rest,
      step setting moment.pen moment.stream =
        .next [.move point] { moment.pen.moveTo point with saved } rest) ∧
    (moment.pen.saved = [] →
      step setting moment.pen moment.stream = .faulty [] moment.pen .stackUnderflow) := by
  obtain ⟨carry, rest, read⟩ := restores
  have opened : step setting moment.pen moment.stream =
      perform setting moment.pen .restorePosition rest := by
    simp only [step, read, carry]
    rfl
  have plain : ∀ code, Instruction.restorePosition ≠ .subshape code := by simp
  have restoring : moment.pen.perform setting.vertical .restorePosition = moment.pen.restore := rfl
  rw [opened, perform_of_plain plain, restoring]
  constructor
  · intro point saved top
    rw [Pen.restore_of_saved top]
    exact ⟨rest, rfl⟩
  · intro empty
    rw [Pen.restore_of_none empty]

theorem bracket_of_faulty {moment : Moment α}
    (failed : step setting moment.pen moment.stream = .faulty drawn after fault) :
    (fault = .stackOverflow →
      moment.Saves setting ∧ Pen.savedLimit ≤ moment.pen.saved.length) ∧
    (fault = .stackUnderflow → moment.Restores setting ∧ moment.pen.saved = []) := by
  have rule := fails_of_step failed
  generalize read : Instruction.fetch setting.font.kind moment.stream = fetched at rule
  cases rule with
  | skippedOperands skip =>
      have other := Instruction.fetch_fault_kind read
      exact ⟨fun same => absurd same other.1, fun same => absurd same other.2⟩
  | operands carry =>
      have other := Instruction.fetch_fault_kind read
      exact ⟨fun same => absurd same other.1, fun same => absurd same other.2⟩
  | missing carry absent => simp
  | nested carry found refused => simp
  | @performed instruction middle fault carry plain failed =>
      rcases Pen.fault_of_perform failed with ⟨rfl, full, rfl⟩ | ⟨rfl, empty, rfl⟩
      · exact ⟨fun _ => ⟨⟨carry, middle, read⟩, full⟩, by simp⟩
      · exact ⟨by simp, fun _ => ⟨⟨carry, middle, read⟩, empty⟩⟩

/-- Where a run is at one of its steps: at the first of them, or behind it in the rest of the run. -/
theorem moments_split {before behind : List (Moment α)} {moment : Moment α}
    (parts : moments setting pen stream = before ++ moment :: behind) :
    before = [] ∧ moment = ⟨pen, stream⟩ ∨
      ∃ drawn after rest later, step setting pen stream = .next drawn after rest ∧
        before = ⟨pen, stream⟩ :: later ∧
        moments setting after rest = later ++ moment :: behind := by
  cases taken : step setting pen stream with
  | next drawn after rest =>
      rw [moments_of_next taken] at parts
      cases before with
      | nil => exact .inl ⟨rfl, (List.cons.inj parts).1.symm⟩
      | cons first later =>
          obtain ⟨same, tail⟩ := List.cons.inj parts
          exact .inr ⟨drawn, after, rest, later, rfl, by rw [same], tail⟩
  | _ =>
      rw [moments_of_last (by simp [taken])] at parts
      cases before with
      | nil => exact .inl ⟨rfl, (List.cons.inj parts).1.symm⟩
      | cons first later => simp at parts

theorem accounts_of_moments {before behind : List (Moment α)} {moment : Moment α}
    (parts : moments setting pen stream = before ++ moment :: behind) :
    Bracket.Accounts pen.saved (before.filterMap (Moment.bracket? setting)) moment.pen.saved := by
  induction before generalizing pen stream with
  | nil =>
      rcases moments_split parts with ⟨_, rfl⟩ | ⟨_, _, _, _, _, absurd, _⟩
      · exact Bracket.accounts_nil pen.saved
      · cases absurd
  | cons first before ih =>
      rcases moments_split parts with ⟨absurd, _⟩ | ⟨drawn, after, rest, later, taken, same, tail⟩
      · cases absurd
      · obtain ⟨rfl, rfl⟩ := List.cons.inj same
        have accounts := (changes_of_next taken).accounts (ih tail)
        cases bracket : Moment.bracket? setting ⟨pen, stream⟩ with
        | none =>
            rw [bracket] at accounts
            rwa [List.filterMap_cons_none bracket]
        | some bracket =>
            rw [bracket] at accounts
            rwa [List.filterMap_cons_some bracket]

theorem run_of_moments {before behind : List (Moment α)} {moment : Moment α}
    (parts : moments setting pen stream = before ++ moment :: behind) :
    run setting pen stream =
      (run setting moment.pen moment.stream).after (before.flatMap (Moment.drawn setting)) := by
  induction before generalizing pen stream with
  | nil =>
      rcases moments_split parts with ⟨_, rfl⟩ | ⟨_, _, _, _, _, absurd, _⟩
      · exact (Outcome.after_nil _).symm
      · cases absurd
  | cons first before ih =>
      rcases moments_split parts with ⟨absurd, _⟩ | ⟨drawn, after, rest, later, taken, same, tail⟩
      · cases absurd
      · obtain ⟨rfl, rfl⟩ := List.cons.inj same
        have draws : Moment.drawn setting ⟨pen, stream⟩ = drawn := by
          rw [Moment.drawn, taken]
          rfl
        rw [run_of_next taken, ih tail, Outcome.after_after, List.flatMap_cons, draws]

theorem run_of_faulty_moment {before behind : List (Moment α)} {moment : Moment α}
    (parts : moments setting pen stream = before ++ moment :: behind)
    (failed : step setting moment.pen moment.stream = .faulty [] moment.pen fault) :
    run setting pen stream =
      ⟨before.flatMap (Moment.drawn setting), moment.pen, some fault⟩ := by
  rw [run_of_moments parts, run_of_faulty failed, Outcome.after, List.append_nil]

/-- The last step of a run finds no instruction or fails. It leaves saved what it found. -/
theorem last_moment (setting : Setting) (pen : Pen α) (stream : CodeStream) :
    ∃ before last, moments setting pen stream = before ++ [last] ∧
      (run setting pen stream).pen.saved = last.pen.saved ∧
      ∀ fault, (run setting pen stream).fault = some fault →
        ∃ drawn after, step setting last.pen last.stream = .faulty drawn after fault := by
  induction pen, stream using @run_induction α _ setting with
  | state pen stream ih =>
      cases taken : step setting pen stream with
      | finished =>
          refine ⟨[], ⟨pen, stream⟩, moments_of_last (by simp [taken]), ?_⟩
          rw [run_of_finished taken]
          simp
      | faulty drawn after fault =>
          refine ⟨[], ⟨pen, stream⟩, moments_of_last (by simp [taken]), ?_⟩
          rw [run_of_faulty taken]
          refine ⟨saved_of_faulty taken, ?_⟩
          intro found same
          exact ⟨drawn, after, Option.some.inj same ▸ taken⟩
      | next drawn after rest =>
          obtain ⟨before, last, steps, saved, stops⟩ := ih drawn after rest taken
          refine ⟨⟨pen, stream⟩ :: before, last, ?_, ?_⟩
          · rw [moments_of_next taken, steps]
            rfl
          · rw [run_of_next taken]
            exact ⟨saved, stops⟩

end

/-- Along a run as many positions are saved as brackets are open, never more than three. A fault stands
at the bracket that would make four of them or close none, and that instruction changes nothing. Any
other closing bracket takes the pen back, by a single move, to where it was at the opening bracket that
matches, those of the positions that were saved before the run included. -/
theorem saved_positions_are_bracketed (setting : Setting) (program : Bytes) (pen : Pen α)
    (within : pen.saved.length ≤ 3) :
    let outcome := execute setting program pen
    let steps := moments setting pen (.start program)
    (∀ before moment behind, steps = before ++ moment :: behind →
      let brackets := before.filterMap (Moment.bracket? setting)
      let drawn := before.flatMap (Moment.drawn setting)
      let size := moment.pen.saved.length
      (size + Bracket.closings brackets = pen.saved.length + Bracket.openings brackets ∧ size ≤ 3) ∧
      (moment.Saves setting →
        (size = 3 → outcome = ⟨drawn, moment.pen, some .stackOverflow⟩) ∧
        (size < 3 → ∃ rest, step setting moment.pen moment.stream =
          .next [] { moment.pen with saved := moment.pen.position :: moment.pen.saved } rest)) ∧
      (moment.Restores setting →
        (size = 0 → outcome = ⟨drawn, moment.pen, some .stackUnderflow⟩) ∧
        (0 < size → ∃ point rest,
          (∀ other, Bracket.Closes (Bracket.entries pen.saved ++ brackets) other ↔ other = point) ∧
          step setting moment.pen moment.stream = .next [.move point]
            { moment.pen with
              position := point, last := point, saved := moment.pen.saved.tail } rest))) ∧
    (outcome.fault = some .stackOverflow ↔
      ∃ moment ∈ steps, moment.Saves setting ∧ moment.pen.saved.length = 3) ∧
    (outcome.fault = some .stackUnderflow ↔
      ∃ moment ∈ steps, moment.Restores setting ∧ moment.pen.saved.length = 0) ∧
    ∃ before last, steps = before ++ [last] ∧ outcome.pen.saved = last.pen.saved := by
  intro outcome steps
  have bounded {before behind : List (Moment α)} {moment : Moment α}
      (parts : steps = before ++ moment :: behind) : moment.pen.saved.length ≤ 3 :=
    (accounts_of_moments parts).within within
  have overflow {before behind : List (Moment α)} {moment : Moment α}
      (parts : steps = before ++ moment :: behind) (saves : moment.Saves setting)
      (full : moment.pen.saved.length = 3) :
      outcome = ⟨before.flatMap (Moment.drawn setting), moment.pen, some .stackOverflow⟩ :=
    run_of_faulty_moment parts ((step_of_saves saves).2 (Nat.le_of_eq full.symm))
  have underflow {before behind : List (Moment α)} {moment : Moment α}
      (parts : steps = before ++ moment :: behind) (restores : moment.Restores setting)
      (empty : moment.pen.saved.length = 0) :
      outcome = ⟨before.flatMap (Moment.drawn setting), moment.pen, some .stackUnderflow⟩ :=
    run_of_faulty_moment parts
      ((step_of_restores restores).2 (List.eq_nil_of_length_eq_zero empty))
  obtain ⟨earlier, last, whole, saved, stops⟩ := last_moment setting pen (.start program)
  have member : last ∈ steps := by
    show last ∈ moments setting pen (.start program)
    rw [whole]
    exact List.mem_append_right earlier List.mem_cons_self
  refine ⟨?_, ?_, ?_, earlier, last, whole, saved⟩
  · intro before moment behind parts brackets drawn size
    have accounts := accounts_of_moments parts
    constructor
    · exact ⟨accounts.count, bounded parts⟩
    constructor
    · intro saves
      exact ⟨overflow parts saves, (step_of_saves saves).1⟩
    · intro restores
      refine ⟨underflow parts restores, ?_⟩
      intro someSaved
      cases top : moment.pen.saved with
      | nil =>
          have nothing : size = 0 := congrArg List.length top
          omega
      | cons point rest =>
          obtain ⟨after, taken⟩ := (step_of_restores restores).1 point rest top
          have left := accounts.left
          rw [top, ← Bracket.open_behind_entries pen.saved, ← Bracket.open_behind_append] at left
          exact ⟨point, after, Bracket.closes_iff left.symm, taken⟩
  · constructor
    · intro stopped
      obtain ⟨drawn, after, failed⟩ := stops _ stopped
      obtain ⟨saves, full⟩ := (bracket_of_faulty failed).1 rfl
      exact ⟨last, member, saves, Nat.le_antisymm (bounded whole) full⟩
    · rintro ⟨moment, inside, saves, full⟩
      obtain ⟨before, behind, parts⟩ := List.append_of_mem inside
      rw [overflow parts saves full]
  · constructor
    · intro stopped
      obtain ⟨drawn, after, failed⟩ := stops _ stopped
      obtain ⟨restores, empty⟩ := (bracket_of_faulty failed).2 rfl
      exact ⟨last, member, restores, congrArg List.length empty⟩
    · rintro ⟨moment, inside, restores, empty⟩
      obtain ⟨before, behind, parts⟩ := List.append_of_mem inside
      rw [underflow parts restores empty]

/-- A glyph saves the position, and its caller restores it behind a vector and a restoring that is
skipped. Then it restores what was saved before the run, and once more. -/
theorem position_saved_in_subshape_is_restored :
    let setting : Setting := { font := { Font.empty.insertGlyph 1 [5] with modes := 2 } }
    let program : Bytes := [7, 1, 0x24, 14, 6, 6, 6, 6]
    let pen : Pen Float := { Pen.ready Point.origin 1 with saved := [⟨5, 5⟩] }
    pen.saved.length ≤ 3 ∧ (execute setting program pen).fault = some .stackUnderflow ∧
      (∃ moment ∈ moments setting pen (.start program),
        moment.Restores setting ∧ moment.pen.saved.length = 0) ∧
      ∃ before moment behind, moments setting pen (.start program) = before ++ moment :: behind ∧
        moment.Restores setting ∧ moment.pen.saved.length = 2 ∧
        ∃ rest, step setting moment.pen moment.stream = .next [.move Point.origin]
          { moment.pen with
            position := Point.origin, last := Point.origin, saved := moment.pen.saved.tail } rest := by
  intro setting program pen
  have within : pen.saved.length ≤ 3 := by decide
  obtain ⟨along, _, underflow, _⟩ := saved_positions_are_bracketed setting program pen within
  have stopped : (execute setting program pen).fault = some .stackUnderflow := by
    rw [execute, run_of_next rfl, run_of_next rfl, run_of_next rfl, run_of_next rfl,
      run_of_next rfl, run_of_next rfl, run_of_next rfl, run_of_faulty rfl]
    rfl
  refine ⟨within, stopped, underflow.mp stopped, ?_⟩
  have steps : ∃ first second third fourth fifth moment behind,
      moments setting pen (.start program) =
        [first, second, third, fourth, fifth] ++ moment :: behind ∧
      [first, second, third, fourth, fifth].filterMap (Moment.bracket? setting) =
        [.opening Point.origin] ∧
      moment.Restores setting ∧ moment.pen.saved.length = 2 := by
    rw [moments_of_next rfl, moments_of_next rfl, moments_of_next rfl, moments_of_next rfl,
      moments_of_next rfl, moments_of_next rfl]
    exact ⟨_, _, _, _, _, _, _, rfl, rfl, ⟨rfl, _, rfl⟩, rfl⟩
  obtain ⟨first, second, third, fourth, fifth, moment, behind, parts, brackets, restores, two⟩ :=
    steps
  obtain ⟨point, rest, only, taken⟩ := ((along _ moment behind parts).2.2 restores).2 (by omega)
  have opened : point = Point.origin := by
    rw [brackets] at only
    exact ((only Point.origin).mp ⟨[.opening ⟨5, 5⟩], [], rfl, .nil⟩).symm
  rw [opened] at taken
  exact ⟨_, moment, behind, parts, restores, two, rest, taken⟩

end Glyph

end ShapeFont
