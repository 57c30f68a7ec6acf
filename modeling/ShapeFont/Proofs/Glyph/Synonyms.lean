import ShapeFont.Proofs.Geometry.Exact
import ShapeFont.Proofs.Glyph.Splicing

/-!
# Instructions with more than one spelling

A list of legs can be written leg by leg. A bulge of no height is a straight leg, an arc that starts and
ends on an octant needs no offsets, and a bigfont has a long form of short subshape numbers. Whatever
follows in the stream, either spelling leads to the same run.
-/

namespace ShapeFont

universe u

namespace CodeStream

/-- The bytes of `head` are read first, whatever frames they lie in, and leave `rest`. -/
structure StartsWith (stream : CodeStream) (head : Bytes) (rest : CodeStream) : Prop where
  front : head <+: stream.unread
  behind : stream.advance head.length = rest

theorem starts_with_frame (head more : Bytes) (below : List Bytes) (calls : Nat) :
    StartsWith ⟨(head ++ more) :: below, calls⟩ head ⟨more :: below, calls⟩ where
  front := ⟨more ++ below.flatten, by rw [unread, List.flatten_cons, List.append_assoc]⟩
  behind := advance_front head more below calls

variable {stream rest : CodeStream}

theorem StartsWith.split {first second : Bytes} (starts : stream.StartsWith (first ++ second) rest) :
    ∃ middle, stream.StartsWith first middle ∧ middle.StartsWith second rest := by
  rcases starts with ⟨⟨more, whole⟩, behind⟩
  rw [List.append_assoc] at whole
  refine ⟨stream.advance first.length, ⟨⟨second ++ more, whole⟩, rfl⟩, ?_, ?_⟩
  · rw [unread_advance, ← whole, List.drop_left]
    exact List.prefix_append second more
  · rw [advance_advance, ← List.length_append, behind]

end CodeStream

namespace Instruction

open CodeStream

def legOpcode (bulged : Bool) : UInt8 := if bulged then 12 else 8

def listOpcode (bulged : Bool) : UInt8 := if bulged then 13 else 9

/-- The operands of one leg, with a third byte for the height of a bulge. Two zeros are no leg of a list,
since they end it. -/
structure IsLeg (bulged : Bool) (operands : Bytes) : Prop where
  width : operands.length = if bulged then 3 else 2
  moves : ¬[0, 0] <+: operands

/-- Two spellings that say the same. -/
inductive Synonym : FontKind → Bytes → Bytes → Prop
  | legs (kind : FontKind) (bulged : Bool) (moves : List Bytes)
      (proper : ∀ move ∈ moves, IsLeg bulged move) :
      Synonym kind (listOpcode bulged :: (moves.flatten ++ [0, 0]))
        (moves.flatMap (legOpcode bulged :: ·))
  | flatBulge (kind : FontKind) (dx dy : UInt8) : Synonym kind [12, dx, dy, 0] [8, dx, dy]
  | octantArc (kind : FontKind) (radius sweep : UInt8) :
      Synonym kind [10, radius, sweep] [11, 0, 0, 0, radius, sweep]
  | subshape (low originX originY width height : UInt8) (nonzero : low ≠ 0) :
      Synonym .bigFont [7, low] [7, 0, low, 0, originX, originY, width, height]

structure WritesLeg (kind : FontKind) (bulged : Bool) (operands : Bytes) (leg : Leg) : Prop where
  alone : Spells kind (legOpcode bulged) operands
  single : decode kind (legOpcode bulged).toNat operands = .travel [leg]
  width (more : Bytes) :
    listWidth? bulged (operands ++ more) = (listWidth? bulged more).map (operands.length + ·)
  listed (more : Bytes) : legs bulged (operands ++ more) = leg :: legs bulged more

variable {kind : FontKind} {bulged : Bool} {stream rest : CodeStream}

theorem writes_leg_of_is_leg (kind : FontKind) {operands : Bytes} (proper : IsLeg bulged operands) :
    ∃ leg, WritesLeg kind bulged operands leg := by
  cases bulged with
  | false =>
      rcases List.length_eq_two.mp proper.width with ⟨dx, dy, rfl⟩
      have moves : ¬(dx = 0 ∧ dy = 0) := by
        rintro ⟨rfl, rfl⟩
        exact proper.moves (List.prefix_refl _)
      exact ⟨.straight (signed8 dx) (signed8 dy), ⟨rfl, rfl⟩, rfl,
        fun more => by simp [listWidth?, moves], fun more => by simp [legs, moves]⟩
  | true =>
      rcases List.length_eq_three.mp proper.width with ⟨dx, dy, height, rfl⟩
      have moves : ¬(dx = 0 ∧ dy = 0) := by
        rintro ⟨rfl, rfl⟩
        exact proper.moves (List.prefix_append _ [height])
      exact ⟨.bulge (signed8 dx) (signed8 dy) (signed8 height), ⟨rfl, rfl⟩, rfl,
        fun more => by simp [listWidth?, moves], fun more => by simp [legs, moves]⟩

theorem writes_legs (kind : FontKind) {moves : List Bytes}
    (proper : ∀ move ∈ moves, IsLeg bulged move) :
    ∃ written, List.Forall₂ (WritesLeg kind bulged) moves written := by
  induction moves with
  | nil => exact ⟨[], .nil⟩
  | cons move moves ih =>
      rcases List.forall_mem_cons.mp proper with ⟨first, others⟩
      rcases writes_leg_of_is_leg kind first with ⟨leg, writes⟩
      rcases ih others with ⟨written, behind⟩
      exact ⟨leg :: written, .cons writes behind⟩

theorem list_of_moves {moves : List Bytes} {written : List Leg}
    (members : List.Forall₂ (WritesLeg kind bulged) moves written) :
    listWidth? bulged (moves.flatten ++ [0, 0]) = some (moves.flatten ++ [0, 0]).length ∧
      legs bulged (moves.flatten ++ [0, 0]) = written := by
  induction members with
  | nil => cases bulged <;> exact ⟨rfl, rfl⟩
  | @cons move leg moves written first others ih =>
      rw [List.flatten_cons, List.append_assoc, first.width, first.listed, ih.1, ih.2]
      exact ⟨congrArg some List.length_append.symm, rfl⟩

theorem spells_list {moves : List Bytes} {written : List Leg}
    (members : List.Forall₂ (WritesLeg kind bulged) moves written) :
    Spells kind (listOpcode bulged) (moves.flatten ++ [0, 0]) ∧
      decode kind (listOpcode bulged).toNat (moves.flatten ++ [0, 0]) = .travel written := by
  rcases list_of_moves members with ⟨width, listed⟩
  cases bulged with
  | false => exact ⟨⟨width, rfl⟩, congrArg Instruction.travel listed⟩
  | true => exact ⟨⟨width, rfl⟩, congrArg Instruction.travel listed⟩

theorem fetch_of_starts {byte : UInt8} {operands : Bytes} (spells : Spells kind byte operands)
    (named : byte ≠ 0) (starts : stream.StartsWith (byte :: operands) rest) :
    fetch kind stream = .ready (decode kind byte.toNat operands) rest := by
  rcases starts with ⟨⟨more, whole⟩, reached⟩
  have opcode : byte.toNat ≠ 0 := fun zero => named (UInt8.toNat_inj.mp zero)
  rw [fetch_of_spells spells whole.symm, behind, if_neg opcode, Nat.add_comm]
  exact congrArg _ reached

end Instruction

namespace Pen

variable {α : Type u} [Scalar α] (pen : Pen α)

theorem skip_draw_leg (leg : Leg) : (pen.drawLeg leg).2.skipNext = pen.skipNext := by
  cases leg with
  | straight dx dy => rfl
  | bulge dx dy height => rfl

theorem draw_legs_singleton (leg : Leg) :
    pen.drawLegs [leg] = ([(pen.drawLeg leg).1], (pen.drawLeg leg).2) := rfl

theorem draw_flat_bulge (flat : ((ofInt 0 : α) / ofInt 127 == zero) = true) (dx dy : Int) :
    pen.drawLeg (.bulge dx dy 0) = pen.drawLeg (.straight dx dy) := by
  simp only [drawLeg, drawBulge, displace, flat, if_true]

theorem draw_arc_without_offsets (level : octant * ofInt 0 / ofInt 256 = (zero : α)) (radius : Nat)
    (sweep : UInt8) :
    pen.drawArc (.ofOperands (some (0, 0)) radius sweep) =
      pen.drawArc (.ofOperands none radius sweep) := by
  have angle : (offsetAngle 0 : α) = zero := level
  simp only [drawArc, ArcSpec.ofOperands, angle]

end Pen

namespace Glyph

open Instruction CodeStream

variable {α : Type u} [Scalar α] {setting : Setting} {pen : Pen α} {stream other rest : CodeStream}

theorem run_of_spelled_travel {byte : UInt8} {operands : Bytes} {written : List Leg}
    (carry : pen.skipNext = false) (spells : Spells setting.font.kind byte operands)
    (decoded : decode setting.font.kind byte.toNat operands = .travel written)
    (starts : stream.StartsWith (byte :: operands) rest) :
    run setting pen stream =
      (run setting (pen.drawLegs written).2 rest).after (pen.drawLegs written).1 := by
  have named : byte ≠ 0 := by
    rintro rfl
    cases decoded
  apply run_of_travel carry
  rw [fetch_of_starts spells named starts, decoded]

theorem run_of_single_legs {bulged : Bool} {moves : List Bytes} {written : List Leg}
    (carry : pen.skipNext = false)
    (members : List.Forall₂ (WritesLeg setting.font.kind bulged) moves written)
    (starts : stream.StartsWith (moves.flatMap (legOpcode bulged :: ·)) rest) :
    run setting pen stream =
      (run setting (pen.drawLegs written).2 rest).after (pen.drawLegs written).1 := by
  induction members generalizing pen stream with
  | nil =>
      have nothing : stream = rest := starts.behind
      rw [nothing]
      rfl
  | @cons move leg moves written first others ih =>
      rw [List.flatMap_cons] at starts
      rcases starts.split with ⟨middle, front, behind⟩
      have carried : (pen.drawLeg leg).2.skipNext = false := (pen.skip_draw_leg leg).trans carry
      rw [run_of_spelled_travel carry first.alone first.single front, Pen.draw_legs_singleton,
        ih carried behind, Outcome.after_after, Pen.draw_legs_cons]
      rfl

theorem run_of_same_effect {instruction synonym : Instruction}
    (read : fetch setting.font.kind stream = .ready instruction rest)
    (alsoRead : fetch setting.font.kind other = .ready synonym rest)
    (effect : perform setting pen instruction rest = perform setting pen synonym rest) :
    run setting pen stream = run setting pen other := by
  apply run_of_same_step
  rw [step_of_ready read, step_of_ready alsoRead, effect]

/-- Two spellings that say the same are exchanged in front of any rest of the stream without effect on
the run: its strokes, its fault and the pen that it leaves stay. Of the numbers this takes that no height
makes no bulge and that an offset of zero makes no angle. -/
theorem synonyms_run_alike (flat : ((ofInt 0 : α) / ofInt 127 == zero) = true)
    (level : octant * ofInt 0 / ofInt 256 = (zero : α)) (setting : Setting) (pen : Pen α)
    (first second : Bytes) (stream other rest : CodeStream)
    (carry : pen.skipNext = false) (same : Synonym setting.font.kind first second)
    (starts : stream.StartsWith first rest) (alsoStarts : other.StartsWith second rest) :
    run setting pen stream = run setting pen other := by
  generalize kind : setting.font.kind = kind at same
  cases same with
  | legs _ bulged moves proper =>
      rcases writes_legs setting.font.kind proper with ⟨written, members⟩
      rcases spells_list members with ⟨spells, decoded⟩
      rw [run_of_spelled_travel carry spells decoded starts,
        run_of_single_legs carry members alsoStarts]
  | flatBulge _ dx dy =>
      rw [run_of_spelled_travel carry ⟨rfl, rfl⟩ rfl starts,
        run_of_spelled_travel carry ⟨rfl, rfl⟩ rfl alsoStarts, Pen.draw_legs_singleton,
        Pen.draw_legs_singleton]
      have level : signed8 0 = 0 := rfl
      rw [level, pen.draw_flat_bulge flat]
  | octantArc _ radius sweep =>
      have long : decode setting.font.kind 11 [0, 0, 0, radius, sweep] =
          .arc (.ofOperands (some (0, 0)) radius.toNat sweep) := by simp [decode]
      apply run_of_same_effect (fetch_of_starts ⟨rfl, rfl⟩ (by decide) starts)
        (fetch_of_starts ⟨rfl, rfl⟩ (by decide) alsoStarts)
      have opcode : (11 : UInt8).toNat = 11 := rfl
      rw [opcode, long]
      show perform setting pen (.arc (.ofOperands none radius.toNat sweep)) rest = _
      simp only [perform, Pen.perform, pen.draw_arc_without_offsets level]
  | subshape low originX originY width height nonzero =>
      have short := spells_subshape (.short low nonzero)
      have long := spells_subshape (.long low 0 originX originY width height)
      rw [← kind] at short long
      apply run_of_same_effect (fetch_of_starts short.1 (by decide) starts)
        (fetch_of_starts long.1 (by decide) alsoStarts)
      have seven : (7 : UInt8).toNat = 7 := rfl
      rw [seven, short.2, long.2]
      rfl

/-- A list of two legs that goes on in the caller's frame, on floats and on the real plane. -/
theorem list_is_written_out_leg_by_leg :
    let _functions := PlaneFunctions.euclidean
    let setting : Setting := { font := Font.empty }
    let floats : Pen Float := Pen.ready Point.origin 1
    let reals : Pen ℝ := Pen.ready Point.origin 1
    let stream : CodeStream := ⟨[[9, 3, 4, 5, 6, 0, 0] ++ [16], [32]], 1⟩
    let other : CodeStream := ⟨[[8, 3, 4, 8, 5, 6] ++ [16], [32]], 1⟩
    let rest : CodeStream := ⟨[[16], [32]], 1⟩
    ((ofInt 0 : Float) / ofInt 127 == zero) = true ∧ ((ofInt 0 : ℝ) / ofInt 127 == zero) = true ∧
      octant * ofInt 0 / ofInt 256 = (zero : Float) ∧ octant * ofInt 0 / ofInt 256 = (zero : ℝ) ∧
      floats.skipNext = false ∧ reals.skipNext = false ∧
      Synonym setting.font.kind [9, 3, 4, 5, 6, 0, 0] [8, 3, 4, 8, 5, 6] ∧
      stream.StartsWith [9, 3, 4, 5, 6, 0, 0] rest ∧ other.StartsWith [8, 3, 4, 8, 5, 6] rest ∧
      run setting floats stream = run setting floats other ∧
      run setting reals stream = run setting reals other := by
  intro functions setting floats reals stream other rest
  have rounded : ((ofInt 0 : Float) / ofInt 127 == zero) = true := by decide
  have exactly : ((ofInt 0 : ℝ) / ofInt 127 == zero) = true := by simp
  have level : octant * ofInt 0 / ofInt 256 = (zero : Float) := by decide
  have plumb : octant * ofInt 0 / ofInt 256 = (zero : ℝ) := by simp
  have proper : ∀ move ∈ [[3, 4], [5, 6]], IsLeg false move := by
    intro move member
    simp only [List.mem_cons, List.not_mem_nil, or_false] at member
    rcases member with rfl | rfl
    · exact ⟨rfl, by decide⟩
    · exact ⟨rfl, by decide⟩
  have same : Synonym setting.font.kind [9, 3, 4, 5, 6, 0, 0] [8, 3, 4, 8, 5, 6] :=
    .legs .shapes false [[3, 4], [5, 6]] proper
  have starts := starts_with_frame [9, 3, 4, 5, 6, 0, 0] [16] [[32]] 1
  have alsoStarts := starts_with_frame [8, 3, 4, 8, 5, 6] [16] [[32]] 1
  exact ⟨rounded, exactly, level, plumb, rfl, rfl, same, starts, alsoStarts,
    synonyms_run_alike rounded level setting floats _ _ stream other rest rfl same starts alsoStarts,
    synonyms_run_alike exactly plumb setting reals _ _ stream other rest rfl same starts alsoStarts⟩

end Glyph

end ShapeFont
