import ShapeFont.Proofs.Stroke.Bounds
import ShapeFont.Proofs.Svg.Replay
import ShapeFont.Svg.Document

/-!
# What a frame holds

The frame of a path is computed from the end points of its strokes, without the control points of
arcs, and leaves a margin around them. A point is inside just when both its coordinates are at most
the margin outside of the range of the end points.
-/

namespace ShapeFont

universe u

/-- Some place along a coordinate is at most `margin` above the value, and some at most `margin`
below it. -/
def InReach {α : Type u} [Add α] [Sub α] [LE α] (margin : α) (places : Set α) (value : α) : Prop :=
  (∃ place ∈ places, place - margin ≤ value) ∧ ∃ place ∈ places, value ≤ place + margin

variable {α : Type u} [Field α] [LinearOrder α]

theorem in_reach_iff [IsStrictOrderedRing α] {places : Set α} {lower upper : α} (margin value : α)
    (least : IsLeast places lower) (greatest : IsGreatest places upper) :
    InReach margin places value ↔ lower - margin ≤ value ∧ value ≤ upper + margin := by
  constructor
  · rintro ⟨⟨low, lowPlace, above⟩, high, highPlace, below⟩
    constructor
    · exact (sub_le_sub_right (least.2 lowPlace) margin).trans above
    · exact below.trans (add_le_add_left (greatest.2 highPlace) margin)
  · rintro ⟨above, below⟩
    exact ⟨⟨lower, least.1, above⟩, upper, greatest.1, below⟩

theorem in_reach_of_mem [IsStrictOrderedRing α] {margin place : α} {places : Set α}
    (outward : 0 ≤ margin) (member : place ∈ places) : InReach margin places place :=
  ⟨⟨place, member, sub_le_self place outward⟩, place, member, le_add_of_nonneg_right outward⟩

variable [PlaneFunctions α]

def Path.ends (path : Path α) : Set (Point α) :=
  {point | ∃ stroke ∈ path.strokes, point ∈ stroke.endPoints}

theorem exists_bounds_of_touched {path : Path α}
    (touched : ∃ stroke ∈ path.strokes, stroke ≠ .newPath) :
    ∃ bounds, path.bounds? = some bounds ∧ bounds.Fits path.ends := by
  rcases touched with ⟨stroke, member, unbroken⟩
  have somePoint : ∃ point, point ∈ stroke.endPoints := by
    cases stroke with
    | newPath => exact absurd rfl unbroken
    | move target => exact ⟨target, List.mem_cons_self⟩
    | line start target => exact ⟨start, List.mem_cons_self⟩
    | arc start control target => exact ⟨start, List.mem_cons_self⟩
  rcases somePoint with ⟨point, own⟩
  have among := List.mem_flatMap.mpr ⟨stroke, member, own⟩
  have found : ∃ bounds, path.bounds? = some bounds := by
    rw [Path.bounds?]
    cases points : path.strokes.flatMap Stroke.endPoints with
    | nil => simp [points] at among
    | cons first others => exact ⟨_, rfl⟩
  rcases found with ⟨bounds, found⟩
  have fits := Bounds.fits_of_points found
  simp only [List.mem_flatMap] at fits
  exact ⟨bounds, found, fits⟩

namespace Svg

/-- The point, with y downwards, is in the part of the plane that is shown. -/
def Frame.Contains (frame : Frame α) (point : Point α) : Prop :=
  (frame.corner.x ≤ point.x ∧ point.x ≤ frame.corner.x + frame.width) ∧
    frame.corner.y ≤ point.y ∧ point.y ≤ frame.corner.y + frame.height

theorem target_of_approach {pen : Option (Point α)} {start : Point α} {command : Command α}
    (member : command ∈ approach pen start) : command.target = start.flip := by
  unfold approach at member
  split at member
  · rw [List.mem_singleton.mp member]
    rfl
  · split at member
    · cases member
    · rw [List.mem_singleton.mp member]
      rfl

theorem target_of_arc_command {start control target : Point α} {command : Command α}
    (member : command ∈ arcCommands start control target) :
    command.target = target.flip ∨
      closes start control target = true ∧ command.target = control.flip := by
  unfold arcCommands at member
  split at member
  · next closed =>
      rcases List.mem_pair.mp member with rfl | rfl
      · exact .inr ⟨closed, rfl⟩
      · exact .inl rfl
  · split at member
    · rw [List.mem_singleton.mp member]
      exact .inl rfl
    · rw [List.mem_singleton.mp member]
      exact .inl rfl

/-- The points that the commands of a stroke lead to are its end points, and where it goes round a
full circle also its control point. -/
theorem target_of_command {pen : Option (Point α)} {stroke : Stroke α} {command : Command α}
    (member : command ∈ strokeCommands pen stroke) :
    (∃ point ∈ stroke.endPoints, command.target = point.flip) ∨
      ∃ start control target, stroke = .arc start control target ∧
        closes start control target = true ∧ command.target = control.flip := by
  cases stroke with
  | newPath => cases member
  | move target =>
      rw [List.mem_singleton.mp member]
      exact .inl ⟨target, List.mem_cons_self, rfl⟩
  | line start target =>
      rcases List.mem_append.mp member with entering | own
      · exact .inl ⟨start, List.mem_cons_self, target_of_approach entering⟩
      · rw [List.mem_singleton.mp own]
        exact .inl ⟨target, List.mem_cons_of_mem start List.mem_cons_self, rfl⟩
  | arc start control target =>
      rcases List.mem_append.mp member with entering | own
      · exact .inl ⟨start, List.mem_cons_self, target_of_approach entering⟩
      · rcases target_of_arc_command own with ends | ⟨closed, turns⟩
        · exact .inl ⟨target, List.mem_cons_of_mem start List.mem_cons_self, ends⟩
        · exact .inr ⟨start, control, target, rfl, closed, turns⟩

theorem stroke_of_command {pen : Option (Point α)} {strokes : List (Stroke α)} {command : Command α}
    (member : command ∈ pathCommands #[] pen strokes) :
    ∃ stroke ∈ strokes, ∃ pen, command ∈ strokeCommands pen stroke := by
  induction strokes generalizing pen with
  | nil => cases member
  | cons stroke strokes ih =>
      rw [path_commands_cons] at member
      rcases List.mem_append.mp member with own | behind
      · exact ⟨stroke, List.mem_cons_self, pen, own⟩
      · rcases ih behind with ⟨later, among, written⟩
        exact ⟨later, List.mem_cons_of_mem stroke among, written⟩

variable [IsStrictOrderedRing α]

theorem contains_around_iff (bounds : Bounds α) (size : α) (point : Point α) :
    (Frame.around bounds size).Contains point.flip ↔
      (bounds.lower.x - size / 4 ≤ point.x ∧ point.x ≤ bounds.upper.x + size / 4) ∧
        bounds.lower.y - size / 4 ≤ point.y ∧ point.y ≤ bounds.upper.y + size / 4 := by
  simp only [Frame.Contains, Frame.around, Point.flip, of_int_exact, Int.cast_ofNat]
  constructor
  · rintro ⟨⟨left, right⟩, bottom, top⟩
    refine ⟨⟨left, ?_⟩, ?_, ?_⟩ <;> linarith
  · rintro ⟨⟨left, right⟩, bottom, top⟩
    refine ⟨⟨left, ?_⟩, ?_, ?_⟩ <;> linarith

theorem contains_of_path_iff {path : Path α} (touched : ∃ stroke ∈ path.strokes, stroke ≠ .newPath)
    (size : α) (point : Point α) :
    (Frame.ofPath path size).Contains point.flip ↔
      InReach (size / 4) (Point.x '' path.ends) point.x ∧
        InReach (size / 4) (Point.y '' path.ends) point.y := by
  rcases exists_bounds_of_touched touched with ⟨bounds, found, fits⟩
  rw [Frame.ofPath, shownBounds, found, Option.getD_some, contains_around_iff,
    in_reach_iff _ _ fits.left fits.right, in_reach_iff _ _ fits.bottom fits.top]

end Svg

end ShapeFont
