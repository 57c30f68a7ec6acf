import ShapeFont.Proofs.Geometry.Turns
import ShapeFont.Proofs.Stroke.Bounds
import ShapeFont.Stroke.Recording

/-!
# The extent of a recording

A measurement depends on the ends of what was drawn. What the caller's bounds held before and points
that a segment does not use have no part in it. So the extent of a recording that was scaled and moved
is the extent of it, scaled and moved.
-/

namespace ShapeFont

universe u

variable {α : Type u}

theorem Stroke.end_points_map (change : Point α → Point α) (stroke : Stroke α) :
    (stroke.mapPoints change).endPoints = stroke.endPoints.map change := by
  cases stroke <;> rfl

theorem Stroke.all_end_points_map (change : Point α → Point α) (strokes : List (Stroke α)) :
    (strokes.map (mapPoints change)).flatMap endPoints =
      (strokes.flatMap endPoints).map change := by
  rw [List.flatMap_map, List.map_flatMap]
  simp only [end_points_map]

section

variable [Scalar α]

namespace Segment

theorem stroke_scale (segment : Segment α) (sx sy : α) :
    (segment.scale sx sy).stroke = segment.stroke.mapPoints fun point => point.scale sx sy := by
  obtain ⟨kind, start, control, target⟩ := segment
  cases kind <;> rfl

theorem stroke_translate (segment : Segment α) (tx ty : α) :
    (segment.translate tx ty).stroke =
      segment.stroke.mapPoints fun point => point.translate tx ty := by
  obtain ⟨kind, start, control, target⟩ := segment
  cases kind <;> rfl

theorem kind_translate (segment : Segment α) (tx ty : α) :
    (segment.translate tx ty).kind = segment.kind := by
  unfold translate
  split <;> rfl

omit [Scalar α] in
theorem end_points_eq_nil_iff (segment : Segment α) :
    segment.stroke.endPoints = [] ↔ segment.kind = .newPath := by
  obtain ⟨kind, start, control, target⟩ := segment
  cases kind <;> simp [stroke, Stroke.endPoints]

end Segment

namespace Measurement

theorem track_first (held : Bounds α) (point : Point α) :
    track { held } point = { started := true, held := Bounds.single point } := rfl

theorem track_further (held : Bounds α) (point : Point α) :
    track { started := true, held } point = { started := true, held := held.extend point } := by
  simp [track, Bounds.extend]

theorem foldl_track_further (held : Bounds α) (points : List (Point α)) :
    points.foldl track { started := true, held } =
      { started := true, held := points.foldl Bounds.extend held } := by
  induction points generalizing held with
  | nil => rfl
  | cons point points ih => rw [List.foldl_cons, track_further, ih, List.foldl_cons]

theorem foldl_track (held : Bounds α) (points : List (Point α)) :
    points.foldl track { held } =
      match Bounds.ofPoints? points with
      | none => { held }
      | some bounds => { started := true, held := bounds } := by
  cases points with
  | nil => rfl
  | cons point points => rw [List.foldl_cons, track_first, foldl_track_further]; rfl

theorem track_segment_eq (measurement : Measurement α) (segment : Segment α) :
    measurement.trackSegment segment = segment.stroke.endPoints.foldl track measurement := by
  obtain ⟨kind, start, control, target⟩ := segment
  cases kind <;> rfl

theorem foldl_track_segment (measurement : Measurement α) (segments : List (Segment α)) :
    segments.foldl trackSegment measurement =
      (segments.flatMap fun segment => segment.stroke.endPoints).foldl track measurement := by
  induction segments generalizing measurement with
  | nil => rfl
  | cons segment segments ih =>
      rw [List.foldl_cons, ih, track_segment_eq, List.flatMap_cons, List.foldl_append]

end Measurement

namespace Recording

/-! ### The path that was recorded -/

omit [Scalar α] in
theorem strokes_of_changed {change : Segment α → Segment α} {move : Point α → Point α}
    (law : ∀ segment, (change segment).stroke = segment.stroke.mapPoints move)
    (segments : List (Segment α)) :
    (segments.map change).map Segment.stroke =
      (segments.map Segment.stroke).map (Stroke.mapPoints move) := by
  rw [List.map_map, List.map_map]
  apply List.map_congr_left
  intro segment _
  exact law segment

theorem path_scale (recording : Recording α) (sx sy : α) :
    (recording.scale sx sy).path = recording.path.scale sx sy := by
  rw [path, scale, strokes_of_changed fun segment => Segment.stroke_scale segment sx sy]
  rfl

theorem path_translate (recording : Recording α) (tx ty : α) :
    (recording.translate tx ty).path = recording.path.translate tx ty := by
  rw [path, translate, strokes_of_changed fun segment => Segment.stroke_translate segment tx ty]
  rfl

def ends {α : Type u} (recording : Recording α) : List (Point α) :=
  recording.path.strokes.flatMap Stroke.endPoints

theorem ends_scale (recording : Recording α) (sx sy : α) :
    (recording.scale sx sy).ends = recording.ends.map fun point => point.scale sx sy := by
  rw [ends, path_scale]
  exact Stroke.all_end_points_map _ recording.path.strokes

theorem ends_translate (recording : Recording α) (tx ty : α) :
    (recording.translate tx ty).ends = recording.ends.map fun point => point.translate tx ty := by
  rw [ends, path_translate]
  exact Stroke.all_end_points_map _ recording.path.strokes

theorem ends_eq_nil_iff {α : Type u} (recording : Recording α) :
    recording.ends = [] ↔ ∀ segment ∈ recording.segments, segment.kind = .newPath := by
  rw [ends, path, List.flatMap_map, List.flatMap_eq_nil_iff]
  simp only [Segment.end_points_eq_nil_iff]

theorem measure_eq (recording : Recording α) (held : Bounds α) :
    recording.measure held =
      match recording.path.bounds? with
      | none => (false, held)
      | some bounds => (true, bounds) := by
  have same : recording.segments.flatMap (fun segment => segment.stroke.endPoints) =
      recording.path.strokes.flatMap Stroke.endPoints := by
    rw [path, List.flatMap_map]
  rw [measure, Measurement.foldl_track_segment, same, Measurement.foldl_track, Path.bounds?]
  cases Bounds.ofPoints? (recording.path.strokes.flatMap Stroke.endPoints) <;> rfl

end Recording

end

/-! ### Scaled and moved with exact numbers -/

variable [Field α] [LinearOrder α]

def Point.image (point : Point α) (sx sy tx ty : α) : Point α :=
  ⟨sx * point.x + tx, sy * point.y + ty⟩

/-- Where bounds come to lie. A negative factor makes the one side of them the other. -/
def Bounds.image (bounds : Bounds α) (sx sy tx ty : α) : Bounds α where
  lower :=
    ⟨sx * (if sx < 0 then bounds.upper.x else bounds.lower.x) + tx,
      sy * (if sy < 0 then bounds.upper.y else bounds.lower.y) + ty⟩
  upper :=
    ⟨sx * (if sx < 0 then bounds.lower.x else bounds.upper.x) + tx,
      sy * (if sy < 0 then bounds.lower.y else bounds.upper.y) + ty⟩

section

variable [IsStrictOrderedRing α]

theorem antitone_of_negative {factor : α} (negative : factor < 0) (shift : α) :
    Antitone fun value => factor * value + shift := by
  intro first second order
  exact add_le_add_left (mul_le_mul_of_nonpos_left order negative.le) shift

theorem monotone_of_nonnegative {factor : α} (nonnegative : ¬factor < 0) (shift : α) :
    Monotone fun value => factor * value + shift := by
  intro first second order
  exact add_le_add_left (mul_le_mul_of_nonneg_left order (le_of_not_gt nonnegative)) shift

variable {values : Set α} {least greatest : α}

theorem least_of_image (factor shift : α) (lower : IsLeast values least)
    (upper : IsGreatest values greatest) :
    IsLeast ((fun value => factor * value + shift) '' values)
      (factor * (if factor < 0 then greatest else least) + shift) := by
  split
  · next negative => exact (antitone_of_negative negative shift).map_isGreatest upper
  · next nonnegative => exact (monotone_of_nonnegative nonnegative shift).map_isLeast lower

theorem greatest_of_image (factor shift : α) (lower : IsLeast values least)
    (upper : IsGreatest values greatest) :
    IsGreatest ((fun value => factor * value + shift) '' values)
      (factor * (if factor < 0 then least else greatest) + shift) := by
  split
  · next negative => exact (antitone_of_negative negative shift).map_isLeast lower
  · next nonnegative => exact (monotone_of_nonnegative nonnegative shift).map_isGreatest upper

end

variable [PlaneFunctions α]

namespace Bounds

theorem Fits.unique {bounds other : Bounds α} {points : Set (Point α)} (fits : bounds.Fits points)
    (also : other.Fits points) : bounds = other := by
  obtain ⟨⟨left, bottom⟩, ⟨right, top⟩⟩ := bounds
  obtain ⟨⟨left', bottom'⟩, ⟨right', top'⟩⟩ := other
  rw [Bounds.mk.injEq, Point.mk.injEq, Point.mk.injEq]
  exact ⟨⟨fits.left.unique also.left, fits.bottom.unique also.bottom⟩,
    fits.right.unique also.right, fits.top.unique also.top⟩

theorem Fits.image [IsStrictOrderedRing α] {bounds : Bounds α} {points : Set (Point α)}
    (fits : bounds.Fits points) (sx sy tx ty : α) :
    (bounds.image sx sy tx ty).Fits ((fun point => point.image sx sy tx ty) '' points) := by
  have abscissas : Point.x '' ((fun point : Point α => point.image sx sy tx ty) '' points) =
      (fun value => sx * value + tx) '' (Point.x '' points) := by
    rw [Set.image_image, Set.image_image]
    rfl
  have ordinates : Point.y '' ((fun point : Point α => point.image sx sy tx ty) '' points) =
      (fun value => sy * value + ty) '' (Point.y '' points) := by
    rw [Set.image_image, Set.image_image]
    rfl
  constructor
  case left =>
    rw [abscissas]
    exact least_of_image sx tx fits.left fits.right
  case right =>
    rw [abscissas]
    exact greatest_of_image sx tx fits.left fits.right
  case bottom =>
    rw [ordinates]
    exact least_of_image sy ty fits.bottom fits.top
  case top =>
    rw [ordinates]
    exact greatest_of_image sy ty fits.bottom fits.top

end Bounds

namespace Recording

theorem ends_changed (recording : Recording α) (sx sy tx ty : α) :
    ((recording.scale sx sy).translate tx ty).ends =
      recording.ends.map fun point => point.image sx sy tx ty := by
  rw [ends_translate, ends_scale, List.map_map]
  apply List.map_congr_left
  intro point _
  simp only [Function.comp_apply, Point.scale, Point.translate, Point.image, mul_comm]

theorem measured_iff (recording : Recording α) (held : Bounds α) :
    (recording.measure held).1 = true ↔ recording.ends ≠ [] := by
  rw [measure_eq, Path.bounds?, ← ends]
  cases recording.ends with
  | nil => simp [Bounds.ofPoints?]
  | cons point points => simp [Bounds.ofPoints?]

theorem measure_of_nil {recording : Recording α} (empty : recording.ends = []) (held : Bounds α) :
    recording.measure held = (false, held) := by
  rw [measure_eq, Path.bounds?, ← ends, empty]
  rfl

theorem measure_fits {recording : Recording α} {held : Bounds α}
    (measured : (recording.measure held).1 = true) :
    (recording.measure held).2.Fits {point | point ∈ recording.ends} := by
  rw [measure_eq, Path.bounds?, ← ends] at measured ⊢
  cases found : Bounds.ofPoints? recording.ends with
  | none => simp [found] at measured
  | some bounds => exact Bounds.fits_of_points found

theorem kinds_changed (recording : Recording α) (sx sy tx ty : α) :
    ((recording.scale sx sy).translate tx ty).segments.map Segment.kind =
      recording.segments.map Segment.kind := by
  rw [translate, scale, List.map_map, List.map_map]
  apply List.map_congr_left
  intro segment _
  exact Segment.kind_translate (segment.scale sx sy) tx ty

/-- A measurement gives the extent of the ends, and nothing where there are only breaks. Scaling and
moving lead it along, by factors of any sign. -/
theorem measured_extent [IsStrictOrderedRing α] (recording : Recording α) (held : Bounds α) :
    let answer := recording.measure held
    (answer.1 = false ↔ ∀ segment ∈ recording.segments, segment.kind = .newPath) ∧
    (answer.1 = false → answer.2 = held) ∧
    (answer.1 = true → answer.2.Fits {point | point ∈ recording.ends}) ∧
    recording.path.bounds? = (if answer.1 then some answer.2 else none) ∧
    ∀ (sx sy tx ty : α) (other : Bounds α),
      let changed := (recording.scale sx sy).translate tx ty
      (changed.measure other).1 = answer.1 ∧
      (answer.1 = true → (changed.measure other).2 = answer.2.image sx sy tx ty) ∧
      changed.segments.map Segment.kind = recording.segments.map Segment.kind ∧
      changed.characters = recording.characters := by
  intro answer
  have unmeasured : answer.1 = false ↔ recording.ends = [] := by
    rw [← Bool.not_eq_true, measured_iff, ne_eq, not_not]
  refine ⟨?_, ?_, measure_fits, ?_, ?_⟩
  · rw [unmeasured, ends_eq_nil_iff]
  · intro missing
    show (recording.measure held).2 = held
    rw [measure_of_nil (unmeasured.mp missing)]
  · show _ = if (recording.measure held).1 then some (recording.measure held).2 else none
    rw [measure_eq]
    cases recording.path.bounds? <;> rfl
  · intro sx sy tx ty other changed
    have ends : changed.ends = recording.ends.map fun point => point.image sx sy tx ty :=
      ends_changed recording sx sy tx ty
    have same : (changed.measure other).1 = answer.1 := by
      rw [Bool.eq_iff_iff, measured_iff, measured_iff, ends, ne_eq, List.map_eq_nil_iff]
    refine ⟨same, ?_, kinds_changed recording sx sy tx ty, rfl⟩
    intro measured
    have fits := measure_fits (same.trans measured)
    have image : {point | point ∈ changed.ends} =
        (fun point : Point α => point.image sx sy tx ty) '' {point | point ∈ recording.ends} := by
      rw [ends]
      ext point
      exact List.mem_map
    rw [image] at fits
    exact fits.unique ((measure_fits measured).image sx sy tx ty)

open scoped RealPlane in
/-- Two strokes behind a break and a move, stretched, mirrored and moved, and a break alone. -/
theorem extent_of_strokes :
    let path : Recording ℝ := Recording.empty.append
      [.newPath, .move ⟨1, 1⟩, .line ⟨1, 1⟩ ⟨4, -2⟩, .arc ⟨4, -2⟩ ⟨5, 0⟩ ⟨6, 3⟩]
    let gap : Recording ℝ := Recording.empty.append [.newPath]
    let held : Bounds ℝ := ⟨⟨7, 7⟩, ⟨-7, -7⟩⟩
    path.measure held = (true, ⟨⟨1, -2⟩, ⟨6, 3⟩⟩) ∧
    ((path.scale 2 (-1)).translate 1 1).measure held = (true, ⟨⟨3, -2⟩, ⟨13, 3⟩⟩) ∧
    gap.measure held = (false, held) := by
  intro path gap held
  have measured : (path.measure held).1 = true := rfl
  have extent : (path.measure held).2 = ⟨⟨1, -2⟩, ⟨6, 3⟩⟩ := by
    norm_num [path, measure, append, empty, Segment.ofStroke, Measurement.trackSegment,
      Measurement.track]
  have ⟨_, _, _, _, follow⟩ := measured_extent path held
  have ⟨same, moved, _, _⟩ := follow 2 (-1) 1 1 held
  have ⟨_, unchanged, _, _, _⟩ := measured_extent gap held
  refine ⟨Prod.ext measured extent, Prod.ext (same.trans measured) ?_,
    Prod.ext rfl (unchanged rfl)⟩
  rw [moved measured, extent]
  norm_num [Bounds.image]

end Recording

end ShapeFont
