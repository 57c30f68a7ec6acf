import ShapeFont.Proofs.Geometry.Exact
import ShapeFont.Stroke.Path

/-!
# The extent of points

Bounds that were extended point by point reach exactly as far as the points do: every side goes
through one of them and none lies beyond it.
-/

namespace ShapeFont

universe u

variable {α : Type u} [Field α] [LinearOrder α] [PlaneFunctions α]

namespace Bounds

/-- Every side goes through one of the points, and no point lies beyond it. -/
structure Fits (bounds : Bounds α) (points : Set (Point α)) : Prop where
  left : IsLeast (Point.x '' points) bounds.lower.x
  right : IsGreatest (Point.x '' points) bounds.upper.x
  bottom : IsLeast (Point.y '' points) bounds.lower.y
  top : IsGreatest (Point.y '' points) bounds.upper.y

theorem fits_single (point : Point α) : (single point).Fits {point} := by
  constructor <;> rw [Set.image_singleton]
  · exact isLeast_singleton
  · exact isGreatest_singleton
  · exact isLeast_singleton
  · exact isGreatest_singleton

theorem extend_eq (bounds : Bounds α) (point : Point α) :
    bounds.extend point =
      ⟨⟨min point.x bounds.lower.x, min point.y bounds.lower.y⟩,
        ⟨max point.x bounds.upper.x, max point.y bounds.upper.y⟩⟩ := by
  rw [min_def_lt, min_def_lt, max_comm, max_def_lt, max_comm, max_def_lt]
  rfl

theorem Fits.extend {bounds : Bounds α} {points : Set (Point α)} (fits : bounds.Fits points)
    (point : Point α) : (bounds.extend point).Fits (insert point points) := by
  rw [extend_eq]
  constructor <;> rw [Set.image_insert_eq]
  · exact fits.left.insert point.x
  · exact fits.right.insert point.x
  · exact fits.bottom.insert point.y
  · exact fits.top.insert point.y

theorem Fits.foldl {bounds : Bounds α} {seen : Set (Point α)} (fits : bounds.Fits seen)
    (points : List (Point α)) :
    (points.foldl Bounds.extend bounds).Fits ({point | point ∈ points} ∪ seen) := by
  induction points generalizing bounds seen with
  | nil => simpa using fits
  | cons point points ih =>
      have onward := ih (fits.extend point)
      rw [Set.union_insert, ← Set.insert_union] at onward
      simpa only [List.foldl_cons, List.mem_cons, Set.insert_def, Set.mem_ofPred_eq] using onward

theorem fits_of_points {bounds : Bounds α} {points : List (Point α)}
    (found : ofPoints? points = some bounds) : bounds.Fits {point | point ∈ points} := by
  cases points with
  | nil => cases found
  | cons point points =>
      rw [← Option.some.inj found]
      have fits : (points.foldl extend (single point)).Fits _ := (fits_single point).foldl points
      rw [Set.union_singleton] at fits
      simpa only [List.mem_cons, Set.insert_def, Set.mem_ofPred_eq] using fits

end Bounds

end ShapeFont
