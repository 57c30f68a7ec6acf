import Mathlib.Analysis.SpecialFunctions.Complex.Arg
import ShapeFont.Geometry.Plane

/-!
# Exact arithmetic

Over an ordered field drawing computes without rounding. Lengths and angles are not arithmetic: they
come from functions about which nothing is known by itself, so that a law which needs one of their
properties has to say so. Over the real numbers the Euclidean length and the angle of a vector have
these properties.
-/

namespace ShapeFont

universe u

/-- The functions of drawing that arithmetic does not define, with the full turn of their angles. -/
class PlaneFunctions (α : Type u) where
  hypot : α → α → α
  atan2 : α → α → α
  sin : α → α
  cos : α → α
  tau : α

instance (priority := low) exactScalar {α : Type u} [Field α] [LinearOrder α]
    [functions : PlaneFunctions α] : Scalar α where
  ofInt number := (number : α)
  hypot := functions.hypot
  atan2 := functions.atan2
  sin := functions.sin
  cos := functions.cos
  tau := functions.tau
  decidableLT := inferInstance
  decidableLE := inferInstance

section

variable {α : Type u} [Field α] [LinearOrder α] [PlaneFunctions α]

@[simp] theorem of_int_exact (number : Int) : (ofInt number : α) = (number : α) := rfl

@[simp] theorem zero_exact : (zero : α) = 0 := Int.cast_zero

@[simp] theorem half_exact (value : α) : half value = value / 2 := by simp [half]

end

namespace PlaneFunctions

variable {α : Type u} [Field α] [LinearOrder α]

structure Homogeneous (α : Type u) [Field α] [LinearOrder α] [PlaneFunctions α] : Prop where
  hypot {factor : α} (positive : 0 < factor) (x y : α) :
    PlaneFunctions.hypot (factor * x) (factor * y) = factor * PlaneFunctions.hypot x y
  atan2 {factor : α} (positive : 0 < factor) (x y : α) :
    PlaneFunctions.atan2 (factor * y) (factor * x) = PlaneFunctions.atan2 y x

@[reducible] noncomputable def euclidean : PlaneFunctions ℝ where
  hypot x y := √(x ^ 2 + y ^ 2)
  atan2 y x := Complex.arg ⟨x, y⟩
  sin := Real.sin
  cos := Real.cos
  tau := 2 * Real.pi

theorem homogeneous_euclidean : @Homogeneous ℝ _ _ euclidean := by
  let functions := euclidean
  constructor
  · intro factor positive x y
    have squares : (factor * x) ^ 2 + (factor * y) ^ 2 = factor ^ 2 * (x ^ 2 + y ^ 2) := by ring
    show √((factor * x) ^ 2 + (factor * y) ^ 2) = factor * √(x ^ 2 + y ^ 2)
    rw [squares, Real.sqrt_mul (sq_nonneg factor), Real.sqrt_sq positive.le]
  · intro factor positive x y
    have vector : (⟨factor * x, factor * y⟩ : ℂ) = factor * ⟨x, y⟩ := by
      apply Complex.ext <;> simp
    show Complex.arg ⟨factor * x, factor * y⟩ = Complex.arg ⟨x, y⟩
    rw [vector, Complex.arg_real_mul _ positive]

end PlaneFunctions

/-- A change of the plane that enlarges it and then moves it. Directions stay. -/
structure Similarity (α : Type u) [Field α] [LinearOrder α] where
  factor : α
  shift : Point α
  positive : 0 < factor

namespace Similarity

variable {α : Type u} [Field α] [LinearOrder α]

def apply (similarity : Similarity α) (point : Point α) : Point α :=
  ⟨similarity.factor * point.x + similarity.shift.x,
    similarity.factor * point.y + similarity.shift.y⟩

def translation [IsStrictOrderedRing α] (dx dy : α) : Similarity α := ⟨1, ⟨dx, dy⟩, one_pos⟩

variable [PlaneFunctions α]

structure Respected (similarity : Similarity α) : Prop where
  hypot (x y : α) :
    hypot (similarity.factor * x) (similarity.factor * y) = similarity.factor * hypot x y
  atan2 (x y : α) : atan2 (similarity.factor * y) (similarity.factor * x) = atan2 y x

theorem respected_of_homogeneous (laws : PlaneFunctions.Homogeneous α) (similarity : Similarity α) :
    similarity.Respected where
  hypot := laws.hypot similarity.positive
  atan2 := laws.atan2 similarity.positive

theorem respected_translation [IsStrictOrderedRing α] (dx dy : α) :
    (translation dx dy).Respected where
  hypot x y := by simp only [translation, one_mul]
  atan2 x y := by simp only [translation, one_mul]

theorem apply_translate (similarity : Similarity α) (point : Point α) (dx dy : α) :
    similarity.apply (point.translate dx dy) =
      (similarity.apply point).translate (similarity.factor * dx) (similarity.factor * dy) := by
  simp only [apply, Point.translate, Point.mk.injEq]
  constructor <;> ring

theorem apply_translation [IsStrictOrderedRing α] (dx dy : α) (point : Point α) :
    (translation dx dy).apply point = point.translate dx dy := by
  simp only [apply, translation, Point.translate, one_mul]

end Similarity

end ShapeFont
