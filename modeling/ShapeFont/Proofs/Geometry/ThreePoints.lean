import ShapeFont.Proofs.Geometry.Turns

/-!
# Which points have a circle

Points on one line have none: their turn is zero, which the test for an angle that is too flat never
lets pass. Two circles through points that are not on one line are the same, so the one that is found is
known by its points, and it goes along when they are moved, enlarged or turned about the origin.
-/

namespace ShapeFont

universe u

variable {α : Type u} [Field α]

/-- The points at which a combination of the coordinates has one value. -/
structure StraightLine (α : Type u) [Zero α] where
  across : Point α
  level : α
  directed : across.x ≠ 0 ∨ across.y ≠ 0

def StraightLine.Holds (line : StraightLine α) (point : Point α) : Prop :=
  line.across.x * point.x + line.across.y * point.y = line.level

/-- Some line has all three points on it. -/
def Point.Aligned (a b c : Point α) : Prop :=
  ∃ line : StraightLine α, line.Holds a ∧ line.Holds b ∧ line.Holds c

namespace StraightLine

def along (first second : Point α) (apart : first ≠ second) : StraightLine α where
  across := ⟨first.y - second.y, second.x - first.x⟩
  level := (first.y - second.y) * first.x + (second.x - first.x) * first.y
  directed := by
    by_contra none
    rw [not_or, not_not, not_not] at none
    apply apart
    cases first
    cases second
    rw [Point.mk.injEq]
    exact ⟨(sub_eq_zero.mp none.2).symm, sub_eq_zero.mp none.1⟩

theorem along_first (first second : Point α) (apart : first ≠ second) :
    (along first second apart).Holds first := rfl

theorem along_second (first second : Point α) (apart : first ≠ second) :
    (along first second apart).Holds second := by
  simp only [Holds, along]
  ring

theorem exists_through (first second : Point α) :
    ∃ line : StraightLine α, line.Holds first ∧ line.Holds second := by
  by_cases same : first = second
  · let upright : StraightLine α := ⟨⟨1, 0⟩, first.x, .inl one_ne_zero⟩
    have there : upright.Holds first := by
      simp only [Holds, upright]
      ring
    exact ⟨upright, there, same ▸ there⟩
  · exact ⟨along first second same, along_first _ _ same, along_second _ _ same⟩

end StraightLine

theorem Point.aligned_of_coinciding {a b c : Point α} (coincide : a = b ∨ a = c ∨ b = c) :
    Point.Aligned a b c := by
  rcases coincide with rfl | rfl | rfl
  · obtain ⟨line, first, second⟩ := StraightLine.exists_through a c
    exact ⟨line, first, first, second⟩
  · obtain ⟨line, first, second⟩ := StraightLine.exists_through a b
    exact ⟨line, first, second, first⟩
  · obtain ⟨line, first, second⟩ := StraightLine.exists_through a b
    exact ⟨line, first, second, second⟩

variable [LinearOrder α] [PlaneFunctions α]

theorem turn_eq_zero_of_aligned {a b c : Point α} (aligned : Point.Aligned a b c) :
    Point.turn a b c = 0 := by
  obtain ⟨line, first, second, third⟩ := aligned
  unfold StraightLine.Holds at first second third
  rw [turn_exact]
  rcases line.directed with across | across
  · apply mul_left_cancel₀ across
    linear_combination (c.y - a.y) * (second - first) - (b.y - a.y) * (third - first)
  · apply mul_left_cancel₀ across
    linear_combination (b.x - a.x) * (third - first) - (c.x - a.x) * (second - first)

variable [IsStrictOrderedRing α]

theorem magnitude_exact (value : α) : magnitude value = |value| := by
  rw [magnitude, zero_exact]
  split
  · next negative => rw [abs_of_neg negative]
  · next positive => rw [abs_of_nonneg (le_of_not_gt positive)]

namespace Circle

theorem collinear_iff {a b c : Point α} :
    collinear a b c = true ↔ a.distance b * a.distance c = 0 ∨
      |Point.turn a b c| / (a.distance b * a.distance c) < tolerance := by
  rw [collinear, Bool.or_eq_true, beq_iff_eq, decide_eq_true_iff, zero_exact, magnitude_exact]

theorem collinear_of_aligned {a b c : Point α} (aligned : Point.Aligned a b c) :
    collinear a b c = true := by
  by_contra apart
  apply turn_ne_zero_of_not_collinear (Bool.eq_false_iff.mpr apart)
  exact turn_eq_zero_of_aligned aligned

def divisor (a b c : Point α) : α :=
  ofInt 2 * (a.x * (b.y - c.y) + b.x * (c.y - a.y) + c.x * (a.y - b.y))

omit [IsStrictOrderedRing α] in
theorem divisor_eq (a b c : Point α) : divisor a b c = 2 * Point.turn a b c := by
  rw [divisor, of_int_exact, turn_exact]
  push_cast
  ring

def dividends (a b c : Point α) : Point α :=
  ⟨(a.x * a.x + a.y * a.y) * (b.y - c.y) + (b.x * b.x + b.y * b.y) * (c.y - a.y) +
      (c.x * c.x + c.y * c.y) * (a.y - b.y),
    (a.x * a.x + a.y * a.y) * (c.x - b.x) + (b.x * b.x + b.y * b.y) * (a.x - c.x) +
      (c.x * c.x + c.y * c.y) * (b.x - a.x)⟩

omit [IsStrictOrderedRing α] in
theorem through_of_apart {a b c : Point α} (apart : collinear a b c = false) :
    ∃ circle, through? a b c = some circle ∧
      circle.center.x = (dividends a b c).x / divisor a b c ∧
      circle.center.y = (dividends a b c).y / divisor a b c := by
  rw [through?, apart, if_neg Bool.false_ne_true]
  exact ⟨_, rfl, rfl, rfl⟩

omit [IsStrictOrderedRing α] in
theorem through_of_collinear {a b c : Point α} (flat : collinear a b c = true) :
    through? a b c = none := by
  rw [through?, flat, if_pos rfl]

omit [IsStrictOrderedRing α] in
theorem apart_of_through {a b c : Point α} {circle : Circle α}
    (found : through? a b c = some circle) : collinear a b c = false := by
  cases flat : collinear a b c with
  | false => rfl
  | true =>
      rw [through_of_collinear flat] at found
      contradiction

/-- Points that are not on one line have no two circles. -/
theorem eq_of_holds {a b c : Point α} (bent : Point.turn a b c ≠ 0) {circle other : Circle α}
    (positive : 0 < circle.radius) (alsoPositive : 0 < other.radius)
    (first : circle.Holds a ∧ circle.Holds b ∧ circle.Holds c)
    (second : other.Holds a ∧ other.Holds b ∧ other.Holds c) : circle = other := by
  have ⟨atA, atB, atC⟩ := first
  have ⟨alsoA, alsoB, alsoC⟩ := second
  have nonzero : 2 * Point.turn a b c ≠ 0 := mul_ne_zero two_ne_zero bent
  have center : circle.center = other.center := by
    unfold Holds Point.quadrance at atA atB atC alsoA alsoB alsoC
    rw [turn_exact] at nonzero
    have x : circle.center.x = other.center.x := by
      apply mul_left_cancel₀ nonzero
      linear_combination (b.y - a.y) * ((atC - atA) - (alsoC - alsoA)) -
        (c.y - a.y) * ((atB - atA) - (alsoB - alsoA))
    have y : circle.center.y = other.center.y := by
      apply mul_left_cancel₀ nonzero
      linear_combination (c.x - a.x) * ((atB - atA) - (alsoB - alsoA)) -
        (b.x - a.x) * ((atC - atA) - (alsoC - alsoA))
    rw [Point.mk.injEq (x := circle.center.x)]
    exact ⟨x, y⟩
  have radius : circle.radius = other.radius := by
    rw [← sq_eq_sq₀ positive.le alsoPositive.le, ← atA, ← alsoA, center]
  cases circle
  cases other
  rw [Circle.mk.injEq]
  exact ⟨center, radius⟩

variable (lengths : PlaneFunctions.EuclideanLength α)

include lengths

theorem through_eq_some_iff {a b c : Point α} {circle : Circle α} :
    through? a b c = some circle ↔ collinear a b c = false ∧
      0 < circle.radius ∧ circle.Holds a ∧ circle.Holds b ∧ circle.Holds c := by
  constructor
  · intro found
    exact ⟨apart_of_through found, holds_of_through lengths found⟩
  · intro ⟨apart, positive, holds⟩
    obtain ⟨other, found, -⟩ := through_of_apart apart
    have ⟨alsoPositive, alsoHolds⟩ := holds_of_through lengths found
    rw [found, eq_of_holds (turn_ne_zero_of_not_collinear apart) alsoPositive positive alsoHolds
      holds]

theorem through_follows {a b c : Point α} (change : Point α → Point α)
    (follow : Circle α → Circle α)
    (same : collinear (change a) (change b) (change c) = collinear a b c)
    (positive : ∀ circle : Circle α, 0 < circle.radius → 0 < (follow circle).radius)
    (holds : ∀ (circle : Circle α) (point : Point α), circle.Holds point →
      (follow circle).Holds (change point)) :
    through? (change a) (change b) (change c) = (through? a b c).map follow := by
  cases found : through? a b c with
  | none =>
      apply through_of_collinear
      rw [same]
      by_contra apart
      obtain ⟨circle, there, -⟩ := through_of_apart (Bool.eq_false_iff.mpr apart)
      rw [there] at found
      contradiction
  | some circle =>
      have ⟨apart, large, first, second, third⟩ := (through_eq_some_iff lengths).mp found
      apply (through_eq_some_iff lengths).mpr
      exact ⟨same.trans apart, positive circle large, holds circle a first, holds circle b second,
        holds circle c third⟩

/-- A circle with the points on it, and with a center that the formulas could give. -/
structure Circumscribes (circle : Circle α) (a b c : Point α) : Prop where
  distinct : a ≠ b ∧ a ≠ c ∧ b ≠ c
  bent : ¬Point.Aligned a b c
  divides : divisor a b c ≠ 0
  abscissa : circle.center.x = (dividends a b c).x / divisor a b c
  ordinate : circle.center.y = (dividends a b c).y / divisor a b c
  positive : 0 < circle.radius
  equidistant : circle.Holds a ∧ circle.Holds b ∧ circle.Holds c

theorem circumscribes_of_through {a b c : Point α} {circle : Circle α}
    (found : through? a b c = some circle) : circle.Circumscribes a b c := by
  have apart := apart_of_through found
  have bent := turn_ne_zero_of_not_collinear apart
  have unaligned : ¬Point.Aligned a b c := fun aligned => bent (turn_eq_zero_of_aligned aligned)
  obtain ⟨other, same, abscissa, ordinate⟩ := through_of_apart apart
  rw [found, Option.some.injEq] at same
  subst same
  have ⟨positive, equidistant⟩ := holds_of_through lengths found
  constructor
  case distinct =>
    rw [ne_eq, ne_eq, ne_eq, ← not_or, ← not_or]
    exact fun coincide => unaligned (Point.aligned_of_coinciding coincide)
  case bent => exact unaligned
  case divides =>
    rw [divisor_eq]
    exact mul_ne_zero two_ne_zero bent
  case abscissa => exact abscissa
  case ordinate => exact ordinate
  case positive => exact positive
  case equidistant => exact equidistant

end Circle

/-! ### Points that are moved or enlarged -/

namespace Point

omit [IsStrictOrderedRing α] in
theorem turn_translate (a b c : Point α) (dx dy : α) :
    turn (a.translate dx dy) (b.translate dx dy) (c.translate dx dy) = turn a b c := by
  simp only [turn_exact, translate, add_sub_add_right_eq_sub]

omit [IsStrictOrderedRing α] in
theorem distance_translate (first second : Point α) (dx dy : α) :
    (first.translate dx dy).distance (second.translate dx dy) = first.distance second := by
  simp only [distance, translate, add_sub_add_right_eq_sub]

omit [IsStrictOrderedRing α] in
theorem quadrance_translate (first second : Point α) (dx dy : α) :
    (first.translate dx dy).quadrance (second.translate dx dy) = first.quadrance second := by
  simp only [quadrance, translate, add_sub_add_right_eq_sub]

omit [IsStrictOrderedRing α] in
theorem turn_scale (a b c : Point α) (factor : α) :
    turn (a.scale factor factor) (b.scale factor factor) (c.scale factor factor) =
      factor ^ 2 * turn a b c := by
  simp only [turn_exact, scale]
  ring

omit [IsStrictOrderedRing α] in
theorem quadrance_scale (first second : Point α) (factor : α) :
    (first.scale factor factor).quadrance (second.scale factor factor) =
      factor ^ 2 * first.quadrance second := by
  simp only [quadrance, scale]
  ring

theorem distance_scale (lengths : PlaneFunctions.EuclideanLength α) (first second : Point α)
    (factor : α) :
    (first.scale factor factor).distance (second.scale factor factor) =
      |factor| * first.distance second := by
  have nonneg := mul_nonneg (abs_nonneg factor) (lengths.distance_nonneg first second)
  rw [← sq_eq_sq₀ (lengths.distance_nonneg _ _) nonneg, lengths.distance_square, quadrance_scale,
    mul_pow, sq_abs, lengths.distance_square]

end Point

namespace Circle

def translate (circle : Circle α) (dx dy : α) : Circle α :=
  ⟨circle.center.translate dx dy, circle.radius⟩

def scale (circle : Circle α) (factor : α) : Circle α :=
  ⟨circle.center.scale factor factor, |factor| * circle.radius⟩

omit [IsStrictOrderedRing α] in
theorem holds_translate {circle : Circle α} {point : Point α} (dx dy : α)
    (holds : circle.Holds point) : (circle.translate dx dy).Holds (point.translate dx dy) := by
  rw [Holds, translate, Point.quadrance_translate]
  exact holds

omit [IsStrictOrderedRing α] in
theorem holds_scale {circle : Circle α} {point : Point α} (factor : α)
    (holds : circle.Holds point) : (circle.scale factor).Holds (point.scale factor factor) := by
  rw [Holds, scale, Point.quadrance_scale, mul_pow, sq_abs, holds]

omit [IsStrictOrderedRing α] in
theorem collinear_translate (a b c : Point α) (dx dy : α) :
    collinear (a.translate dx dy) (b.translate dx dy) (c.translate dx dy) = collinear a b c := by
  rw [collinear, Point.turn_translate, Point.distance_translate, Point.distance_translate]
  rfl

/-- The sine of an angle does not grow with its sides. -/
theorem collinear_scale (lengths : PlaneFunctions.EuclideanLength α) (a b c : Point α) {factor : α}
    (nonzero : factor ≠ 0) :
    collinear (a.scale factor factor) (b.scale factor factor) (c.scale factor factor) =
      collinear a b c := by
  have area : factor ^ 2 ≠ 0 := pow_ne_zero 2 nonzero
  have sides : |factor| * a.distance b * (|factor| * a.distance c) =
      factor ^ 2 * (a.distance b * a.distance c) := by
    rw [← sq_abs]
    ring
  rw [Bool.eq_iff_iff, collinear_iff, collinear_iff, Point.turn_scale,
    Point.distance_scale lengths, Point.distance_scale lengths, sides, abs_mul, abs_sq,
    mul_div_mul_left _ _ area, mul_eq_zero_iff_left area]

/-- A circle is found only through points that do have one, and then it is this one. -/
theorem found_through_points (lengths : PlaneFunctions.EuclideanLength α) (a b c : Point α) :
    (∀ circle, through? a b c = some circle → circle.Circumscribes a b c) ∧
    (Point.Aligned a b c ∨ a = b ∨ a = c ∨ b = c → through? a b c = none) ∧
    (∀ dx dy, through? (a.translate dx dy) (b.translate dx dy) (c.translate dx dy) =
      (through? a b c).map (translate · dx dy)) ∧
    ∀ factor, factor ≠ 0 → through? (a.scale factor factor) (b.scale factor factor)
      (c.scale factor factor) = (through? a b c).map (scale · factor) := by
  refine ⟨?_, ?_, ?_, ?_⟩
  · intro circle found
    exact circumscribes_of_through lengths found
  · intro without
    apply through_of_collinear
    apply collinear_of_aligned
    rcases without with aligned | coincide
    · exact aligned
    · exact Point.aligned_of_coinciding coincide
  · intro dx dy
    apply through_follows lengths (Point.translate · dx dy) (translate · dx dy)
    · exact collinear_translate a b c dx dy
    · intro circle positive
      exact positive
    · intro circle point holds
      exact holds_translate dx dy holds
  · intro factor nonzero
    apply through_follows lengths (Point.scale · factor factor) (scale · factor)
    · exact collinear_scale lengths a b c nonzero
    · intro circle positive
      exact mul_pos (abs_pos.mpr nonzero) positive
    · intro circle point holds
      exact holds_scale factor holds

open scoped RealPlane in
theorem right_triangle_has_circle :
    (⟨⟨3, 4⟩, 5⟩ : Circle ℝ).Circumscribes ⟨0, 0⟩ ⟨6, 0⟩ ⟨0, 8⟩ ∧
    through? ((⟨0, 0⟩ : Point ℝ).translate 1 2) (Point.translate ⟨6, 0⟩ 1 2)
      (Point.translate ⟨0, 8⟩ 1 2) = some ⟨⟨4, 6⟩, 5⟩ ∧
    through? ((⟨0, 0⟩ : Point ℝ).scale (-2) (-2)) (Point.scale ⟨6, 0⟩ (-2) (-2))
      (Point.scale ⟨0, 8⟩ (-2) (-2)) = some ⟨⟨-6, -8⟩, 10⟩ ∧
    through? (⟨0, 0⟩ : Point ℝ) ⟨6, 8⟩ ⟨0, 0⟩ = none := by
  let lengths := PlaneFunctions.euclidean_length
  have across : (⟨0, 0⟩ : Point ℝ).distance ⟨6, 0⟩ = 6 := by
    rw [← sq_eq_sq₀ (lengths.distance_nonneg _ _) (by norm_num), lengths.distance_square]
    norm_num [Point.quadrance]
  have upwards : (⟨0, 0⟩ : Point ℝ).distance ⟨0, 8⟩ = 8 := by
    rw [← sq_eq_sq₀ (lengths.distance_nonneg _ _) (by norm_num), lengths.distance_square]
    norm_num [Point.quadrance]
  have apart : collinear (⟨0, 0⟩ : Point ℝ) ⟨6, 0⟩ ⟨0, 8⟩ = false := by
    rw [Bool.eq_false_iff, ne_eq, collinear_iff, across, upwards, turn_exact, tolerance_exact]
    norm_num
  have found : through? (⟨0, 0⟩ : Point ℝ) ⟨6, 0⟩ ⟨0, 8⟩ = some ⟨⟨3, 4⟩, 5⟩ := by
    rw [through_eq_some_iff lengths]
    norm_num [apart, Holds, Point.quadrance]
  obtain ⟨right, -, moved, enlarged⟩ :=
    found_through_points lengths (⟨0, 0⟩ : Point ℝ) ⟨6, 0⟩ ⟨0, 8⟩
  obtain ⟨-, without, -, -⟩ := found_through_points lengths (⟨0, 0⟩ : Point ℝ) ⟨6, 8⟩ ⟨0, 0⟩
  refine ⟨right _ found, ?_, ?_, without (.inr (.inr (.inl rfl)))⟩
  · rw [moved 1 2, found]
    norm_num [translate, Point.translate]
  · rw [enlarged (-2) (by norm_num), found]
    norm_num [scale, Point.scale]

end Circle

end ShapeFont
