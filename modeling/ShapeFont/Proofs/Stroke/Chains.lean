import ShapeFont.Stroke

/-!
# Chains of strokes

Strokes make a chain when each drawn one starts where the one before it ended. Breaks end nowhere, so
a chain goes on across them.
-/

namespace ShapeFont.Stroke

universe u

variable {α : Type u}

/-- Where a drawn stroke starts. Moves and breaks only end. -/
def start? : Stroke α → Option (Point α)
  | line start _ => some start
  | arc start _ _ => some start
  | _ => none

/-- Where the latest of some strokes ended that has an end, or `first` if there is none. -/
def endBehind (first : Point α) (strokes : List (Stroke α)) : Point α :=
  (strokes.filterMap target?).getLast?.getD first

def Chained (first : Point α) (strokes : List (Stroke α)) : Prop :=
  ∀ before stroke behind, strokes = before ++ stroke :: behind →
    ∀ start, stroke.start? = some start → start = endBehind first before

theorem end_behind_of_still {first : Point α} {strokes : List (Stroke α)}
    (still : strokes.filterMap target? = []) : endBehind first strokes = first := by
  rw [endBehind, still]
  rfl

theorem end_behind_append (first : Point α) (earlier later : List (Stroke α)) :
    endBehind first (earlier ++ later) = endBehind (endBehind first earlier) later := by
  rw [endBehind, endBehind, endBehind, List.filterMap_append, List.getLast?_append,
    Option.getD_or]

theorem chained_nil (first : Point α) : Chained first [] := by
  intro before stroke behind parts
  simp at parts

theorem chained_singleton {first : Point α} {stroke : Stroke α}
    (starts : ∀ start, stroke.start? = some start → start = first) : Chained first [stroke] := by
  intro before other behind parts start found
  cases before with
  | nil =>
      have same := (List.cons.inj parts).1
      exact starts start (same ▸ found)
  | cons earlier before => simp at parts

theorem Chained.append {first : Point α} {earlier later : List (Stroke α)}
    (front : Chained first earlier) (back : Chained (endBehind first earlier) later) :
    Chained first (earlier ++ later) := by
  intro before stroke behind parts start found
  rcases List.append_eq_append_iff.mp parts with ⟨between, split, rest⟩ | ⟨between, split, rest⟩
  · rw [split, end_behind_append]
    exact back between stroke behind rest start found
  · cases between with
    | nil =>
        rw [List.append_nil] at split
        have begun := back [] stroke behind rest.symm start found
        rw [← split]
        exact begun
    | cons head between =>
        have same := (List.cons.inj rest).1
        rw [← same] at split
        exact front before stroke between split start found

end ShapeFont.Stroke
