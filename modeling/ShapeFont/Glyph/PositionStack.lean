import ShapeFont.Glyph.Pen

/-!
# The slots of saved positions

There is a fixed number of slots, and the lowest `size` of them are in use. What was saved in the others
stays there until it is written over. As a list the stack is what a `Pen` has saved.
-/

namespace ShapeFont

universe u

structure PositionStack (α : Type u) where
  slots : Vector (Point α) Pen.savedLimit
  size : Nat
  within : size ≤ Pen.savedLimit
  deriving Repr, DecidableEq

namespace PositionStack

variable {α : Type u}

/-- The positions in use, the latest first. -/
def toList (stack : PositionStack α) : List (Point α) := (stack.slots.toList.take stack.size).reverse

/-- No slot is in use. They hold some position all the same. -/
def empty (point : Point α) : PositionStack α :=
  { slots := Vector.replicate Pen.savedLimit point, size := 0, within := Nat.zero_le _ }

def clear (stack : PositionStack α) : PositionStack α :=
  { stack with size := 0, within := Nat.zero_le _ }

def push? (stack : PositionStack α) (point : Point α) : Option (PositionStack α) :=
  if room : stack.size < Pen.savedLimit then
    some { slots := stack.slots.set stack.size point room, size := stack.size + 1, within := room }
  else none

def pop? (stack : PositionStack α) : Option (Point α × PositionStack α) :=
  if used : 0 < stack.size then
    have inside : stack.size - 1 < Pen.savedLimit :=
      Nat.lt_of_lt_of_le (Nat.sub_one_lt_of_lt used) stack.within
    some (stack.slots[stack.size - 1],
      { stack with size := stack.size - 1, within := Nat.le_of_lt inside })
  else none

variable (stack : PositionStack α)

theorem length_to_list : stack.toList.length = stack.size := by
  rw [toList, List.length_reverse, List.length_take, Vector.length_toList]
  exact Nat.min_eq_left stack.within

theorem push_of_full (full : Pen.savedLimit ≤ stack.size) (point : Point α) :
    stack.push? point = none := dif_neg (Nat.not_lt.mpr full)

theorem push_of_room (room : stack.size < Pen.savedLimit) (point : Point α) :
    ∃ pushed, stack.push? point = some pushed ∧ pushed.toList = point :: stack.toList := by
  refine ⟨_, dif_pos room, ?_⟩
  have inside : stack.size < (stack.slots.toList.set stack.size point).length := by
    rwa [List.length_set, Vector.length_toList]
  have below : (stack.slots.toList.take stack.size).length ≤ stack.size := List.length_take_le _ _
  rw [toList, toList, Vector.toList_set, List.take_succ_eq_append_getElem inside,
    List.getElem_set_self, List.take_set, List.set_eq_of_length_le below, List.reverse_append]
  rfl

theorem pop_of_none (unused : stack.size = 0) : stack.pop? = none :=
  dif_neg (Nat.not_lt.mpr (Nat.le_of_eq unused))

theorem pop_of_used (used : 0 < stack.size) :
    ∃ point popped, stack.pop? = some (point, popped) ∧ stack.toList = point :: popped.toList := by
  refine ⟨_, _, dif_pos used, ?_⟩
  obtain ⟨slots, size, within⟩ := stack
  cases size with
  | zero => exact absurd used (Nat.lt_irrefl 0)
  | succ size =>
      have inside : size < slots.toList.length := by rwa [Vector.length_toList]
      rw [toList, toList, List.take_succ_eq_append_getElem inside, List.reverse_append]
      rfl

end PositionStack

end ShapeFont
