import Mathlib.Data.List.TakeDrop
import ShapeFont.Proofs.Reader.Widths

/-!
# What a reader answers

The operations on the bytes ahead, whether there are enough of them or not. A number has zeros for the
bytes that are missing, a part is as long as the file allows, and the cursor never moves on further
than there are bytes.
-/

namespace ShapeFont

namespace Reader

namespace Operation

def asked : Operation → Nat
  | .byte => 1
  | .uint16 => 2
  | .uint32 => 4
  | .uint width => width.toInt.toNat
  | .take count => count.toInt.toNat
  | .seek _ | .text | .slice _ _ => 0

def Allowed : Operation → Prop
  | .uint width => 1 ≤ width.toInt ∧ width.toInt ≤ 4
  | _ => True

def Misses (operation : Operation) (data : Bytes) (position : Nat) : Prop :=
  data.length - position < operation.asked ∨
    ∃ place, operation = .seek place ∧ (place.toInt < 0 ∨ data.length < place.toInt)

inductive Reads : Operation → Nat → Prop
  | byte : Reads .byte 1
  | uint16 : Reads .uint16 2
  | uint32 : Reads .uint32 4
  | uint (width : Int32) : Reads (.uint width) width.toInt.toNat

variable {operation : Operation} {width : Nat}

theorem misses_iff_of_no_seek (still : ∀ place, operation ≠ .seek place) (data : Bytes)
    (position : Nat) :
    operation.Misses data position ↔ data.length - position < operation.asked := by
  constructor
  · rintro (few | ⟨place, same, -⟩)
    · exact few
    · exact absurd same (still place)
  · exact Or.inl

theorem misses_iff_of_reads (reads : operation.Reads width) (data : Bytes) (position : Nat) :
    operation.Misses data position ↔ data.length - position < width := by
  cases reads <;> exact misses_iff_of_no_seek (fun place => Operation.noConfusion) data position

theorem misses_seek_iff (place : Int32) (data : Bytes) (position : Nat) :
    (Operation.seek place).Misses data position ↔
      place.toInt < 0 ∨ data.length < place.toInt := by
  constructor
  · rintro (few | ⟨_, same, outside⟩)
    · exact absurd few (Nat.not_lt_zero _)
    · cases same
      exact outside
  · exact fun outside => Or.inr ⟨place, rfl, outside⟩

end Operation

variable {reader : Reader}

theorem byte_of_nil (nothing : reader.rest = []) : reader.byte = (0, reader.markShort) := by
  have behind : reader.data[reader.cursor]? = none := by
    rw [← Array.getElem?_toList, ← List.head?_drop]
    exact congrArg List.head? nothing
  rw [byte, behind]

theorem byte_of_cons {value : UInt8} {ahead : Bytes} (front : reader.rest = value :: ahead) :
    reader.byte = (value, reader.skip 1) := by
  have there : reader.data[reader.cursor]? = some value := by
    rw [← Array.getElem?_toList, ← List.head?_drop]
    exact congrArg List.head? front
  rw [byte, there]
  rfl

theorem uint_succ (reader : Reader) (width : Nat) :
    reader.uint (width + 1) =
      (reader.byte.1.toNat + 256 * (reader.byte.2.uint width).1, (reader.byte.2.uint width).2) :=
  rfl

theorem uint_succ_of_nil (nothing : reader.rest = []) (width : Nat) :
    reader.uint (width + 1) =
      (256 * (reader.markShort.uint width).1, (reader.markShort.uint width).2) := by
  rw [uint_succ, byte_of_nil nothing]
  exact Prod.ext (Nat.zero_add _) rfl

theorem uint_succ_of_cons {value : UInt8} {ahead : Bytes} (front : reader.rest = value :: ahead)
    (width : Nat) :
    reader.uint (width + 1) =
      (value.toNat + 256 * ((reader.skip 1).uint width).1, ((reader.skip 1).uint width).2) := by
  rw [uint_succ, byte_of_cons front]

/-- Each byte that is missing counts as zero and leaves the cursor where it is. -/
theorem uint_spec (reader : Reader) (width : Nat) :
    (reader.uint width).1 = Bytes.littleEndian (reader.rest.takeD width 0) ∧
      (reader.uint width).2.cursor = reader.cursor + min width reader.rest.length ∧
      ((reader.uint width).2.shortRead = true ↔
        reader.shortRead = true ∨ reader.rest.length < width) := by
  induction width generalizing reader with
  | zero => simp [uint]
  | succ width ih =>
      cases front : reader.rest with
      | nil =>
          obtain ⟨value, cursor, -⟩ := ih reader.markShort
          have nothing : reader.markShort.rest = [] := front
          have short := ((local_uint width).onward reader.markShort).still_short rfl
          rw [nothing] at value cursor
          rw [List.length_nil, Nat.min_zero] at cursor
          rw [uint_succ_of_nil front, value, List.length_nil, Nat.min_zero]
          refine ⟨?_, cursor, iff_of_true short (Or.inr (Nat.zero_lt_succ width))⟩
          rw [List.takeD, Bytes.little_endian_cons]
          exact (Nat.zero_add _).symm
      | cons low ahead =>
          obtain ⟨value, cursor, latch⟩ := ih (reader.skip 1)
          have behind : (reader.skip 1).rest = ahead := by rw [rest_skip, front]; rfl
          rw [behind] at value cursor latch
          rw [uint_succ_of_cons front, value, cursor, latch, List.length_cons,
            Nat.succ_lt_succ_iff]
          refine ⟨rfl, ?_, Iff.rfl⟩
          show reader.cursor + 1 + min width ahead.length = _
          omega

theorem onward_perform (reader : Reader) (operation : Operation) :
    Onward reader (reader.perform operation).2 := by
  cases operation with
  | byte => exact (local_uint 1).onward reader
  | uint16 => exact (local_uint 2).onward reader
  | uint32 => exact (local_uint 4).onward reader
  | uint width => exact (local_uint width.toInt.toNat).onward reader
  | seek place => exact (local_seek place.toInt).onward reader
  | take count => exact (local_take count.toInt).onward reader
  | text => exact onward_take_text reader
  | slice offset length => exact Onward.refl reader

theorem onward_perform_all (reader : Reader) (history : List Operation) :
    Onward reader (reader.performAll history).2 := by
  induction history generalizing reader with
  | nil => exact Onward.refl reader
  | cons operation history ih => exact (reader.onward_perform operation).trans (ih _)

theorem perform_of_reads {operation : Operation} {width : Nat} (reads : operation.Reads width) :
    reader.perform operation = (.number (reader.uint width).1, (reader.uint width).2) := by
  cases reads <;> rfl

theorem seek_spec (reader : Reader) (position : Int) :
    (reader.seek position).cursor =
        (if 0 ≤ position ∧ position ≤ reader.size then position.toNat else reader.size) ∧
      ((reader.seek position).shortRead = true ↔
        reader.shortRead = true ∨ position < 0 ∨ reader.size < position) := by
  unfold seek
  by_cases outside : position < 0 ∨ reader.size < position
  · rw [if_pos outside, if_neg (by omega)]
    exact ⟨rfl, iff_of_true rfl (Or.inr outside)⟩
  · rw [if_neg outside, if_pos (by omega)]
    exact ⟨rfl, (or_iff_left outside).symm⟩

theorem slice_of_inside {offset length : Int}
    (inside : 0 ≤ offset ∧ 0 ≤ length ∧ offset + length ≤ reader.size) :
    reader.slice offset length = (reader.data.toList.drop offset.toNat).take length.toNat := by
  have width : (offset + length).toNat - offset.toNat = length.toNat := by omega
  rw [slice, if_pos inside, Array.toList_extract, List.extract_eq_take_drop, width]

theorem slice_of_outside {offset length : Int}
    (outside : ¬(0 ≤ offset ∧ 0 ≤ length ∧ offset + length ≤ reader.size)) :
    reader.slice offset length = [] := if_neg outside

theorem take_eq (inside : reader.cursor ≤ reader.size) (count : Int) :
    (reader.take count).1 = reader.rest.take (min count.toNat reader.remaining) := by
  refine slice_of_inside ⟨Int.natCast_nonneg _, Int.natCast_nonneg _, ?_⟩
  unfold remaining
  omega

theorem take_moves (reader : Reader) (count : Int) :
    (reader.take count).2 =
      if reader.remaining < count.toNat then (reader.skip (min count.toNat reader.remaining)).markShort
      else reader.skip (min count.toNat reader.remaining) := by
  have cut : min count.toNat reader.remaining < count.toNat ↔ reader.remaining < count.toNat := by
    omega
  unfold take
  simp only [cut]
  rfl

theorem take_spec (reader : Reader) (count : Int) :
    (reader.take count).2.cursor = reader.cursor + min count.toNat reader.remaining ∧
      ((reader.take count).2.shortRead = true ↔
        reader.shortRead = true ∨ reader.remaining < count.toNat) := by
  rw [take_moves]
  by_cases few : reader.remaining < count.toNat
  · rw [if_pos few]
    exact ⟨rfl, iff_of_true rfl (Or.inr few)⟩
  · rw [if_neg few]
    exact ⟨rfl, (or_iff_left few).symm⟩

theorem take_text_moves (reader : Reader) :
    reader.takeText.2 = reader.moveTo
      (if reader.cursor + reader.takeText.1.length < reader.size then
        reader.cursor + reader.takeText.1.length + 1
      else reader.cursor + reader.takeText.1.length) := rfl

theorem take_length_text (reader : Reader) :
    reader.rest.take reader.takeText.1.length = reader.takeText.1 :=
  (List.prefix_iff_eq_take.mp (List.takeWhile_prefix _)).symm

theorem take_text_spec (inside : reader.cursor ≤ reader.size) :
    match reader.rest.drop reader.takeText.1.length with
    | [] => reader.takeText.2.cursor = reader.cursor + reader.takeText.1.length
    | terminator :: _ => endsText terminator = true ∧
        reader.takeText.2.cursor = reader.cursor + reader.takeText.1.length + 1 := by
  have count : (reader.rest.drop reader.takeText.1.length).length =
      reader.size - reader.cursor - reader.takeText.1.length := by
    rw [List.length_drop, length_rest]
    rfl
  rw [take_text_moves]
  split
  · next nothing =>
      have last : ¬reader.cursor + reader.takeText.1.length < reader.size := by
        rw [nothing, List.length_nil] at count
        omega
      rw [if_neg last]
      rfl
  · next terminator more front =>
      rw [front, List.length_cons] at count
      have room : reader.cursor + reader.takeText.1.length < reader.size := by omega
      have ended : reader.takeText.1.length < reader.remaining := by
        unfold remaining
        omega
      obtain ⟨first, behind, split, ends⟩ := text_of_ended ended
      have drop := congrArg (List.drop reader.takeText.1.length) split
      rw [List.drop_left, front] at drop
      obtain ⟨rfl, -⟩ := List.cons.inj drop
      rw [if_pos room]
      exact ⟨ends, rfl⟩

end Reader

end ShapeFont
