import ShapeFont.Proofs.Reader.Operations
import ShapeFont.Proofs.Reader.Window

/-!
# A buffer behaves like its reader

Whatever is asked of a buffer, and in whatever order, no word overflows and nothing outside of its
bytes is reached for. It answers as the reader does that stands at the same place of the same bytes.
-/

namespace ShapeFont

open Reader (Operation Answer endsText)

namespace Buffer

def position (buffer : Buffer) : Nat := buffer.cursor.toInt.toNat

structure Stands (buffer : Buffer) (reader : Reader) : Prop where
  shows : buffer.toWindow.Shows reader.data.toList
  cursor : buffer.cursor.toInt = reader.cursor
  inside : reader.cursor ≤ reader.size
  latch : buffer.shortRead = reader.shortRead

theorem stands_of_bytes {data : Bytes} (small : data.length < 0x80000000) :
    (ofBytes data).Stands (Reader.start data) :=
  ⟨Window.shows_of_bytes small, rfl, Nat.zero_le _, rfl⟩

/-- A byte is shifted to where the number has zeros only. -/
theorem to_nat_joined {number : UInt32} {index : Nat} (small : number.toNat < Nat.pow 256 index)
    (room : index < 4) (value : UInt8) :
    (number ||| value.toUInt32 <<< (8 * index).toUInt32).toNat =
      number.toNat + Nat.pow 256 index * value.toNat := by
  have radix : Nat.pow 256 index = 2 ^ (8 * index) := (Nat.pow_mul 2 8 index).symm
  have shift : (8 * index).toUInt32.toNat % 32 = 8 * index := by
    rw [Nat.toUInt32, UInt32.toNat_ofNat']
    omega
  have fits : value.toNat <<< (8 * index) < 2 ^ 32 := by
    rw [Nat.shiftLeft_eq]
    calc value.toNat * 2 ^ (8 * index)
      _ ≤ value.toNat * 2 ^ 24 := Nat.mul_le_mul_left _ (Nat.pow_le_pow_right (by decide) (by omega))
      _ < 2 ^ 8 * 2 ^ 24 := Nat.mul_lt_mul_of_pos_right value.toNat_lt (by decide)
  rw [radix] at small ⊢
  calc (number ||| value.toUInt32 <<< (8 * index).toUInt32).toNat
    _ = number.toNat ||| value.toNat <<< (8 * index) := by
      rw [UInt32.toNat_or, UInt32.toNat_shiftLeft, UInt8.toNat_toUInt32, shift,
        Nat.mod_eq_of_lt fits]
    _ = value.toNat <<< (8 * index) + number.toNat := by
      rw [Nat.or_comm, Nat.shiftLeft_add_eq_or_of_lt small]
    _ = number.toNat + 2 ^ (8 * index) * value.toNat := by
      rw [Nat.shiftLeft_eq, Nat.add_comm, Nat.mul_comm]

namespace Stands

variable {buffer : Buffer} {reader : Reader}

theorem position (stands : buffer.Stands reader) : buffer.position = reader.cursor := by
  rw [Buffer.position, stands.cursor, Int.toNat_natCast]

theorem size (stands : buffer.Stands reader) : buffer.size.toInt = reader.size := by
  rw [stands.shows.size, Array.length_toList]
  rfl

theorem move (stands : buffer.Stands reader) {cursor : Int32} {place : Nat}
    (here : cursor.toInt = place) (inside : place ≤ reader.size) :
    { buffer with cursor }.Stands (reader.moveTo place) :=
  ⟨stands.shows, here, inside, stands.latch⟩

theorem short (stands : buffer.Stands reader) :
    { buffer with shortRead := true }.Stands reader.markShort :=
  ⟨stands.shows, stands.cursor, stands.inside, rfl⟩

theorem byte (stands : buffer.Stands reader) :
    ∃ after, buffer.byte = .ok (reader.byte.1, after) ∧ after.Stands reader.byte.2 ∧
      after.toWindow = buffer.toWindow := by
  unfold Buffer.byte
  have size := stands.size
  have here := stands.cursor
  by_cases ended : buffer.size ≤ buffer.cursor
  · rw [if_pos ended]
    rw [Int32.le_iff_toInt_le] at ended
    have nothing : reader.rest = [] := by
      rw [Reader.rest, List.drop_eq_nil_iff, Array.length_toList]
      show reader.size ≤ reader.cursor
      omega
    rw [Reader.byte_of_nil nothing]
    exact ⟨_, rfl, stands.short, rfl⟩
  · rw [if_neg ended]
    have more : buffer.cursor < buffer.size := by
      rw [Int32.le_iff_toInt_le] at ended
      rw [Int32.lt_iff_toInt_lt]
      omega
    obtain ⟨value, there, front⟩ := stands.shows.front here more
    obtain ⟨next, summed, further⟩ := Word.sum_one_of_lt more
    have front : reader.rest = _ := front
    rw [Int32.lt_iff_toInt_lt] at more
    simp only [stands.shows.load here there, summed, bind, Except.bind]
    rw [Reader.byte_of_cons front]
    exact ⟨_, rfl, stands.move (by omega) (by omega), rfl⟩

theorem uint_from (stands : buffer.Stands reader) {number : UInt32} {index : Nat} (count : Nat)
    (small : number.toNat < Nat.pow 256 index) (room : index + count ≤ 4) :
    ∃ value after, buffer.uintFrom number index count = .ok (value, after) ∧
      value.toNat = number.toNat + Nat.pow 256 index * (reader.uint count).1 ∧
      after.Stands (reader.uint count).2 ∧ after.toWindow = buffer.toWindow := by
  induction count generalizing buffer reader number index with
  | zero => exact ⟨number, buffer, rfl, rfl, stands, rfl⟩
  | succ count ih =>
      obtain ⟨middle, taken, still, same⟩ := stands.byte
      have joined := to_nat_joined small (by omega) reader.byte.1
      have more : (number ||| reader.byte.1.toUInt32 <<< (8 * index).toUInt32).toNat <
          Nat.pow 256 (index + 1) := by
        have byteSmall := reader.byte.1.toNat_lt
        rw [joined]
        show _ < Nat.pow 256 index * 256
        have upper : Nat.pow 256 index * reader.byte.1.toNat ≤ Nat.pow 256 index * 255 :=
          Nat.mul_le_mul_left _ (by omega)
        omega
      obtain ⟨value, after, read, sum, stays, kept⟩ := ih still more (by omega)
      refine ⟨value, after, ?_, ?_, stays, kept.trans same⟩
      · simp only [uintFrom, taken, bind, Except.bind, read]
      · rw [sum, joined, Reader.uint_succ, Nat.mul_add, Nat.add_assoc, ← Nat.mul_assoc]
        rfl

theorem uint (stands : buffer.Stands reader) {width : Int32} (lower : 1 ≤ width.toInt)
    (upper : width.toInt ≤ 4) :
    ∃ value after, buffer.uint width = .ok (value, after) ∧
      value.toNat = (reader.uint width.toInt.toNat).1 ∧
      after.Stands (reader.uint width.toInt.toNat).2 ∧ after.toWindow = buffer.toWindow := by
  have allowed : 1 ≤ width ∧ width ≤ 4 := by
    have one : (1 : Int32).toInt = 1 := by decide
    have four : (4 : Int32).toInt = 4 := by decide
    rw [Int32.le_iff_toInt_le, Int32.le_iff_toInt_le, one, four]
    exact ⟨lower, upper⟩
  obtain ⟨value, after, read, sum, still, same⟩ :=
    @uint_from buffer reader stands 0 0 width.toInt.toNat (by decide) (by omega)
  refine ⟨value, after, ?_, ?_, still, same⟩
  · rw [Buffer.uint, if_pos allowed]
    exact read
  · rw [sum]
    show 0 + 1 * _ = _
    rw [Nat.zero_add, Nat.one_mul]

theorem seek (stands : buffer.Stands reader) (place : Int32) :
    (buffer.seek place).Stands (reader.seek place.toInt) ∧
      (buffer.seek place).toWindow = buffer.toWindow := by
  have size := stands.size
  unfold Buffer.seek Reader.seek
  simp only [Int32.lt_iff_toInt_lt, Int32.toInt_zero, size]
  by_cases outside : (reader.size : Int) < place.toInt ∨ place.toInt < 0
  · rw [if_pos outside, if_pos outside.symm]
    exact ⟨(stands.move size (Nat.le_refl _)).short, rfl⟩
  · rw [if_neg outside, if_neg fun missed => outside missed.symm]
    exact ⟨stands.move (by omega) (by omega), rfl⟩

theorem remaining (stands : buffer.Stands reader) :
    ∃ left, buffer.remaining = .ok left ∧ left.toInt = reader.remaining := by
  have size := stands.size
  have here := stands.cursor
  have inside := stands.inside
  have upper := Word.to_int_le buffer.size
  obtain ⟨left, subtracted, ahead⟩ :=
    Word.difference_of_fits buffer.size buffer.cursor (by omega) (by omega)
  refine ⟨left, subtracted, ?_⟩
  unfold Reader.remaining
  omega

theorem part (stands : buffer.Stands reader) {length : Int32} {count : Nat}
    (counts : length.toInt = count) (within : reader.cursor + count ≤ reader.size) :
    ∃ part, buffer.slice buffer.cursor length = .ok part ∧
      part.IsSlice buffer.toWindow reader.data.toList reader.cursor count :=
  stands.shows.slice_of_inside stands.cursor counts (by rwa [Array.length_toList])

theorem take (stands : buffer.Stands reader) (count : Int32) :
    ∃ part after, buffer.take count = .ok (fresh part, after) ∧
      part.IsSlice buffer.toWindow reader.data.toList reader.cursor
        (min count.toInt.toNat reader.remaining) ∧
      after.Stands (reader.take count.toInt).2 ∧ after.toWindow = buffer.toWindow := by
  have size := stands.size
  have here := stands.cursor
  have inside := stands.inside
  have upper := Word.to_int_le buffer.size
  obtain ⟨left, ahead, available⟩ := stands.remaining
  obtain ⟨wanted, asked⟩ : ∃ wanted, wanted = Word.nonnegative count := ⟨_, rfl⟩
  have wants : wanted.toInt = count.toInt.toNat := by rw [asked, Word.to_int_nonnegative]
  have offers : (Word.nonnegative left).toInt = reader.remaining := by
    rw [Word.to_int_nonnegative, available, Int.toNat_natCast]
  have few : Word.nonnegative left < wanted ↔ reader.remaining < count.toInt.toNat := by
    rw [Int32.lt_iff_toInt_lt, wants, offers, Int.ofNat_lt]
  have length : (Word.least (Word.nonnegative left) wanted).toInt =
      (min count.toInt.toNat reader.remaining : Nat) := by
    rw [Word.to_int_least, wants, offers]
    omega
  have within : reader.cursor + min count.toInt.toNat reader.remaining ≤ reader.size := by
    unfold Reader.remaining
    omega
  obtain ⟨part, cut, slice⟩ := stands.part length within
  obtain ⟨cursor, summed, moved⟩ :=
    Word.sum_of_fits buffer.cursor (Word.least (Word.nonnegative left) wanted) (by omega) (by omega)
  have still : { buffer with cursor }.Stands
      (reader.skip (min count.toInt.toNat reader.remaining)) := stands.move (by omega) within
  refine ⟨part, { buffer with
    cursor, shortRead := buffer.shortRead || Word.nonnegative left < wanted }, ?_, slice, ?_, rfl⟩
  · unfold Buffer.take
    simp only [← asked, ahead, bind, Except.bind, cut, summed]
    rfl
  · rw [Reader.take_moves]
    by_cases missing : reader.remaining < count.toInt.toNat
    · rw [if_pos missing, decide_eq_true (few.mpr missing), Bool.or_true]
      exact still.short
    · rw [if_neg missing, decide_eq_false fun less => missing (few.mp less), Bool.or_false]
      exact still

theorem text (stands : buffer.Stands reader) :
    ∃ part after, buffer.takeText = .ok (fresh part, after) ∧
      part.IsSlice buffer.toWindow reader.data.toList reader.cursor reader.takeText.1.length ∧
      after.Stands reader.takeText.2 ∧ after.toWindow = buffer.toWindow := by
  have size := stands.size
  have here := stands.cursor
  have inside := stands.inside
  have upper := Word.to_int_le buffer.size
  have bound : reader.takeText.1.length ≤ reader.size - reader.cursor :=
    Reader.length_text_le reader
  obtain ⟨stop, ended, place⟩ := stands.shows.text_end here (by rwa [Array.length_toList])
  have place : stop.toInt = (reader.cursor + reader.takeText.1.length : Nat) := place
  obtain ⟨length, subtracted, count⟩ :=
    Word.difference_of_fits stop buffer.cursor (by omega) (by omega)
  have counts : length.toInt = reader.takeText.1.length := by omega
  have within : reader.cursor + reader.takeText.1.length ≤ reader.size := by omega
  obtain ⟨part, cut, slice⟩ := stands.part counts within
  have behind : stop < buffer.size ↔
      reader.cursor + reader.takeText.1.length < reader.size := by
    rw [Int32.lt_iff_toInt_lt, place, size, Int.ofNat_lt]
  rw [Reader.take_text_moves]
  by_cases more : reader.cursor + reader.takeText.1.length < reader.size
  · obtain ⟨next, summed, further⟩ := Word.sum_one_of_lt (behind.mpr more)
    rw [if_pos more]
    refine ⟨part, { buffer with cursor := next }, ?_, slice, stands.move (by omega) more, rfl⟩
    unfold Buffer.takeText
    simp only [ended, subtracted, bind, Except.bind, cut, if_pos (behind.mpr more), summed]
    rfl
  · have last : ¬stop < buffer.size := fun before => more (behind.mp before)
    rw [if_neg more]
    refine ⟨part, { buffer with cursor := stop }, ?_, slice, stands.move place within, rfl⟩
    unfold Buffer.takeText
    simp only [ended, subtracted, bind, Except.bind, cut, if_neg last]
    rfl

theorem cursor_within (stands : buffer.Stands reader) :
    0 ≤ buffer.cursor.toInt ∧ buffer.cursor.toInt ≤ buffer.size.toInt := by
  have size := stands.size
  have here := stands.cursor
  have inside := stands.inside
  omega

theorem length_ahead (stands : buffer.Stands reader) :
    reader.rest.length = reader.data.toList.length - buffer.position := by
  rw [stands.position, Reader.rest, List.length_drop]

end Stands

end Buffer

end ShapeFont
