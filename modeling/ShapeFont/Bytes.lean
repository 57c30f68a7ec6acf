/-!
# Byte strings

Programs, names and whole files are lists of bytes. This module fixes the two readings of bytes as
numbers that the rest of the library uses: one byte in two's complement, and several bytes with the
least significant one first. Sizes are kept in signed words of 32 bits, so of a very long string not
all bytes are seen.
-/

namespace ShapeFont

abbrev Bytes := List UInt8

/-- Two's complement: bytes above 127 stand for the negative numbers -128 to -1. -/
def signed8 (byte : UInt8) : Int :=
  if byte.toNat > 127 then (byte.toNat : Int) - 256 else byte.toNat

namespace Bytes

def littleEndian : Bytes → Nat
  | [] => 0
  | byte :: rest => byte.toNat + 256 * littleEndian rest

@[simp] theorem little_endian_nil : littleEndian [] = 0 := rfl

@[simp] theorem little_endian_cons (byte : UInt8) (rest : Bytes) :
    littleEndian (byte :: rest) = byte.toNat + 256 * littleEndian rest := rfl

def ofString (text : String) : Bytes := text.toUTF8.toList

/-- As many of the bytes as a signed word of 32 bits can count. -/
def counted (bytes : Bytes) : Bytes := bytes.take 0x7FFFFFFF

/-- As many of the bytes as the low 32 bits of their number say, read as a signed word. A negative
word leaves none. -/
def wrapped (bytes : Bytes) : Bytes := bytes.take (Int32.ofNat bytes.length).toInt.toNat

theorem counted_of_small {bytes : Bytes} (small : bytes.length < 0x80000000) :
    bytes.counted = bytes := List.take_of_length_le (Nat.le_of_lt_succ small)

theorem counted_prefix (bytes : Bytes) : bytes.counted <+: bytes := List.take_prefix _ _

theorem counted_append (bytes more : Bytes) :
    counted (bytes ++ more) = counted bytes ++ more.take (0x7FFFFFFF - bytes.length) :=
  List.take_append

theorem counted_of_prefix {front whole : Bytes} (begins : front <+: whole) :
    counted front <+: counted whole := by
  obtain ⟨more, rfl⟩ := begins
  rw [counted_append]
  exact List.prefix_append _ _

theorem wrapped_of_small {bytes : Bytes} (small : bytes.length < 0x80000000) :
    bytes.wrapped = bytes := by
  rw [wrapped, Int32.toInt_ofNat_of_lt small, Int.toNat_natCast, List.take_length]

theorem wrapped_prefix (bytes : Bytes) : bytes.wrapped <+: bytes := List.take_prefix _ _

end Bytes

end ShapeFont
