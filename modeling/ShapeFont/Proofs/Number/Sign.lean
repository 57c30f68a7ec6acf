import Mathlib
import ShapeFont.Number.Binary64

/-!
# Floats and their negatives

Negation turns the sign bit of a float over and keeps the fields behind it, so two floats compare
equal just when their negatives do. Comparison goes by the numbers that the bits stand for; the work
is to see that packing a negated number and unpacking it again gives that number back.
-/

namespace ShapeFont.Binary64

open Float.Model Float.Model.UnpackedFloat

theorem hidden_bit_append (fraction : BitVec 52) :
    (1#1 ++ fraction).toNat = hiddenBit + fraction.toNat := by
  rw [BitVec.toNat_append, ← Nat.shiftLeft_add_eq_or_of_lt fraction.isLt]
  rfl

theorem pack_subnormal (sign : Sign) (fraction : BitVec 52) (positive : 0 < fraction.toNat) :
    UnpackedFloat.pack .binary64 (.finite sign fraction.toNat (-1074) positive) =
      packComponents .binary64 sign 0#11 fraction := by
  have short : fraction.toNat.log2 < 52 :=
    (Nat.log2_lt (Nat.ne_of_gt positive)).mpr fraction.isLt
  have plain : ¬ fraction.toNat.log2 + 1 = Format.binary64.mantissaBits := by
    simp only [Format.mantissaBits]
    omega
  unfold UnpackedFloat.pack
  dsimp only
  rw [if_neg (by decide), if_neg plain, BitVec.ofNat_toNat, BitVec.setWidth_eq]

theorem pack_normal (sign : Sign) (exponent : BitVec 11) (fraction : BitVec 52)
    (high : exponent ≠ -1#11) (positive : 0 < (1#1 ++ fraction).toNat) :
    UnpackedFloat.pack .binary64
        (.finite sign (1#1 ++ fraction).toNat ((exponent.toNat : Int) - 1075) positive) =
      packComponents .binary64 sign exponent fraction := by
  have value := hidden_bit_append fraction
  have bound : fraction.toNat < hiddenBit := fraction.isLt
  have hidden : hiddenBit = 4503599627370496 := rfl
  have place : ((exponent.toNat : Int) - 1075 + Format.binary64.exponentBias +
      Format.binary64.mantissaBitsWithoutImplicit).toNat = exponent.toNat := by
    have bias : Format.binary64.exponentBias = 1023 := rfl
    have width : Format.binary64.mantissaBitsWithoutImplicit = 52 := rfl
    omega
  have fits : ¬ 2048 ≤ exponent.toNat + 1 := by
    have limit : exponent.toNat < 2048 := exponent.isLt
    have proper : exponent.toNat ≠ 2047 := fun same => high (BitVec.eq_of_toNat_eq same)
    omega
  have full : (1#1 ++ fraction).toNat.log2 + 1 = Format.binary64.mantissaBits := by
    have width : (1#1 ++ fraction).toNat.log2 = 52 :=
      (Nat.log2_eq_iff (by omega)).mpr (by omega)
    rw [width]
    rfl
  have kept : BitVec.ofNat 52 (1#1 ++ fraction).toNat = fraction := by
    apply BitVec.eq_of_toNat_eq
    rw [BitVec.toNat_ofNat]
    omega
  unfold UnpackedFloat.pack
  dsimp only
  rw [if_neg (by rw [place]; exact fits), if_pos full, place, kept, BitVec.ofNat_toNat,
    BitVec.setWidth_eq]

inductive Canonical : UnpackedFloat → Prop
  | notANumber : Canonical .notANumber
  | infinity (sign : Sign) : Canonical (.infinity sign)
  | zero (sign : Sign) : Canonical (.zero sign)
  | subnormal (sign : Sign) (fraction : BitVec 52) (positive : 0 < fraction.toNat) :
      Canonical (.finite sign fraction.toNat (-1074) positive)
  | normal (sign : Sign) (exponent : BitVec 11) (fraction : BitVec 52)
      (low : exponent ≠ 0#11) (high : exponent ≠ -1#11)
      (positive : 0 < (1#1 ++ fraction).toNat) :
      Canonical (.finite sign (1#1 ++ fraction).toNat ((exponent.toNat : Int) - 1075) positive)

theorem canonical_unpack (bits : BitVec Format.binary64.numBits) :
    Canonical (UnpackedFloat.unpack .binary64 bits) := by
  have bias : Format.binary64.exponentBias = 1023 := rfl
  fun_cases UnpackedFloat.unpack .binary64 bits with
  | case1 => exact .infinity _
  | case2 => exact .notANumber
  | case3 => exact .zero _
  | case4 fraction exponent place sign last proper low nonzero =>
      have bottom : place + 1 = -1074 := by
        have none : exponent.toNat = 0 := by rw [low]; rfl
        simp only [place]
        omega
      have canonical := Canonical.subnormal last fraction
        (Nat.pos_of_ne_zero fun none => nonzero (BitVec.eq_of_toNat_eq none))
      rw [← bottom] at canonical
      exact canonical
  | case5 fraction exponent place sign last high low =>
      have raised : place = (exponent.toNat : Int) - 1075 := by
        simp only [place]
        omega
      have positive : 0 < (1#1 ++ fraction).toNat := by
        rw [hidden_bit_append]
        exact Nat.lt_of_lt_of_le (by decide) (Nat.le_add_right _ _)
      have canonical := Canonical.normal last exponent fraction low high positive
      rw [← raised] at canonical
      exact canonical

theorem Canonical.neg {number : UnpackedFloat} (canonical : Canonical number) :
    Canonical number.neg := by
  cases canonical with
  | notANumber => exact .notANumber
  | infinity sign => exact .infinity _
  | zero sign => exact .zero _
  | subnormal sign fraction positive => exact .subnormal _ fraction positive
  | normal sign exponent fraction low high positive =>
      exact .normal _ exponent fraction low high positive

theorem Canonical.unpack_pack {number : UnpackedFloat} (canonical : Canonical number) :
    UnpackedFloat.unpack .binary64 (UnpackedFloat.pack .binary64 number) = number := by
  cases canonical with
  | notANumber => rfl
  | infinity sign => cases sign <;> rfl
  | zero sign => cases sign <;> rfl
  | subnormal sign fraction positive =>
      have nonzero : fraction ≠ 0#52 := by
        intro none
        rw [none] at positive
        exact absurd positive (by decide)
      rw [pack_subnormal]
      simp [UnpackedFloat.unpack, nonzero, Format.exponentBias]
  | normal sign exponent fraction low high positive =>
      rw [pack_normal sign exponent fraction high positive]
      have other : exponent ≠ 2047#11 := high
      simp [UnpackedFloat.unpack, low, other, Format.exponentBias]

theorem unpack_neg (value : Float) : (-value).toModel.unpack = value.toModel.unpack.neg :=
  (canonical_unpack _).neg.unpack_pack

/-- Only the order of two finite numbers with one sign turns around, and equality stays. -/
theorem beq_of_neg (first second : UnpackedFloat) :
    first.neg.beq second.neg = first.beq second := by
  have turned (order : Ordering) : (some order.swap == some .eq) = (some order == some .eq) := by
    cases order <;> rfl
  rcases first with (_ | _) | _ | (_ | _) | ⟨_ | _, significand, exponent, positive⟩ <;>
    rcases second with (_ | _) | _ | (_ | _) | ⟨_ | _, other, place, above⟩ <;>
    first
    | rfl
    | exact turned _
    | exact (turned _).symm

theorem neg_beq_neg (first second : Float) : (-first == -second) = (first == second) := by
  show (-first).toModel.unpack.beq (-second).toModel.unpack =
    first.toModel.unpack.beq second.toModel.unpack
  rw [unpack_neg, unpack_neg, beq_of_neg]

theorem beq_self {value : Float} (number : value.isNaN = false) : (value == value) = true := by
  have number : value.toModel.unpack.isNaN = false := number
  show value.toModel.unpack.beq value.toModel.unpack = true
  generalize value.toModel.unpack = unpacked at number ⊢
  rcases unpacked with (_ | _) | _ | sign | ⟨_ | _, significand, exponent, positive⟩
  · rfl
  · rfl
  · cases number
  · rfl
  · simp [UnpackedFloat.beq, UnpackedFloat.compare]
  · simp [UnpackedFloat.beq, UnpackedFloat.compare]

end ShapeFont.Binary64
