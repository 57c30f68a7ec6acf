import ShapeFont.Number.Rounding

/-!
# The numbers that a binary64 float holds

`Binary64.ofFloat` takes a float apart into sign, significand and a power of two, so that printing
is exact integer arithmetic. `nearest` is the way back: the float nearest to a ratio, ties to the
even significand, with gradual underflow and overflow to infinity.
-/

namespace ShapeFont

inductive Binary64 where
  | nan
  | infinite (negative : Bool)
  /-- The number `significand * 2 ^ exponent` under its sign; zero keeps its sign. -/
  | finite (negative : Bool) (significand : Nat) (exponent : Int)
  deriving Repr, DecidableEq

namespace Binary64

/-- The least significand of 53 bits. Fraction fields lie below it. -/
def hiddenBit : Nat := 1 <<< 52

/-- The exponent field of infinities and of what is not a number. -/
def topExponent : Nat := 2047

def signBit : Nat := 1 <<< 63

def ofFloat (value : Float) : Binary64 :=
  let bits := value.toBits.toNat
  let fraction : Nat := bits % hiddenBit
  let biased : Nat := bits / hiddenBit % (topExponent + 1)
  let negative : Bool := signBit ≤ bits
  if biased = topExponent then
    if fraction = 0 then .infinite negative else .nan
  else if biased = 0 then .finite negative fraction (-1074)
  else .finite negative (hiddenBit + fraction) (biased - 1075)

/-- The exponent of the last place of the float nearest to `num / den`: the significand then has
at most 53 bits, and no exponent lies below -1074. -/
def lastPlace (num den : Nat) : Int :=
  let estimate : Int := max ((num.log2 : Int) - den.log2 - 53) (-1074)
  let (top, bottom) := scaleRatio num den 2 (-estimate)
  if top / bottom < 2 * hiddenBit then estimate else estimate + 1

/-- Bits of the float nearest to the positive ratio `num / den`. A significand that rounds up to 54
bits carries into the exponent field, and a sum beyond the largest finite float is infinity. -/
def nearestBits (num den : Nat) : Nat :=
  let exponent := lastPlace num den
  let (top, bottom) := scaleRatio num den 2 (-exponent)
  min ((exponent + 1074).toNat * hiddenBit + roundHalfEven top bottom) (topExponent * hiddenBit)

def withSign (negative : Bool) (bits : Nat) : Float :=
  Float.ofBits (bits + if negative then signBit else 0).toUInt64

/-- The float nearest to `num / den` under the given sign. -/
def nearest (negative : Bool) (num den : Nat) : Float :=
  withSign negative (if num = 0 then 0 else nearestBits num den)

def infinity (negative : Bool) : Float := withSign negative (topExponent * hiddenBit)

def notANumber : Float := withSign false (topExponent * hiddenBit + hiddenBit / 2)

end Binary64

end ShapeFont
