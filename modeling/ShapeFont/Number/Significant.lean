import ShapeFont.Number.Binary64

/-!
# Numbers with a fixed count of significant digits

A number is written with the digits of its exact value rounded half to even at the given count of
significant digits, without trailing zeros. Powers of ten from -4 up to below that count are
written out; all others get an exponent with a sign and at least two digits.
-/

namespace ShapeFont.Significant

/-- `digits` is a number of exactly as many digits as asked for; the first of them stands at
`10 ^ exponent`. -/
structure Rounded where
  digits : Nat
  exponent : Int
  deriving Repr, DecidableEq

/-- The power of ten of the first digit of the positive ratio `num / den`. Below one it is the
least `k` with `10 ^ k ≥ den / num`, negated. -/
def leadingPower (num den : Nat) : Int :=
  if den ≤ num then (digitCount (num / den) : Int) - 1
  else -(digitCount ((den + num - 1) / num - 1) : Int)

/-- The first `precision` digits of `num / den`. Rounding up from all nines makes a new first
digit. -/
def round (precision num den : Nat) : Rounded :=
  let power := leadingPower num den
  let (top, bottom) := scaleRatio num den 10 (precision - 1 - power)
  let digits := roundHalfEven top bottom
  if digits < Nat.pow 10 precision then ⟨digits, power⟩
  else ⟨Nat.pow 10 (precision - 1), power + 1⟩

def dropTrailingZeros (digits : List Char) : List Char :=
  (digits.reverse.dropWhile (· == '0')).reverse

def fraction (digits : List Char) : List Char :=
  if digits.isEmpty then [] else '.' :: digits

def positional (digits : List Char) (exponent : Int) : List Char :=
  if exponent < 0 then
    '0' :: fraction (List.replicate (-exponent - 1).toNat '0' ++ digits)
  else
    let whole := exponent.toNat + 1
    digits.take whole ++ List.replicate (whole - digits.length) '0' ++ fraction (digits.drop whole)

def exponentPart (exponent : Int) : List Char :=
  let digits := Nat.toDigits 10 exponent.natAbs
  ['e', if exponent < 0 then '-' else '+'] ++ List.replicate (2 - digits.length) '0' ++ digits

def scientific (digits : List Char) (exponent : Int) : List Char :=
  digits.take 1 ++ fraction (digits.drop 1) ++ exponentPart exponent

def layout (precision : Nat) (rounded : Rounded) : List Char :=
  let digits := dropTrailingZeros (Nat.toDigits 10 rounded.digits)
  if rounded.exponent < -4 ∨ (precision : Int) ≤ rounded.exponent then
    scientific digits rounded.exponent
  else positional digits rounded.exponent

def magnitude (precision significand : Nat) (exponent : Int) : List Char :=
  let (num, den) := scaleRatio significand 1 2 exponent
  layout precision (round precision num den)

def signed (negative : Bool) (text : List Char) : List Char :=
  if negative then '-' :: text else text

/-- The text of a float. Zero keeps its sign; what is not a number has none. -/
def text (precision : Nat) (value : Float) : String :=
  String.ofList <| match Binary64.ofFloat value with
    | .nan => ['n', 'a', 'n']
    | .infinite negative => signed negative ['i', 'n', 'f']
    | .finite negative significand exponent =>
        signed negative <| if significand = 0 then ['0'] else magnitude precision significand exponent

end ShapeFont.Significant
