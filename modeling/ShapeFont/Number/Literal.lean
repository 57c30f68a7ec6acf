import ShapeFont.Bytes
import ShapeFont.Number.Binary64

/-!
# Reading a number from the front of a text

White space and a sign may come first. Then follow decimal digits with an optional point and an
optional power of ten after `e`, or `0x` with hexadecimal digits and an optional power of two after
`p`, or one of the words `inf`, `infinity` and `nan` in any case. The longest such beginning counts
and what comes after it is ignored; a text that begins with no number reads as zero. The value is
the float nearest to the number written, ties to even.
-/

namespace ShapeFont.Literal

def isSpace (char : Char) : Bool :=
  char == ' ' || (9 ≤ char.toNat && char.toNat ≤ 13)

def digitValue? (char : Char) : Option Nat :=
  if '0' ≤ char ∧ char ≤ '9' then some (char.toNat - '0'.toNat)
  else if 'a' ≤ char ∧ char ≤ 'f' then some (char.toNat - 'a'.toNat + 10)
  else if 'A' ≤ char ∧ char ≤ 'F' then some (char.toNat - 'A'.toNat + 10)
  else none

def isDigit (base : Nat) (char : Char) : Bool :=
  (digitValue? char).any (· < base)

def value (base : Nat) (digits : List Char) : Nat :=
  digits.foldl (fun number digit => number * base + (digitValue? digit).getD 0) 0

/-- The digits around an optional point as one number, how many of them stand behind the point,
and the rest of the text. At least one digit is needed. -/
def mantissa? (base : Nat) (text : List Char) : Option (Nat × Nat × List Char) :=
  let whole := text.takeWhile (isDigit base)
  let afterWhole := text.dropWhile (isDigit base)
  let (decimals, rest) := match afterWhole with
    | '.' :: tail => (tail.takeWhile (isDigit base), tail.dropWhile (isDigit base))
    | _ => ([], afterWhole)
  if whole.isEmpty && decimals.isEmpty then none
  else some (value base (whole ++ decimals), decimals.length, rest)

def splitSign : List Char → Bool × List Char
  | '-' :: rest => (true, rest)
  | '+' :: rest => (false, rest)
  | text => (false, text)

/-- The power after a mark such as `e`; a mark without digits is not part of the number. -/
def power (mark : Char) : List Char → Int
  | [] => 0
  | char :: rest =>
      if char.toLower == mark then
        let (negative, digits) := splitSign rest
        let size : Int := value 10 (digits.takeWhile (isDigit 10))
        if negative then -size else size
      else 0

/-- The float nearest to `number * base ^ exponent`. Beyond the bounds tested first the result is
infinity or zero in both bases, and the power is not worked out. -/
def scaled (negative : Bool) (base number : Nat) (exponent : Int) : Float :=
  if number = 0 ∨ exponent < -(1100 + number.log2 : Int) then Binary64.nearest negative 0 1
  else if 1100 < exponent then Binary64.infinity negative
  else
    let (num, den) := scaleRatio number 1 base exponent
    Binary64.nearest negative num den

def decimal? (negative : Bool) (text : List Char) : Option Float := do
  let (number, decimals, rest) ← mantissa? 10 text
  some (scaled negative 10 number (power 'e' rest - decimals))

/-- Each hexadecimal digit behind the point is worth four binary places. -/
def hexadecimal? (negative : Bool) (text : List Char) : Option Float :=
  match text with
  | '0' :: mark :: digits =>
      if mark.toLower == 'x' then do
        let (number, places, rest) ← mantissa? 16 digits
        some (scaled negative 2 number (power 'p' rest - 4 * places))
      else none
  | _ => none

def startsWith (word text : List Char) : Bool :=
  (text.take word.length).map Char.toLower == word

/-- The infinity word may be cut to its first three letters. -/
def word? (negative : Bool) (text : List Char) : Option Float :=
  if startsWith ['i', 'n', 'f'] text then some (Binary64.infinity negative)
  else if startsWith ['n', 'a', 'n'] text then some Binary64.notANumber
  else none

/-- Each byte is a character by itself. None that a number can have is above 127. -/
def read (text : Bytes) : Float :=
  let chars := text.map fun byte => Char.ofNat byte.toNat
  let (negative, unsigned) := splitSign (chars.dropWhile isSpace)
  (word? negative unsigned <|> hexadecimal? negative unsigned <|> decimal? negative unsigned).getD
    (Binary64.nearest false 0 1)

end ShapeFont.Literal
