import WordTemplate.Decimal.Double

/-!
The fewest decimal digits that read back as the same double, and of those the nearest to it. They
are written with a point for magnitudes from 0.00001 up to below 10^16, and with an exponent
otherwise.
-/

namespace WordTemplate.Decimal

/-- Digits without trailing zeros, and where the point stands: the number is `0.digits` times ten to
the `point`. -/
structure Digits where
  digits : List Char
  point : Int
deriving DecidableEq, Repr

namespace Double

/-- The power of ten of the leading digit of a positive number. -/
def decimalExponent (number : Double) : Int :=
  let (numerator, denominator) := number.toQuotient
  if denominator ≤ numerator then (toString (numerator / denominator)).length - 1
  else
    let places := (toString (denominator / numerator)).length
    if numerator * Nat.pow 10 (places - 1) = denominator then -(places - 1 : Nat) else -places

/-- The multiple of ten to the `power` that is nearest to a number, if it reads back as the number.
Quarters of the last bit are counted, since the next smaller number may be half as far away as the
next greater one. -/
def nearestMultiple? (number : Double) (power : Int) : Option Nat :=
  let scale := Nat.pow 2 (number.exponent - 2).toNat * Nat.pow 10 (-power).toNat
  let unit := Nat.pow 2 (2 - number.exponent).toNat * Nat.pow 10 power.toNat
  let value := 4 * number.mantissa * scale
  let atBoundary := number.mantissa = Nat.pow 2 (precision - 1) && number.exponent != leastExponent
  let low := value - (if atBoundary then 1 else 2) * scale
  let high := value + 2 * scale
  let readsBack (multiple : Nat) : Bool :=
    if number.mantissa % 2 = 0 then low ≤ multiple * unit && multiple * unit ≤ high
    else low < multiple * unit && multiple * unit < high
  let below := value / unit
  let above := below + 1
  let nearest :=
    if value - below * unit < above * unit - value then below
    else if above * unit - value < value - below * unit then above
    else if below % 2 = 0 then below
    else above
  let other := if nearest = below then above else below
  if readsBack nearest then some nearest else if readsBack other then some other else none

def searchDigits (number : Double) : Nat → Nat → Nat × Int
  | 0, count =>
    let power := number.decimalExponent - count
    (number.toQuotient.1 / (number.toQuotient.2 * Nat.pow 10 power.toNat), power)
  | attempts + 1, count =>
    let power := number.decimalExponent - count
    match number.nearestMultiple? power with
    | some multiple => (multiple, power)
    | none => searchDigits number attempts (count + 1)

/-- The digits of a positive number; seventeen are always enough. -/
def shortest (number : Double) : Digits :=
  let (multiple, power) := number.searchDigits 17 0
  let digits := (toString multiple).toList
  ⟨(digits.reverse.dropWhile (· = '0')).reverse, digits.length + power⟩

end Double

namespace Digits

/-- Numbers from this power of ten on are written with an exponent. -/
def positionalLimit : Int := 16

/-- Numbers that need more zeros behind the point are written with an exponent. -/
def maxLeadingZeros : Int := 4

def zeros (count : Int) : List Char :=
  List.replicate count.toNat '0'

def writeExponent (exponent : Int) : List Char :=
  (if exponent < 0 then '-' else '+') :: (toString exponent.natAbs).toList

def write (number : Digits) : List Char :=
  let count : Int := number.digits.length
  if 0 < number.point && number.point ≤ positionalLimit then
    if count ≤ number.point then
      number.digits ++ zeros (number.point - count) ++ ['.', '0']
    else
      number.digits.take number.point.toNat ++ '.' :: number.digits.drop number.point.toNat
  else if -maxLeadingZeros ≤ number.point && number.point ≤ 0 then
    '0' :: '.' :: zeros (-number.point) ++ number.digits
  else
    let fraction := number.digits.drop 1
    number.digits.take 1 ++ (if fraction.isEmpty then [] else '.' :: fraction) ++
      'e' :: writeExponent (number.point - 1)

end Digits

/-- The text of a double, which always shows that it is not an integer. -/
def Double.write (number : Double) : List Char :=
  if number.isZero then ['0', '.', '0'] else number.shortest.write

end WordTemplate.Decimal
