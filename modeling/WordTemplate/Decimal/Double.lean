/-!
Binary numbers of double precision: 53 significant bits and a least exponent, rounded to the nearest
with ties to the even neighbour. Every operation is the exact one followed by one rounding, carried
out on natural numbers; it fails where the result is too large.
-/

namespace WordTemplate.Decimal

/-- The number `mantissa` times two to the `exponent`, without sign. -/
structure Double where
  mantissa : Nat
  exponent : Int
deriving DecidableEq, Repr

namespace Double

def precision : Nat := 53

def leastExponent : Int := -1074

def greatestExponent : Int := 971

def zero : Double := ⟨0, leastExponent⟩

def isZero (number : Double) : Bool :=
  number.mantissa = 0

/-- The nearest integer to a quotient; a half goes to the even neighbour. -/
def roundQuotient (numerator denominator : Nat) : Nat :=
  let quotient := numerator / denominator
  let twice := 2 * (numerator % denominator)
  if twice < denominator then quotient
  else if denominator < twice then quotient + 1
  else if quotient % 2 = 0 then quotient
  else quotient + 1

/-- A quotient in units of two to the `exponent`, as numerator and denominator. -/
def inUnits (numerator denominator : Nat) (exponent : Int) : Nat × Nat :=
  (numerator * Nat.pow 2 (-exponent).toNat, denominator * Nat.pow 2 exponent.toNat)

/-- The exponent for which a positive quotient has all significant bits, or the least one. -/
def exponentFor (numerator denominator : Nat) : Int :=
  let guess : Int := numerator.log2 - denominator.log2 - (precision - 1 : Nat)
  let (scaled, unit) := inUnits numerator denominator guess
  let exponent := if scaled < unit * Nat.pow 2 (precision - 1) then guess - 1 else guess
  max exponent leastExponent

def ofQuotient? (numerator denominator : Nat) : Option Double :=
  if numerator = 0 then some zero
  else
    let exponent := exponentFor numerator denominator
    let (scaled, unit) := inUnits numerator denominator exponent
    let mantissa := roundQuotient scaled unit
    let number : Double :=
      if mantissa = Nat.pow 2 precision then ⟨Nat.pow 2 (precision - 1), exponent + 1⟩
      else ⟨mantissa, exponent⟩
    if greatestExponent < number.exponent then none else some number

def ofNat? (value : Nat) : Option Double :=
  ofQuotient? value 1

def toQuotient (number : Double) : Nat × Nat :=
  (number.mantissa * Nat.pow 2 number.exponent.toNat, Nat.pow 2 (-number.exponent).toNat)

def mul? (left right : Double) : Option Double :=
  let (leftNumerator, leftDenominator) := left.toQuotient
  let (rightNumerator, rightDenominator) := right.toQuotient
  ofQuotient? (leftNumerator * rightNumerator) (leftDenominator * rightDenominator)

def div? (left right : Double) : Option Double :=
  let (leftNumerator, leftDenominator) := left.toQuotient
  let (rightNumerator, rightDenominator) := right.toQuotient
  if rightNumerator = 0 then none
  else ofQuotient? (leftNumerator * rightDenominator) (leftDenominator * rightNumerator)

def maxPower : Nat := 308

/-- Divides by a power of ten, in steps of the greatest one. -/
def divPower? (number : Double) (power : Nat) : Option Double :=
  if power ≤ maxPower then do
    let divisor ← ofNat? (Nat.pow 10 power)
    number.div? divisor
  else if number.isZero then some number
  else do
    let divisor ← ofNat? (Nat.pow 10 maxPower)
    let quotient ← number.div? divisor
    quotient.divPower? (power - maxPower)
termination_by power
decreasing_by
  rename_i large _
  simp only [maxPower] at large ⊢
  omega

def mulPower? (number : Double) (power : Nat) : Option Double :=
  if power ≤ maxPower then do
    let factor ← ofNat? (Nat.pow 10 power)
    number.mul? factor
  else if number.isZero then some number
  else none

/-- Reads digits and a power of ten with two roundings: the digits first, then their product with
the power. -/
def ofDecimal? (digits : Nat) (power : Int) : Option Double := do
  let number ← ofNat? digits
  if 0 ≤ power then number.mulPower? power.toNat else number.divPower? (-power).toNat

end Double

end WordTemplate.Decimal
