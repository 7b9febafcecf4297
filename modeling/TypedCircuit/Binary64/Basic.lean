/-!
# Binary64 numbers, held exactly

A document may hold numbers with a fraction or an exponent. They are kept with the
precision of the 64-bit binary format: a sign, a mantissa of at most 53 bits and a
binary exponent, all as exact integers, so equality and rounding are plain arithmetic.

A canonical number has either a full 53-bit mantissa or the least exponent, which makes
equal magnitudes equal triples. The only two numbers that are equal in value and differ
in form are the two zeros.

## Rounding

`ofRatio` rounds a quotient of natural numbers to the nearest representable magnitude,
a tie to the even mantissa, and answers `none` past the largest finite one. A decimal
literal is such a quotient, so `ofDecimal` rounds it once and exactly.
-/

namespace TypedCircuit

/-- The number `± mantissa * 2 ^ exponent`. -/
structure Binary64 where
  negative : Bool
  mantissa : Nat
  exponent : Int
deriving DecidableEq, Inhabited

namespace Binary64

/-- The number of mantissas, `2 ^ 53`. -/
def mantissaBound : Nat := 0x20000000000000

/-- The least mantissa of full length, `2 ^ 52`. -/
def fullMantissa : Nat := 0x10000000000000

/-- The exponent of the smallest numbers. -/
def leastExponent : Int := -1074

/-- The exponent of the largest finite numbers. -/
def greatestExponent : Int := 971

/-- Zero, with either sign. -/
def zero (negative : Bool) : Binary64 := ⟨negative, 0, leastExponent⟩

/-- Whether the magnitude is zero. -/
def isZero (x : Binary64) : Bool := x.mantissa == 0

/-- Equality of values; the two zeros are one value. -/
def sameValue (x y : Binary64) : Bool :=
  if x.isZero then y.isZero else x == y

/-- The factor `2 ^ e` of a numerator, for an exponent that is not negative. -/
def scaleUp (e : Int) : Nat := Nat.pow 2 e.toNat

/-- The exponent at which the integer part of `num / den / 2 ^ exponent` has 53 bits,
but not less than the least exponent. -/
def roundingExponent (num den : Nat) : Int :=
  let guess : Int := (Nat.log2 num : Int) - (Nat.log2 den : Int) - 53
  let quotient := num * scaleUp (-guess) / (den * scaleUp guess)
  max leastExponent (if quotient < mantissaBound then guess else guess + 1)

/-- The magnitude nearest to `num / den`, a tie going to the even mantissa; `none` if
that is not finite or the denominator is zero. -/
def ofRatio (num den : Nat) : Option Binary64 :=
  if den = 0 then none
  else if num = 0 then some (zero false)
  else
    let e := roundingExponent num den
    let n := num * scaleUp (-e)
    let d := den * scaleUp e
    let q := n / d
    let r := n % d
    let m := if 2 * r > d || (2 * r == d && q % 2 == 1) then q + 1 else q
    let (m, e) := if m = mantissaBound then (fullMantissa, e + 1) else (m, e)
    if e > greatestExponent then none else some ⟨false, m, e⟩

/-- The same magnitude with the given sign. -/
def withSign (negative : Bool) (x : Binary64) : Binary64 := { x with negative }

/-! ## Decimal literals -/

/-- The factor `10 ^ s` of a numerator, for an exponent that is not negative. -/
def scaleTen (s : Int) : Nat := Nat.pow 10 s.toNat

/-- A decimal exponent past all finite magnitudes, and, negated, below all of them that
do not round to zero. -/
def decimalReach : Int := 400

/--
The magnitude nearest to `digits * 10 ^ exponent`, a tie going to the even mantissa;
`none` if that is not finite.

Literals far outside the finite magnitudes are settled by their exponent. The digits are
less than `10 ^ (log2 digits + 1)`, so what is left is a quotient of numbers that are not
much longer than the literal.
-/
def ofDecimal (digits : Nat) (exponent : Int) : Option Binary64 :=
  if digits = 0 then some (zero false)
  else if exponent > decimalReach then none
  else if exponent + (Nat.log2 digits : Int) < -decimalReach then some (zero false)
  else ofRatio (digits * scaleTen exponent) (scaleTen (-exponent))

end Binary64

end TypedCircuit
