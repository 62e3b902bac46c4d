/-!
# Binary floating point numbers

A number of the format binary64, kept as its 64 bits so that equality is
decidable and means "the same number, sign of zero included". Rounding is done
in exact arithmetic on natural numbers: `ofRatio` is the binary64 number nearest
to a quotient, ties going to the even significand. Products and quotients are
defined through it.
-/

namespace TypedClient

/-- Two to the power of `n`. -/
abbrev twoTo (n : Nat) : Nat := Nat.pow 2 n

/-- Ten to the power of `n`. -/
abbrev tenTo (n : Nat) : Nat := Nat.pow 10 n

/-- A binary64 number, given by its bits. -/
structure Double where
  bits : UInt64
deriving DecidableEq, Repr, Inhabited

namespace Double

/-- A finite positive number or zero: `significand * 2 ^ exponent`. -/
structure Scaled where
  significand : Nat
  exponent : Int
deriving DecidableEq, Repr

/-- The sign bit. -/
def isNegative (x : Double) : Bool := x.bits.toNat / twoTo 63 = 1

/-- The number without its sign bit. -/
def magnitudeBits (x : Double) : Nat := x.bits.toNat % twoTo 63

/-- Neither infinite nor a NaN. -/
def isFinite (x : Double) : Bool := x.magnitudeBits / twoTo 52 < 2047

/-- The exponent field is all ones and the fraction is zero. -/
def isInfinite (x : Double) : Bool := x.magnitudeBits = 2047 * twoTo 52

/-- The exponent field is all ones and the fraction is not zero. -/
def isNaN (x : Double) : Bool := 2047 * twoTo 52 < x.magnitudeBits

/-- Zero of either sign. -/
def isZero (x : Double) : Bool := x.magnitudeBits = 0

/-- The magnitude of a finite number, exactly. -/
def scaled (x : Double) : Scaled :=
  let field := x.magnitudeBits / twoTo 52
  let fraction := x.magnitudeBits % twoTo 52
  if field = 0 then ⟨fraction, -1074⟩
  else ⟨twoTo 52 + fraction, Int.ofNat field - 1075⟩

/-- The number with the given sign and magnitude bits. -/
def ofMagnitude (negative : Bool) (magnitude : Nat) : Double :=
  ⟨UInt64.ofNat (magnitude + if negative then twoTo 63 else 0)⟩

/-- Infinity of the given sign. -/
def infinity (negative : Bool) : Double := ofMagnitude negative (2047 * twoTo 52)

/-- The number that is no number. -/
def nan : Double := ofMagnitude false (2047 * twoTo 52 + twoTo 51)

/-- Zero of the given sign. -/
def zero (negative : Bool) : Double := ofMagnitude negative 0

/-- The number with the other sign. -/
def neg (x : Double) : Double := ofMagnitude (!x.isNegative) x.magnitudeBits

/-- The quotient, rounded to the nearest natural number; a tie goes to the even one. -/
def roundDiv (num den : Nat) : Nat :=
  let q := num / den
  let r := num % den
  if 2 * r < den then q
  else if den < 2 * r then q + 1
  else if q % 2 = 0 then q else q + 1

/-- `num / den` in units of `2 ^ e`, rounded. -/
def roundScaled (num den : Nat) (e : Int) : Nat :=
  if 0 ≤ e then roundDiv num (den * twoTo e.toNat) else roundDiv (num * twoTo (-e).toNat) den

/-- The exponent `e` with `2 ^ 52 ≤ num / den / 2 ^ e < 2 ^ 53`, but never below the least one. -/
def unitExponent (num den : Nat) : Int :=
  let guess : Int := Int.ofNat num.log2 - Int.ofNat den.log2 - 52
  -- The quotient of the leading powers of two is off by at most a factor of two.
  let atLeast : Bool :=
    if 0 ≤ guess then den * twoTo guess.toNat * twoTo 52 ≤ num
    else den * twoTo 52 ≤ num * twoTo (-guess).toNat
  max (-1074) (if atLeast then guess else guess - 1)

/-- The magnitude bits of the number nearest to `num / den`; the bits of infinity if it is too
large. -/
def magnitudeOfRatio (num den : Nat) : Nat :=
  if num = 0 then 0
  else
    let e := unitExponent num den
    let m := roundScaled num den e
    -- The exponent field counts from the least exponent; a carry out of the significand is
    -- a carry into the field.
    let field := (e + 1074).toNat
    min (field * twoTo 52 + m) (2047 * twoTo 52)

/-- The binary64 number nearest to `num / den`, with the given sign. -/
def ofRatio (negative : Bool) (num den : Nat) : Double :=
  ofMagnitude negative (magnitudeOfRatio num den)

/-- The binary64 number nearest to a natural number. -/
def ofNat (n : Nat) : Double := ofRatio false n 1

/-- The binary64 number nearest to an integer. -/
def ofInt (n : Int) : Double := ofRatio (n < 0) n.natAbs 1

/-- The binary64 number nearest to `digits * 10 ^ exponent`. An exponent far outside the range of
the format is not worked out. -/
def ofDecimal (negative : Bool) (digits : Nat) (exponent : Int) : Double :=
  if digits = 0 then zero negative
  else if 400 < exponent then infinity negative
  else
    -- Below this the value is less than half of the least positive number.
    let tiny : Int := -400 - Int.ofNat (digits.log2 + 1)
    if exponent < tiny then zero negative
    else if 0 ≤ exponent then ofRatio negative (digits * tenTo exponent.toNat) 1
    else ofRatio negative digits (tenTo (-exponent).toNat)

/-- The product of the magnitudes of two finite numbers, rounded. -/
def mulMagnitude (x y : Double) : Double :=
  let a := x.scaled
  let b := y.scaled
  let e := a.exponent + b.exponent
  if 0 ≤ e then ofRatio false (a.significand * b.significand * twoTo e.toNat) 1
  else ofRatio false (a.significand * b.significand) (twoTo (-e).toNat)

/-- The quotient of the magnitudes of two finite numbers, rounded; the divisor is not zero. -/
def divMagnitude (x y : Double) : Double :=
  let a := x.scaled
  let b := y.scaled
  let e := a.exponent - b.exponent
  if 0 ≤ e then ofRatio false (a.significand * twoTo e.toNat) b.significand
  else ofRatio false a.significand (b.significand * twoTo (-e).toNat)

/-- Equality of numbers: the two zeros are equal and a NaN differs from everything. -/
def same (x y : Double) : Bool :=
  !x.isNaN && (x == y || (x.isZero && y.isZero))

end Double

end TypedClient
