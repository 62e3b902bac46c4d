import TypedClient.Decimal.Double

/-!
# Shortest decimals

The decimal with the fewest digits that reads back as a given binary64 number;
of several, the nearest to it. The reals that round to the number form an
interval. For one digit, two digits and so on, the two neighbours of the number
on that decimal grid are tested against the interval in exact arithmetic, and
the first grid with a hit is taken.
-/

namespace TypedClient

/-- The number `digits * 10 ^ exponent`. -/
structure Decimal where
  digits : Nat
  exponent : Int
deriving DecidableEq, Repr

namespace Double

/-- The reals that round to a number, as bounds over a common denominator. -/
structure Interval where
  lower : Nat
  value : Nat
  upper : Nat
  den : Nat
  closed : Bool

/-- The rounding interval of a finite positive number. Below a power of two the numbers lie twice
as dense, so that the lower half of the interval is half as wide. -/
def interval (x : Double) : Interval :=
  let s := x.scaled
  let m := 4 * s.significand
  let low := if s.significand = twoTo 52 ∧ -1074 < s.exponent then m - 1 else m - 2
  let closed := s.significand % 2 = 0
  if 0 ≤ s.exponent then
    let unit := twoTo s.exponent.toNat
    ⟨low * unit, m * unit, (m + 2) * unit, 4, closed⟩
  else
    ⟨low, m, m + 2, 4 * twoTo (-s.exponent).toNat, closed⟩

/-- Whether `digits * 10 ^ exponent` lies in the interval. -/
def Interval.contains (i : Interval) (digits : Nat) (exponent : Int) : Bool :=
  let point := digits * tenTo exponent.toNat * i.den
  let scale := tenTo (-exponent).toNat
  if i.closed then i.lower * scale ≤ point && point ≤ i.upper * scale
  else i.lower * scale < point && point < i.upper * scale

/-- The nearer neighbour of the value on the grid of multiples of `10 ^ exponent` that lies in the
interval; of two equally near ones the even one. -/
def Interval.onGrid? (i : Interval) (exponent : Int) : Option Nat :=
  let num := i.value * tenTo (-exponent).toNat
  let den := i.den * tenTo exponent.toNat
  let below := num / den
  let rest := num % den
  let belowIn := i.contains below exponent
  let aboveIn := i.contains (below + 1) exponent
  if belowIn && aboveIn then
    some (if 2 * rest < den then below
      else if den < 2 * rest then below + 1
      else if below % 2 = 0 then below else below + 1)
  else if belowIn then some below
  else if aboveIn then some (below + 1)
  else none

/-- The number of decimal digits of a positive natural number. -/
def digitCount (n : Nat) : Nat := (Nat.toDigits 10 n).length

/-- The exponent of the leading decimal digit of `num / den`. -/
def leadingExponent (num den : Nat) : Int :=
  if den ≤ num then Int.ofNat (digitCount (num / den)) - 1
  else
    -- `den / num` lies between two powers of ten.
    let count := digitCount (den / num)
    if den ≤ num * tenTo (count - 1) then -(Int.ofNat (count - 1)) else -(Int.ofNat count)

/-- A decimal without trailing zeros in its digits. -/
def stripZeros : Nat → Decimal → Decimal
  | 0, d => d
  | fuel + 1, d =>
    if d.digits ≠ 0 ∧ d.digits % 10 = 0 then stripZeros fuel ⟨d.digits / 10, d.exponent + 1⟩ else d

/-- The shortest decimal that reads back as the magnitude of a finite number. Seventeen digits
always suffice. -/
def shortest (x : Double) : Decimal :=
  if x.isZero then ⟨0, 0⟩
  else
    let i := x.interval
    let top := leadingExponent i.value i.den
    let grids := (List.range 17).map fun k => top - Int.ofNat k
    match grids.findSome? fun e => (i.onGrid? e).map (Decimal.mk · e) with
    | some d => stripZeros 20 d
    | none => ⟨0, 0⟩

end Double

end TypedClient
