import TypedClient.Decimal.Shortest

/-!
# Decimal notation

The two ways in which a binary64 number is written: with an exponent where it
would be long, as in JSON text, and without any exponent, as in identifiers and
messages. Both print the digits of the shortest decimal.
-/

namespace TypedClient

namespace Decimal

/-- A natural number in decimal digits. -/
def natText (n : Nat) : String := String.ofList (Nat.toDigits 10 n)

/-- An integer in decimal digits. -/
def intText (n : Int) : String :=
  if n < 0 then "-" ++ natText n.natAbs else natText n.natAbs

/-- Where the notation changes and how its parts are written. -/
structure Layout where
  /-- The least exponent of the leading digit that is written without an exponent. -/
  leastFixed : Int
  /-- The first exponent of the leading digit that is written with an exponent. -/
  firstScientific : Int
  /-- Whether a whole number ends in `.0`. -/
  pointZero : Bool

/-- JSON text: positional for exponents of the leading digit from -5 to 15. -/
def Layout.json : Layout := ⟨-5, 16, true⟩

/-- Positional notation throughout, a whole number without a point. -/
def Layout.plain : Layout := ⟨-1000, 1000, false⟩

/-- Positional notation throughout, a whole number with `.0`. -/
def Layout.pointed : Layout := ⟨-1000, 1000, true⟩

/-- The digits without an exponent. -/
def fixedText (layout : Layout) (d : Decimal) : List Char :=
  let ds := Nat.toDigits 10 d.digits
  if 0 ≤ d.exponent then
    ds ++ List.replicate d.exponent.toNat '0' ++ (if layout.pointZero then ['.', '0'] else [])
  else
    let places := (-d.exponent).toNat
    let padded := List.replicate (places + 1 - ds.length) '0' ++ ds
    padded.take (padded.length - places) ++ '.' :: padded.drop (padded.length - places)

/-- One digit, a point and the other digits, then the exponent with its sign. -/
def scientificText (d : Decimal) (top : Int) : List Char :=
  let mantissa := match Nat.toDigits 10 d.digits with
    | [] => []
    | [c] => [c]
    | c :: cs => c :: '.' :: cs
  let exponent := (if top < 0 then '-' else '+') :: Nat.toDigits 10 top.natAbs
  mantissa ++ 'e' :: exponent

/-- A decimal in the given layout. -/
def text (layout : Layout) (d : Decimal) : List Char :=
  let top := d.exponent + Int.ofNat (Double.digitCount d.digits) - 1
  if d.digits = 0 ∨ (layout.leastFixed ≤ top ∧ top < layout.firstScientific) then
    fixedText layout d
  else
    scientificText d top

end Decimal

/-- A binary64 number in the given layout. -/
def Double.text (layout : Decimal.Layout) (x : Double) : String :=
  if x.isNaN then "NaN"
  else
    let body := if x.isInfinite then ['i', 'n', 'f'] else x.shortest.text layout
    String.ofList (if x.isNegative then '-' :: body else body)

end TypedClient
