import TypedClient.Json.Basic

/-!
# Reading JSON numbers

A numeral without point and exponent is a whole number if it fits into 64 bits,
`-0` excepted. Every other numeral is a binary64 number: the leading digits that
fit into 64 bits are rounded first, and the result is then scaled by a power of
ten. A numeral beyond the largest binary64 number is refused.
-/

namespace TypedClient.Json.Number

/-- A decimal in the course of reading: the digits taken so far, and the power of ten. -/
structure Draft where
  significand : Nat
  exponent : Int

/-- The digits that still fit into 64 bits. -/
def limit : Nat := twoTo 64

/-- The value of a decimal digit. -/
def digitValue (c : Char) : Nat := c.toNat - '0'.toNat

/-- Takes the digits before the point. From the first that no longer fits, every digit only
raises the power of ten. -/
def takeWhole (d : Draft) : List Char → Draft
  | [] => d
  | c :: cs =>
    let next := d.significand * 10 + digitValue c
    if next < limit then takeWhole ⟨next, d.exponent⟩ cs
    else ⟨d.significand, d.exponent + Int.ofNat (c :: cs).length⟩

/-- Takes the digits after the point. From the first that no longer fits, they are dropped. -/
def takeFraction (d : Draft) : List Char → Draft
  | [] => d
  | c :: cs =>
    let next := d.significand * 10 + digitValue c
    if next < limit then takeFraction ⟨next, d.exponent - 1⟩ cs else d

/-- Divides by a power of ten, at most `10 ^ 308` at a time; after two full steps nothing is
left of 64 bits. -/
def scaleDown : Nat → Double → Nat → Double
  | 0, x, _ => x
  | steps + 1, x, power =>
    if power ≤ 308 then x.divMagnitude (.ofDecimal false 1 power)
    else scaleDown steps (x.divMagnitude (.ofDecimal false 1 308)) (power - 308)

/-- The magnitude of a decimal, refused if it is too large. -/
def Draft.magnitude? (d : Draft) : Option Double :=
  let x := Double.ofNat d.significand
  if d.significand = 0 then some x
  else if d.exponent < 0 then some (scaleDown 4 x d.exponent.natAbs)
  else if 308 < d.exponent then none
  else
    let y := x.mulMagnitude (.ofDecimal false 1 d.exponent)
    if y.isFinite then some y else none

/-- The number with the given digits; `fraction` are the digits after the point, `exponent` is the
part after the letter `e` with its sign. -/
def ofDigits? (negative : Bool) (whole : List Char) (fraction : Option (List Char))
    (exponent : Option (Bool × List Char)) : Option Number :=
  let w := takeWhole ⟨0, 0⟩ whole
  let signed (x : Double) : Number := .float (if negative then x.neg else x)
  if fraction.isNone && exponent.isNone && w.exponent == 0 then
    if negative then
      if w.significand = 0 ∨ twoTo 63 < w.significand then some (signed (.ofNat w.significand))
      else some (.int (-Int.ofNat w.significand))
    else some (.int (Int.ofNat w.significand))
  else
    let d := takeFraction w (fraction.getD [])
    let power := match exponent with
      | none => 0
      | some (negativePower, digits) =>
        let n := digits.foldl (fun n c => min (n * 10 + digitValue c) limit) 0
        if negativePower then -Int.ofNat n else Int.ofNat n
    (Draft.magnitude? ⟨d.significand, d.exponent + power⟩).map signed

end TypedClient.Json.Number
