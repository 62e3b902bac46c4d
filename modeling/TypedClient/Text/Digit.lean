/-!
# Digits

The values of the digits `0` to `9` and, for bases above ten, of the letters `a` to
`f` in either case.
-/

namespace TypedClient.Text

/-- The value of a digit or of one of the letters `a` to `f`. -/
def digitValue? (c : Char) : Option Nat :=
  if c.isDigit then some (c.toNat - '0'.toNat)
  else if 'a' ≤ c ∧ c ≤ 'f' then some (c.toNat - 'a'.toNat + 10)
  else if 'A' ≤ c ∧ c ≤ 'F' then some (c.toNat - 'A'.toNat + 10)
  else none

/-- The value of a digit in a base. -/
def digitIn? (base : Nat) (c : Char) : Option Nat := (digitValue? c).filter (· < base)

/-- The number that digits denote in a base. No digits at all denote zero. -/
def number? (base : Nat) (digits : List Char) : Option Nat :=
  digits.foldlM (fun n c => (digitIn? base c).map (n * base + ·)) 0

/-- The character whose number the digits denote in base sixteen, if there is one. -/
def hexChar? (digits : List Char) : Option Char := do
  let n ← number? 16 digits
  if n.isValidChar then some (Char.ofNat n) else none

end TypedClient.Text
