import TypedClient.Json.Basic
import TypedClient.Text.Digit

/-!
# Meaning of scalars

What a scalar without quotes stands for: nothing, a truth value, a number, or else
its text. Whole numbers may be written in four bases; one that does not fit into 64
bits has no meaning. Digits behind a leading zero are no number.
-/

namespace TypedClient.Yaml

/-- What a text may stand for. -/
inductive Meaning where
  | value (value : Json)
  /-- A whole number that is too large. -/
  | overflow
deriving Repr, Inhabited

/-- Whether a text stands for nothing. -/
def isNull (s : String) : Bool := ["null", "Null", "NULL", "~"].contains s

/-- The truth value of a text. -/
def bool? (s : String) : Option Bool :=
  if ["true", "True", "TRUE"].contains s then some true
  else if ["false", "False", "FALSE"].contains s then some false
  else none

/-- Whether a text consists of digits behind a leading zero. -/
def isPadded (cs : List Char) : Bool :=
  let digits := match cs with
    | '-' :: rest => rest
    | '+' :: rest => rest
    | _ => cs
  match digits with
  | '0' :: rest => !rest.isEmpty && rest.all Char.isDigit
  | _ => false

/-- The number of at least one digit in a base. -/
def digits? (base : Nat) (cs : List Char) : Option Nat :=
  if cs.isEmpty then none else Text.number? base cs

/-- The magnitude of a whole number, behind its sign. -/
def magnitude? : List Char → Option Nat
  | '0' :: 'x' :: cs => digits? 16 cs
  | '0' :: 'o' :: cs => digits? 8 cs
  | '0' :: 'b' :: cs => digits? 2 cs
  | cs => if isPadded cs then none else digits? 10 cs

/-- A whole number, and whether it is written with a minus. -/
def signed? : List Char → Option (Bool × Nat)
  | '-' :: cs => (magnitude? cs).map (true, ·)
  | '+' :: cs => (magnitude? cs).map (false, ·)
  | cs => (magnitude? cs).map (false, ·)

/-- What a text stands for if it is a whole number. One of more than 128 bits is none. -/
def whole? (cs : List Char) : Option Meaning :=
  match signed? cs with
  | none => none
  | some (true, n) =>
    if n ≤ twoTo 63 then some (.value (.ofInt (-Int.ofNat n)))
    else if n ≤ twoTo 127 then some .overflow
    else none
  | some (false, n) =>
    if n < twoTo 64 then some (.value (.ofNat n))
    else if n < twoTo 128 then some .overflow
    else none

/-- The decimal number of a text with a point, an exponent or both: digits on at least one side of
the point, and digits in the exponent. -/
def decimal? (negative : Bool) (cs : List Char) : Option Double := do
  let whole := cs.takeWhile Char.isDigit
  let (fraction, rest) := match cs.dropWhile Char.isDigit with
    | '.' :: rest => (rest.takeWhile Char.isDigit, rest.dropWhile Char.isDigit)
    | rest => ([], rest)
  let significand ← digits? 10 (whole ++ fraction)
  let exponent ← match rest with
    | [] => some 0
    | e :: rest =>
      if e = 'e' ∨ e = 'E' then
        match rest with
        | '-' :: ds => (digits? 10 ds).map fun n => -Int.ofNat n
        | '+' :: ds => (digits? 10 ds).map Int.ofNat
        | ds => (digits? 10 ds).map Int.ofNat
      else none
  return .ofDecimal negative significand (exponent - Int.ofNat fraction.length)

/-- The floating point number of a text. A decimal beyond the largest one is none. -/
def float? (s : String) : Option Double :=
  if [".nan", ".NaN", ".NAN"].contains s then some .nan
  else
    let (negative, cs) := match s.toList with
      | '-' :: cs => (true, cs)
      | '+' :: cs => (false, cs)
      | cs => (false, cs)
    if [".inf", ".Inf", ".INF"].contains (String.ofList cs) then some (.infinity negative)
    else (decimal? negative cs).filter (·.isFinite)

/-- What a scalar without quotes and tag stands for; nothing if that cannot be said. -/
def plainValue? (s : String) : Option Json :=
  if s.isEmpty || isNull s then some .null
  else
    match bool? s with
    | some b => some (.bool b)
    | none =>
      match whole? s.toList with
      | some (.value v) => some v
      | some .overflow => none
      | none =>
        match if isPadded s.toList then none else float? s with
        | some x => some (.ofDouble x)
        | none => some (.string s)

/-- The tag of the common types. -/
def commonTag (type : String) : String := "tag:yaml.org,2002:" ++ type

/-- What a scalar with a tag stands for. Tags of the document's own have no meaning, and those of
other types leave the text as it is. -/
def taggedValue? (tag s : String) : Option Json :=
  if tag.toList.head? = some '!' then none
  else if tag = commonTag "bool" then (bool? s).map .bool
  else if tag = commonTag "int" then
    match whole? s.toList with
    | some (.value v) => some v
    | _ => none
  else if tag = commonTag "float" then (float? s).map .ofDouble
  else if tag = commonTag "null" then if isNull s then some .null else none
  else some (.string s)

end TypedClient.Yaml
