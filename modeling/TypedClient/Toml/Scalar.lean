import TypedClient.Json.Basic
import TypedClient.Text.Basic
import TypedClient.Text.Digit

/-!
# Scalars of TOML

The words that stand for a single value: truth values, whole numbers of 64 bits,
floating point numbers, dates and times. A word is what stands between blanks and
punctuation; it has one meaning or none. A date or time becomes an object that
holds its text.
-/

namespace TypedClient.Toml

/-- The digits of a number in a base, with single underscores between them. -/
def digitRun? (base : Nat) (cs : List Char) : Option (List Char) :=
  let groups := Text.splitList (· == '_') cs
  if groups.all fun group => !group.isEmpty && group.all fun c => (Text.digitIn? base c).isSome then
    some groups.flatten
  else none

/-- The number that decimal digits denote. -/
def valueOf (digits : List Char) : Nat := (Text.number? 10 digits).getD 0

/-- A whole number, if it fits into 64 bits. -/
def wholeNumber? (negative : Bool) (magnitude : Nat) : Option Json :=
  if magnitude < twoTo 63 ∨ (negative ∧ magnitude = twoTo 63) then
    some (.ofInt (if negative then -Int.ofNat magnitude else Int.ofNat magnitude))
  else none

/-- A whole number in a base other than ten. -/
def based? (base : Nat) (cs : List Char) : Option Json := do
  wholeNumber? false (← Text.number? base (← digitRun? base cs))

/-- The digits before a point or exponent. None may follow a leading zero. -/
def wholeDigits? (cs : List Char) : Option (List Char) := do
  let digits ← digitRun? 10 cs
  if digits.length > 1 && digits.head? == some '0' then failure
  return digits

/-- A sign, if there is one, and what follows it. -/
def takeSign : List Char → Bool × List Char
  | '-' :: cs => (true, cs)
  | '+' :: cs => (false, cs)
  | cs => (false, cs)

/-- An exponent, behind its letter. -/
def exponent? (cs : List Char) : Option Int := do
  let (negative, cs) := takeSign cs
  let n := valueOf (← digitRun? 10 cs)
  return if negative then -Int.ofNat n else Int.ofNat n

/-- The two parts of a list around its first member of `p`; the second one is missing without
such a member. -/
def cutAt (p : Char → Bool) (cs : List Char) : List Char × Option (List Char) :=
  match cs.dropWhile (!p ·) with
  | [] => (cs, none)
  | _ :: rest => (cs.takeWhile (!p ·), some rest)

/-- A floating point number, behind its sign. One above the largest is refused. -/
def float? (negative : Bool) (mantissa : List Char) (power : Option (List Char)) :
    Option Json := do
  let (whole, fraction) := cutAt (· == '.') mantissa
  let whole ← wholeDigits? whole
  let fraction ← match fraction with
    | some cs => digitRun? 10 cs
    | none => some []
  let exponent ← match power with
    | some cs => exponent? cs
    | none => some 0
  let x := Double.ofDecimal negative (valueOf (whole ++ fraction))
    (exponent - Int.ofNat fraction.length)
  if x.isInfinite && !negative then failure
  return .number (.float x)

/-- A decimal number. -/
def decimal? (cs : List Char) : Option Json :=
  let (negative, digits) := takeSign cs
  if digits = ['i', 'n', 'f'] then some (.number (.float (.infinity negative)))
  else if digits = ['n', 'a', 'n'] then some (.number (.float .nan))
  else
    match cutAt (fun c => c == 'e' || c == 'E') digits with
    | (mantissa, some power) => float? negative mantissa (some power)
    | (mantissa, none) =>
      if mantissa.contains '.' then float? negative mantissa none
      else (wholeDigits? mantissa).bind fun ds => wholeNumber? negative (valueOf ds)

/-- A number of exactly two digits up to a limit. -/
def pair? (limit : Nat) : List Char → Option Nat
  | [a, b] =>
    let n := valueOf [a, b]
    if a.isDigit && b.isDigit && n ≤ limit then some n else none
  | _ => none

/-- The number of days in a month. -/
def daysIn (year month : Nat) : Nat :=
  if month = 2 then
    if year % 4 = 0 ∧ (year % 100 ≠ 0 ∨ year % 400 = 0) then 29 else 28
  else if month ∈ [4, 6, 9, 11] then 30
  else 31

/-- Whether a text is a date. -/
def isDate (cs : List Char) : Bool :=
  match Text.splitList (· == '-') cs with
  | [year, month, day] =>
    match pair? 12 month, pair? 31 day with
    | some m, some d =>
      year.length == 4 && year.all Char.isDigit && 1 ≤ m && 1 ≤ d && d ≤ daysIn (valueOf year) m
    | _, _ => false
  | _ => false

/-- Whether a text is a time of day; the last second of a minute may be a leap second. -/
def isTime (cs : List Char) : Bool :=
  match Text.splitList (· == ':') cs with
  | [hour, minute, second] =>
    let (second, fraction) := cutAt (· == '.') second
    (pair? 23 hour).isSome && (pair? 59 minute).isSome && (pair? 60 second).isSome &&
      fraction.all fun digits => !digits.isEmpty && digits.all Char.isDigit
  | _ => false

/-- Whether a text is a distance from universal time. -/
def isOffset (cs : List Char) : Bool :=
  match Text.splitList (· == ':') cs with
  | [hour, minute] => (pair? 23 hour).isSome && (pair? 59 minute).isSome
  | _ => false

/-- Whether a text is a time of day, possibly with its distance from universal time. -/
def isZonedTime (cs : List Char) : Bool :=
  match cutAt (fun c => c == '+' || c == '-') cs with
  | (time, some offset) => isTime time && isOffset offset
  | (time, none) => isTime time || (time.getLast?.any (fun c => c == 'Z' || c == 'z') &&
      isTime time.dropLast)

/-- The number of characters of a date. -/
def dateLength : Nat := 10

/-- Whether a text is a date, a time, or both. -/
def isDateTime (cs : List Char) : Bool :=
  isTime cs || isDate cs ||
    (isDate (cs.take dateLength) &&
      match cs.drop dateLength with
      | c :: time => (c == 'T' || c == 't' || c == ' ') && isZonedTime time
      | [] => false)

/-- The value of a word. -/
def scalar? (word : List Char) : Option Json :=
  match word with
  | ['t', 'r', 'u', 'e'] => some (.bool true)
  | ['f', 'a', 'l', 's', 'e'] => some (.bool false)
  | '0' :: 'x' :: digits => based? 16 digits
  | '0' :: 'o' :: digits => based? 8 digits
  | '0' :: 'b' :: digits => based? 2 digits
  | _ =>
    if isDateTime word then some (.object [("datetime", .string (String.ofList word))])
    else decimal? word

end TypedClient.Toml
