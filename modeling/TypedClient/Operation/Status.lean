import TypedClient.Decimal.Text

/-!
# Status codes

The keys of a responses object: a code, a class of codes such as `4XX`, or
`default`. Codes of the second hundred, their class and `default` count as
success.
-/

namespace TypedClient

/-- The status that a response is declared for. -/
inductive Status where
  | code (value : Nat)
  | range (leading : Nat)
  | default
deriving DecidableEq, Repr, Inhabited

namespace Status

/-- A number of at most sixteen bits, perhaps behind a plus sign. -/
def number? (cs : List Char) : Option Nat :=
  let digits := if cs.head? == some '+' then cs.tail else cs
  if digits.isEmpty || !digits.all Char.isDigit then none
  else
    let n := digits.foldl (fun n c => n * 10 + (c.toNat - '0'.toNat)) 0
    if n < twoTo 16 then some n else none

/-- A class of codes: its leading digit and two letters of the same case. -/
def range? : List Char → Option Nat
  | [c, 'X', 'X'] => if '1' ≤ c ∧ c ≤ '5' then some (c.toNat - '0'.toNat) else none
  | [c, 'x', 'x'] => if '1' ≤ c ∧ c ≤ '5' then some (c.toNat - '0'.toNat) else none
  | _ => none

/-- The status that a key stands for. -/
def ofKey? (key : String) : Option Status :=
  if key = "default" then some .default
  else match number? key.toList with
    | some n => if 100 ≤ n ∧ n ≤ 599 then some (.code n) else none
    | none => (range? key.toList).map .range

/-- Whether a response with this status is a success. -/
def isSuccess : Status → Bool
  | .code n => 200 ≤ n && n ≤ 299
  | .range leading => leading == 2
  | .default => true

/-- The status in names of definitions. -/
def label : Status → String
  | .code n => Decimal.natText n
  | .range leading => Decimal.natText leading ++ "XX"
  | .default => "Default"

/-- The status as a key. -/
def text : Status → String
  | .code n => Decimal.natText n
  | .range leading => Decimal.natText leading ++ "XX"
  | .default => "default"

/-- The codes with a customary reason. -/
def codeReasons : List (Nat × String) :=
  [(100, "Continue"), (101, "Switching Protocols"), (200, "OK"), (201, "Created"),
    (202, "Accepted"), (204, "No Content"), (301, "Moved Permanently"), (302, "Found"),
    (304, "Not Modified"), (307, "Temporary Redirect"), (308, "Permanent Redirect"),
    (400, "Bad Request"), (401, "Unauthorized"), (402, "Payment Required"), (403, "Forbidden"),
    (404, "Not Found"), (405, "Method Not Allowed"), (406, "Not Acceptable"),
    (408, "Request Timeout"), (409, "Conflict"), (410, "Gone"), (412, "Precondition Failed"),
    (413, "Payload Too Large"), (415, "Unsupported Media Type"), (422, "Unprocessable Entity"),
    (423, "Locked"), (428, "Precondition Required"), (429, "Too Many Requests"),
    (500, "Internal Server Error"), (501, "Not Implemented"), (502, "Bad Gateway"),
    (503, "Service Unavailable"), (504, "Gateway Timeout")]

/-- The classes with a customary reason. -/
def rangeReasons : List (Nat × String) :=
  [(1, "Informational"), (2, "Success"), (3, "Redirection"), (4, "Client Error"),
    (5, "Server Error")]

/-- The customary reason for a status. -/
def reason? : Status → Option String
  | .code n => codeReasons.lookup n
  | .range leading => rangeReasons.lookup leading
  | .default => none

end Status

end TypedClient
