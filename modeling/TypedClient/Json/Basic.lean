import TypedClient.Decimal.Double

/-!
# JSON trees

A JSON value with its members in the order in which they were declared. Whole
numbers and binary floating point numbers are kept apart, since `1` and `1.0`
are read and written differently. `Members.set` is how an object comes about: a
repeated key keeps its first place and takes the last value.
-/

namespace TypedClient

/-- A number as it was declared. -/
inductive Json.Number where
  | int (value : Int)
  | float (value : Double)
deriving DecidableEq, Repr, Inhabited

/-- A JSON value. -/
inductive Json where
  | null
  | bool (value : Bool)
  | number (value : Json.Number)
  | string (value : String)
  | array (items : List Json)
  | object (members : List (String × Json))
deriving BEq, Repr, Inhabited

namespace Json

/-- The members of an object with the value of one key replaced, or with a new member at the
end. -/
def setMember {α : Type} (key : String) (value : α) : List (String × α) → List (String × α)
  | [] => [(key, value)]
  | (k, v) :: rest => if k = key then (k, value) :: rest else (k, v) :: setMember key value rest

/-- A whole number. -/
def ofInt (n : Int) : Json := .number (.int n)

/-- A whole number that is not negative. -/
def ofNat (n : Nat) : Json := .number (.int (Int.ofNat n))

/-- A floating point number; what JSON cannot write becomes `null`. -/
def ofDouble (x : Double) : Json := if x.isFinite then .number (.float x) else .null

/-- A list of strings. -/
def strings (items : List String) : Json := .array (items.map .string)

/-- A string or `null`. -/
def ofOption (s : Option String) : Json := (s.map .string).getD .null

/-- The value of a member of an object. -/
def member? (key : String) : Json → Option Json
  | .object members => members.lookup key
  | _ => none

end Json

end TypedClient
