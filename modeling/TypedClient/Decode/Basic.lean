import TypedClient.Decimal.Text
import TypedClient.Json.Basic
import TypedClient.Text.Quote

/-!
# Typed reading of JSON trees

Readers turn a JSON value into a typed one, or say why it does not fit. The
members of a record are read in the order in which the tree declares them and
the first failure is reported; only then are missing members looked for, in the
order of the record's fields. A record may also stand as the array of its fields.
-/

namespace TypedClient

/-- What was found where something else was due. -/
inductive Found where
  | null
  | bool (value : Bool)
  | int (value : Int)
  | float (value : Double)
  | string (value : String)
  | sequence
  | map
deriving DecidableEq, Repr

/-- Why a tree does not fit a type. -/
inductive DecodeError where
  | wrongType (found : Found) (expected : String)
  | outOfRange (value : Int) (expected : String)
  | missingField (name : String)
  | unknownField (name : String) (known : List String)
  | tooFew (found : Nat) (expected : String)
  | tooMany (found : Nat)
  | noVariant (type : String)
  | unknownVariation (name : String)
  | unknownHttpClient (name : String)
deriving DecidableEq, Repr

/-- What a JSON value is called in messages. -/
def Json.found : Json → Found
  | .null => .null
  | .bool b => .bool b
  | .number (.int n) => .int n
  | .number (.float x) => .float x
  | .string s => .string s
  | .array _ => .sequence
  | .object _ => .map

namespace Found

/-- The wording of what was found; a floating point number is written in the given layout. -/
def text (layout : Decimal.Layout) : Found → String
  | .null => "null"
  | .bool b => "boolean \x60" ++ (if b then "true" else "false") ++ "\x60"
  | .int n => "integer \x60" ++ Decimal.intText n ++ "\x60"
  | .float x => "floating point \x60" ++ x.text layout ++ "\x60"
  | .string s => "string " ++ Text.quote s
  | .sequence => "sequence"
  | .map => "map"

end Found

namespace DecodeError

/-- A name between backquotes. -/
def code (name : String) : String := "\x60" ++ name ++ "\x60"

/-- The wording of a failure. -/
def message (layout : Decimal.Layout) : DecodeError → String
  | .wrongType found expected =>
    "invalid type: " ++ found.text layout ++ ", expected " ++ expected
  | .outOfRange n expected =>
    "invalid value: " ++ (Found.int n).text layout ++ ", expected " ++ expected
  | .missingField name => "missing field " ++ code name
  | .unknownField name known =>
    "unknown field " ++ code name ++ ", expected one of " ++
      String.intercalate ", " (known.map code)
  | .tooFew n expected =>
    "invalid length " ++ Decimal.natText n ++ ", expected " ++ expected
  | .tooMany n =>
    "invalid length " ++ Decimal.natText n ++ ", expected fewer elements in array"
  | .noVariant type => "data did not match any variant of untagged enum " ++ type
  | .unknownVariation name => "Unknown variation: " ++ name
  | .unknownHttpClient name => "Unknown http client: " ++ name

end DecodeError

namespace Decode

/-- The outcome of reading. -/
abbrev Result (α : Type) := Except DecodeError α

/-- The failure to find what was due. -/
def wrongType {α : Type} (expected : String) (value : Json) : Result α :=
  .error (.wrongType value.found expected)

/-- Reads a string. -/
def string : Json → Result String
  | .string s => .ok s
  | value => wrongType "a string" value

/-- Reads a string that names a file. -/
def pathText : Json → Result String
  | .string s => .ok s
  | value => wrongType "path string" value

/-- Reads a truth value. -/
def bool : Json → Result Bool
  | .bool b => .ok b
  | value => wrongType "a boolean" value

/-- Reads a floating point number; a whole number is rounded to one. -/
def double : Json → Result Double
  | .number (.float x) => .ok x
  | .number (.int n) => .ok (.ofInt n)
  | value => wrongType "f64" value

/-- Reads a count. A floating point number is none, even a whole one. -/
def count : Json → Result Nat
  | .number (.int n) => if n < 0 then .error (.outOfRange n "u64") else .ok n.toNat
  | value => wrongType "u64" value

/-- Reads a value that may be `null`. -/
def optional {α : Type} (read : Json → Result α) : Json → Result (Option α)
  | .null => .ok none
  | value => (read value).map some

/-- Reads the items of an array, in order. -/
def list {α : Type} (read : Json → Result α) : Json → Result (List α)
  | .array items => items.mapM read
  | value => wrongType "a sequence" value

/-- Reads the members of an object, in order. -/
def map {α : Type} (read : Json → Result α) : Json → Result (List (String × α))
  | .object members => members.mapM fun (key, value) => (read value).map (key, ·)
  | value => wrongType "a map" value

/-- Reads the first alternative that fits. -/
def firstOf {α : Type} (type : String) (readers : List (Json → Result α)) (value : Json) :
    Result α :=
  match readers.findSome? fun read => (read value).toOption with
  | some a => .ok a
  | none => .error (.noVariant type)

/-- Whether a field has to be there. -/
inductive Presence where
  /-- Without the member the record is refused. -/
  | needed
  /-- The member may be missing, but not the item of an array. -/
  | optional
  /-- Both the member and the item may be missing. -/
  | defaulted
deriving DecidableEq

/-- One field of a record of type `σ`, and how a value for it is read into the record. -/
structure FieldReader (σ : Type) where
  name : String
  presence : Presence
  read : σ → Json → Result σ

/-- The wording for a record that was due. -/
def recordText (type : String) (fields : Nat) : String :=
  "struct " ++ type ++ " with " ++ Decimal.natText fields ++
    (if fields = 1 then " element" else " elements")

/-- Reads members in order; a member of another name changes nothing. -/
def members {σ : Type} (fields : List (FieldReader σ)) (start : σ) (ms : List (String × Json)) :
    Result σ :=
  ms.foldlM (fun s (key, value) =>
    match fields.find? (·.name == key) with
    | some field => field.read s value
    | none => .ok s) start

/-- The first needed field without a member. -/
def missing? {σ : Type} (fields : List (FieldReader σ)) (ms : List (String × Json)) :
    Option String :=
  (fields.find? fun f => f.presence == .needed && !ms.any (·.1 == f.name)).map (·.name)

/-- Reads the items of an array into the fields, in order. -/
def items {σ : Type} (tooFew : Nat → DecodeError) :
    Nat → List (FieldReader σ) → σ → List Json → Result σ
  | _, [], s, [] => .ok s
  | index, [], _, extra => .error (.tooMany (index + extra.length))
  | index, field :: fields, s, value :: values => do
    items tooFew (index + 1) fields (← field.read s value) values
  | index, field :: fields, s, [] =>
    if field.presence == .defaulted then items tooFew (index + 1) fields s []
    else .error (tooFew index)

/-- Reads a record, from an object or from the array of its fields. -/
def record {σ : Type} (type : String) (fields : List (FieldReader σ)) (start : σ) :
    Json → Result σ
  | .object ms => do
    let s ← members fields start ms
    match missing? fields ms with
    | some name => .error (.missingField name)
    | none => .ok s
  | .array values =>
    items (.tooFew · (recordText type fields.length)) 0 fields start values
  | value => wrongType ("struct " ++ type) value

end Decode

end TypedClient
