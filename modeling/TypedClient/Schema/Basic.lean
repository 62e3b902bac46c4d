import TypedClient.Json.Basic

/-!
# Schemas

A schema with the keywords that matter for the generated client. Keywords that
may be missing are options. An empty list says the same as a missing one, save for
the three compositions. The keywords that hold further schemas stand last.
-/

namespace TypedClient

/-- A value of an enumeration. -/
inductive EnumValue where
  | string (value : String)
  | integer (value : Int)
  | float (value : Double)
  | bool (value : Bool)
  | null
deriving DecidableEq, Repr, Inhabited

/-- Whether two values of an enumeration are the same. Whole and floating point numbers are kept
apart; the two floating point zeros are not. -/
def EnumValue.same : EnumValue → EnumValue → Bool
  | .float x, .float y => x.same y
  | v, w => v == w

/-- An exclusive bound: a flag beside the inclusive bound, or the bound itself. -/
inductive ExclusiveBound where
  | flag (value : Bool)
  | value (bound : Double)
deriving DecidableEq, Repr

/-- The keyword `type`: one name or several. -/
inductive TypeNames where
  | single (name : String)
  | multiple (names : List String)
deriving DecidableEq, Repr

/-- The keyword `additionalProperties`: a flag or a schema. -/
inductive Extra (σ : Type) where
  | flag (value : Bool)
  | schema (value : σ)
deriving Repr

/-- A schema. -/
structure Schema where
  type : Option TypeNames := none
  ref : Option String := none
  title : Option String := none
  description : Option String := none
  required : List String := []
  enumValues : List EnumValue := []
  memberNames : List String := []
  memberDescriptions : List String := []
  format : Option String := none
  default : Option Json := none
  nullable : Option Bool := none
  deprecated : Bool := false
  readOnly : Bool := false
  pattern : Option String := none
  minimum : Option Double := none
  maximum : Option Double := none
  exclusiveMinimum : Option ExclusiveBound := none
  exclusiveMaximum : Option ExclusiveBound := none
  multipleOf : Option Double := none
  minLength : Option Nat := none
  maxLength : Option Nat := none
  minItems : Option Nat := none
  maxItems : Option Nat := none
  uniqueItems : Option Bool := none
  minProperties : Option Nat := none
  maxProperties : Option Nat := none
  properties : List (String × Schema) := []
  items : Option Schema := none
  anyOf : Option (List Schema) := none
  oneOf : Option (List Schema) := none
  allOf : Option (List Schema) := none
  additional : Option (Extra Schema) := none
deriving Inhabited, Repr

namespace Schema

/-- The schema of `null` alone. -/
def isNullType (s : Schema) : Bool := s.type == some (.single "null")

/-- The type names other than `null`; a single name is kept whatever it is. -/
def typeNames (s : Schema) : List String :=
  match s.type with
  | none => []
  | some (.single name) => [name]
  | some (.multiple names) => names.filter (· != "null")

/-- Whether a type list has `null`. -/
def allowsNullType (s : Schema) : Bool :=
  match s.type with
  | some (.multiple names) => names.contains "null"
  | _ => false

/-- Whether a composition has the schema of `null` among its members. -/
def hasNullMember (members : Option (List Schema)) : Bool := members.any (·.any isNullType)

/-- Whether the schema itself says that it accepts `null`. -/
def isNullable (s : Schema) : Bool :=
  s.nullable == some true || hasNullMember s.anyOf || hasNullMember s.oneOf || s.allowsNullType

/-- The only member beside `null`, if the list has a `null` and exactly one other member. -/
def soleMember? (members : Option (List Schema)) : Option Schema :=
  match members with
  | none => none
  | some members =>
    match members.filter (!·.isNullType) with
    | [s] => if members.any isNullType then some s else none
    | _ => none

/-- The schema inside a wrapper that only adds `null`. -/
def wrapped? (s : Schema) : Option Schema := (soleMember? s.anyOf).or (soleMember? s.oneOf)

/-- The schema inside a wrapper; a schema that is none stands for itself. -/
def unwrapped (s : Schema) : Schema := s.wrapped?.getD s

/-- Whether the schema declares properties. -/
def hasProperties (s : Schema) : Bool := !s.properties.isEmpty

end Schema

end TypedClient
