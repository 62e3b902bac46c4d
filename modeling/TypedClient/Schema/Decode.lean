import TypedClient.Decode.Basic
import TypedClient.Schema.Basic

/-!
# Reading schemas

A schema is a record whose fields are the keywords below; every other member is
passed over. The keywords that hold schemas read their value recursively, along
the tree.
-/

namespace TypedClient

open Decode

namespace EnumValue

/-- Reads a value of an enumeration. A whole number beyond 64 bits with sign is rounded to a
floating point number. -/
def decode : Json → Result EnumValue
  | .string s => .ok (.string s)
  | .number (.int n) =>
    if n < twoTo 63 then .ok (.integer n) else .ok (.float (.ofInt n))
  | .number (.float x) => .ok (.float x)
  | .bool b => .ok (.bool b)
  | .null => .ok .null
  | _ => .error (.noVariant "EnumValue")

end EnumValue

/-- Reads an exclusive bound. -/
def ExclusiveBound.decode : Json → Result ExclusiveBound
  | .bool b => .ok (.flag b)
  | .number (.int n) => .ok (.value (.ofInt n))
  | .number (.float x) => .ok (.value x)
  | _ => .error (.noVariant "ExclusiveBound")

/-- Reads the keyword `type`. -/
def TypeNames.decode (value : Json) : Result TypeNames :=
  match value with
  | .string s => .ok (.single s)
  | value =>
    match Decode.list Decode.string value with
    | .ok names => .ok (.multiple names)
    | .error _ => .error (.noVariant "SchemaType")

namespace Schema

/-- The keywords of a schema, in the order in which an array lists them. -/
inductive Keyword where
  | type
  | ref
  | title
  | description
  | properties
  | required
  | items
  | enumValues
  | memberNames
  | memberDescriptions
  | anyOf
  | oneOf
  | allOf
  | additional
  | format
  | default
  | nullable
  | deprecated
  | readOnly
  | pattern
  | minimum
  | maximum
  | exclusiveMinimum
  | exclusiveMaximum
  | multipleOf
  | minLength
  | maxLength
  | minItems
  | maxItems
  | uniqueItems
  | minProperties
  | maxProperties
deriving DecidableEq, Repr

namespace Keyword

/-- The keywords with their names. -/
def table : List (String × Keyword) :=
  [("type", type), ("$ref", ref), ("title", title), ("description", description),
    ("properties", properties), ("required", required), ("items", items),
    ("enum", enumValues), ("x-enum-varnames", memberNames),
    ("x-enum-descriptions", memberDescriptions), ("anyOf", anyOf), ("oneOf", oneOf),
    ("allOf", allOf), ("additionalProperties", additional), ("format", format),
    ("default", default), ("nullable", nullable), ("deprecated", deprecated),
    ("readOnly", readOnly), ("pattern", pattern), ("minimum", minimum), ("maximum", maximum),
    ("exclusiveMinimum", exclusiveMinimum), ("exclusiveMaximum", exclusiveMaximum),
    ("multipleOf", multipleOf), ("minLength", minLength), ("maxLength", maxLength),
    ("minItems", minItems), ("maxItems", maxItems), ("uniqueItems", uniqueItems),
    ("minProperties", minProperties), ("maxProperties", maxProperties)]

/-- The keyword of a name. -/
def ofName? (name : String) : Option Keyword := table.lookup name

/-- The keywords that an array may leave out. -/
def isDefaulted : Keyword → Bool
  | required | deprecated | readOnly => true
  | _ => false

end Keyword

/-- The three readings of a value as schemas: as one, as a list and as a map. They are worked out
only when a keyword asks for one. -/
structure Readings where
  schema : Unit → Result Schema
  list : Unit → Result (List Schema)
  map : Unit → Result (List (String × Schema))

/-- Reads the value of one keyword into a schema. -/
def assign (s : Schema) (keyword : Keyword) (value : Json) (as : Readings) : Result Schema :=
  let isNull := value matches .null
  match keyword with
  | .type => return { s with type := ← optional TypeNames.decode value }
  | .ref => return { s with ref := ← optional string value }
  | .title => return { s with title := ← optional string value }
  | .description => return { s with description := ← optional string value }
  | .properties => if isNull then .ok s else return { s with properties := ← as.map () }
  | .required => return { s with required := ← list string value }
  | .items => if isNull then .ok s else return { s with items := some (← as.schema ()) }
  | .enumValues =>
    return { s with enumValues := (← optional (list EnumValue.decode) value).getD [] }
  | .memberNames => return { s with memberNames := (← optional (list string) value).getD [] }
  | .memberDescriptions =>
    return { s with memberDescriptions := (← optional (list string) value).getD [] }
  | .anyOf => if isNull then .ok s else return { s with anyOf := some (← as.list ()) }
  | .oneOf => if isNull then .ok s else return { s with oneOf := some (← as.list ()) }
  | .allOf => if isNull then .ok s else return { s with allOf := some (← as.list ()) }
  | .additional =>
    match value with
    | .null => .ok s
    | .bool b => .ok { s with additional := some (.flag b) }
    | _ => match as.schema () with
      | .ok inner => .ok { s with additional := some (.schema inner) }
      | .error _ => .error (.noVariant "AdditionalProperties")
  | .format => return { s with format := ← optional string value }
  | .default => .ok { s with default := if isNull then none else some value }
  | .nullable => return { s with nullable := ← optional bool value }
  | .deprecated => return { s with deprecated := ← bool value }
  | .readOnly => return { s with readOnly := ← bool value }
  | .pattern => return { s with pattern := ← optional string value }
  | .minimum => return { s with minimum := ← optional double value }
  | .maximum => return { s with maximum := ← optional double value }
  | .exclusiveMinimum =>
    return { s with exclusiveMinimum := ← optional ExclusiveBound.decode value }
  | .exclusiveMaximum =>
    return { s with exclusiveMaximum := ← optional ExclusiveBound.decode value }
  | .multipleOf => return { s with multipleOf := ← optional double value }
  | .minLength => return { s with minLength := ← optional count value }
  | .maxLength => return { s with maxLength := ← optional count value }
  | .minItems => return { s with minItems := ← optional count value }
  | .maxItems => return { s with maxItems := ← optional count value }
  | .uniqueItems => return { s with uniqueItems := ← optional bool value }
  | .minProperties => return { s with minProperties := ← optional count value }
  | .maxProperties => return { s with maxProperties := ← optional count value }

mutual

/-- Reads a schema. -/
def decode : Json → Result Schema
  | .object members => decodeMembers {} members
  | .array items => decodeItems Keyword.table 0 {} items
  | value => wrongType "struct Schema" value

/-- Reads the members of an object into a schema, in order. -/
def decodeMembers (s : Schema) : List (String × Json) → Result Schema
  | [] => .ok s
  | (key, value) :: rest =>
    match Keyword.ofName? key with
    | none => decodeMembers s rest
    | some keyword => do
      decodeMembers (← assign s keyword value {
        schema := fun _ => decode value
        list := fun _ => decodeAsList value
        map := fun _ => decodeAsMap value }) rest

/-- Reads the items of an array into the keywords, in order. -/
def decodeItems (keywords : List (String × Keyword)) (index : Nat) (s : Schema) :
    List Json → Result Schema
  | [] =>
    match keywords.find? (!·.2.isDefaulted) with
    | none => .ok s
    | some (name, _) =>
      let skipped := (keywords.takeWhile (·.1 != name)).length
      .error (.tooFew (index + skipped) (recordText "Schema" Keyword.table.length))
  | value :: rest =>
    match keywords with
    | [] => .error (.tooMany (index + rest.length + 1))
    | (_, keyword) :: keywords => do
      decodeItems keywords (index + 1) (← assign s keyword value {
        schema := fun _ => decode value
        list := fun _ => decodeAsList value
        map := fun _ => decodeAsMap value }) rest

/-- Reads a list of schemas. -/
def decodeAsList : Json → Result (List Schema)
  | .array items => decodeList items
  | value => wrongType "a sequence" value

/-- Reads schemas under names. -/
def decodeAsMap : Json → Result (List (String × Schema))
  | .object members => decodeMap members
  | value => wrongType "a map" value

/-- Reads the items of an array as schemas. -/
def decodeList : List Json → Result (List Schema)
  | [] => .ok []
  | value :: rest => do return (← decode value) :: (← decodeList rest)

/-- Reads the members of an object as schemas. -/
def decodeMap : List (String × Json) → Result (List (String × Schema))
  | [] => .ok []
  | (key, value) :: rest => do return (key, ← decode value) :: (← decodeMap rest)

end

end Schema

end TypedClient
