import TypedClient.Json.Printer
import TypedClient.Model.Basic

/-!
# JSON Schemas of models

The JSON Schema that a model stands for. Definitions refer to each other by name,
and each carries its name as its identifier. A nullable model accepts `null`
beside what its own schema accepts.
-/

namespace TypedClient

namespace Model

/-- The schema of a primitive type; those that JSON does not know accept everything. -/
def primitiveSchema (base : String) : List (String × Json) :=
  if base ∈ ["string", "integer", "number", "boolean", "null"] then [("type", .string base)]
  else []

/-- The restricting keywords that are there. -/
def Constraints.keywords (c : Constraints) : List (String × Json) :=
  let double (name : String) (x : Option Double) := x.map fun x => (name, Json.ofDouble x)
  let count (name : String) (n : Option Nat) := n.map fun n => (name, Json.ofNat n)
  [c.pattern.map fun p => ("pattern", Json.string p),
    double "minimum" c.minimum,
    double "maximum" c.maximum,
    double "exclusiveMinimum" c.exclusiveMinimum,
    double "exclusiveMaximum" c.exclusiveMaximum,
    double "multipleOf" c.multipleOf,
    count "minLength" c.minLength,
    count "maxLength" c.maxLength,
    count "minItems" c.minItems,
    count "maxItems" c.maxItems,
    c.uniqueItems.map fun b => ("uniqueItems", Json.bool b),
    count "minProperties" c.minProperties,
    count "maxProperties" c.maxProperties].filterMap id

/-- The keywords that say nothing about the type. -/
def annotations (m : Model) : List (String × Json) :=
  m.constraints.keywords ++
    (m.description.map fun d => ("description", Json.string d)).toList ++
    (if m.isReadOnly then [("readOnly", Json.bool true)] else [])

/-- The names of the required properties, if there are any. -/
def requiredKeyword (properties : List Model) : List (String × Json) :=
  match (properties.filter (·.isRequired)).map (·.name) with
  | [] => []
  | names => [("required", Json.strings names)]

/-- The schema that also accepts `null`. -/
def orNull (schema : Json) : Json :=
  .object [("anyOf", .array [schema, .object [("type", .string "null")]])]

/-- Members under their keys; a repeated key keeps its first place and takes the last value. -/
def uniqueMembers (members : List (String × Json)) : List (String × Json) :=
  members.foldl (fun ms (key, value) => Json.setMember key value ms) []

mutual

/-- The schema of a model. -/
def jsonSchema : Model → Json
  | m@{ kind, base, isNullable, members, link, properties, .. } =>
    let body : List (String × Json) :=
      match kind with
      | .reference => [("$ref", .string base)]
      | .primitive => primitiveSchema base
      | .enumeration => primitiveSchema base ++ [("enum", .array (members.map (·.value)))]
      | .array => [("type", .string "array"), ("items", linkSchema link)]
      | .dictionary =>
        [("type", .string "object"), ("additionalProperties", linkSchema link)]
      | .interface =>
        [("type", .string "object"),
          ("properties", .object (uniqueMembers (propertySchemas properties)))] ++
          requiredKeyword properties
      | .oneOf => [("oneOf", .array (jsonSchemas properties))]
      | .anyOf => [("anyOf", .array (jsonSchemas properties))]
      | .allOf => [("allOf", .array (jsonSchemas properties))]
    let schema := Json.object (body ++ annotations m)
    if isNullable then orNull schema else schema

/-- The schema of the elements of an array or a dictionary. -/
def linkSchema : Option Model → Json
  | none => .object []
  | some m => jsonSchema m

/-- The schemas of some models. -/
def jsonSchemas : List Model → List Json
  | [] => []
  | m :: rest => jsonSchema m :: jsonSchemas rest

/-- The schemas of properties under their names. -/
def propertySchemas : List Model → List (String × Json)
  | [] => []
  | m :: rest => (m.name, jsonSchema m) :: propertySchemas rest

end

/-- The schema of a definition, with its name as identifier. -/
def definitionSchema (m : Model) : Json :=
  match jsonSchema m with
  | .object members => .object (members ++ [("$id", .string m.name)])
  | schema => schema

/-- The text of the schema of a definition. -/
def schemaSource (m : Model) : String := (definitionSchema m).pretty

end Model

end TypedClient
