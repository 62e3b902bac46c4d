import TypedClient.Model.Basic
import TypedClient.Script.Literal

/-!
# Type expressions

The type that a model denotes, as an expression of TypeScript. Definitions are
mentioned by name only. Unions and intersections stand in parentheses, so that an
expression can be put anywhere without regrouping.
-/

namespace TypedClient

namespace Model

/-- The type for the base of a primitive model. -/
def primitiveType (base : String) : String :=
  if base = "integer" ∨ base = "number" then "number"
  else if base = "binary" then "Blob"
  else if base ∈ ["string", "boolean", "null", "void", "any"] then base
  else "any"

/-- Several expressions with an operator between them, in parentheses. -/
def joinTypes (operator : String) : List String → String
  | [] => "any"
  | [type] => type
  | types => "(" ++ Json.joinWith operator types ++ ")"

/-- The union of the values of an enumeration; its base if there are none. -/
def unionOfValues (base : String) (members : List Member) : String :=
  if members.isEmpty then primitiveType base
  else joinTypes " | " (members.map fun m => Script.literal m.value)

/-- One line of an object type. -/
def propertyLine (readOnly required : Bool) (name type : String) : String :=
  (if readOnly then "readonly " else "") ++ Script.propertyKey name ++
    (if required then "" else "?") ++ ": " ++ type ++ ";\n"

/-- An object type with the given lines. -/
def objectOfLines : List String → String
  | [] => "Record<string, any>"
  | lines => "\x7b\n" ++ Text.concat lines ++ "\x7d"

/-- Adds `null` to a type that does not have it. -/
def withNull (nullable : Bool) (type : String) : String :=
  if nullable && type != "null" && type != "any" then "(" ++ type ++ " | null)" else type

mutual

/-- The type that a model denotes. -/
def expression : Model → String
  | { kind, base, isNullable, members, link, properties, .. } =>
    withNull isNullable (match kind with
      | .reference => base
      | .primitive => primitiveType base
      | .enumeration => unionOfValues base members
      | .array => "Array<" ++ linkExpression link ++ ">"
      | .dictionary => "Record<string, " ++ linkExpression link ++ ">"
      | .interface => objectOfLines (propertyLines properties)
      | .oneOf => joinTypes " | " (expressions properties)
      | .anyOf => joinTypes " | " (expressions properties)
      | .allOf => joinTypes " & " (expressions properties))

/-- The type of the elements of an array or a dictionary. -/
def linkExpression : Option Model → String
  | none => "any"
  | some m => expression m

/-- The types that some models denote. -/
def expressions : List Model → List String
  | [] => []
  | m :: rest => expression m :: expressions rest

/-- The lines of an object type with the given properties. -/
def propertyLines : List Model → List String
  | [] => []
  | m :: rest =>
    propertyLine m.isReadOnly m.isRequired m.name (expression m) :: propertyLines rest

end

/-- The object type with the given properties. -/
def objectType (properties : List Model) : String := objectOfLines (propertyLines properties)

/-- Whether a definition is written as an enumeration, which exists when the code runs. -/
def isRuntimeEnum (m : Model) (useUnionTypes : Bool) : Bool :=
  !useUnionTypes && m.kind == .enumeration && !m.isNullable && !m.members.isEmpty &&
    m.members.all fun member =>
      match member.value with
      | .string _ | .number _ => true
      | _ => false

end Model

end TypedClient
