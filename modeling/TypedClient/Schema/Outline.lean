import TypedClient.Schema.Basic
import TypedClient.Schema.Pointer

/-!
# Outlines

The outline of a schema says what kind of type it describes without going into
its parts. A wrapper that only adds `null` has the outline of what it wraps, to
any depth. References are named, never followed, so that the outline of a
recursive type is finite.
-/

namespace TypedClient

/-- The kinds of types. -/
inductive Shape where
  | reference
  | primitive
  | enumeration
  | array
  | dictionary
  | oneOf
  | anyOf
  | allOf
  | object
deriving DecidableEq, Repr, Inhabited

/-- What a schema describes, on the surface. -/
structure Outline where
  shape : Shape
  /-- The name of the referenced type, the primitive type, or `any`. -/
  base : String
  /-- The base of the elements of an array or dictionary, where they are simple. -/
  element : Option String := none
  nullable : Bool := false
  imports : List String := []
deriving DecidableEq, Repr, Inhabited

/-- The primitive type for a type name and a format. -/
def primitiveBase (typeName : String) (format : Option String) : String :=
  if typeName = "string" ∧ format = some "binary" then "binary"
  else if typeName = "file" then "binary"
  else if typeName ∈ ["string", "integer", "number", "boolean", "null"] then typeName
  else "any"

namespace EnumValue

/-- The primitive type of a value; `null` has none. -/
def base? : EnumValue → Option String
  | .string _ => some "string"
  | .integer _ | .float _ => some "number"
  | .bool _ => some "boolean"
  | .null => none

/-- The primitive type that all values share, or `any`. -/
def commonBase (values : List EnumValue) : String :=
  match values.filterMap base? with
  | [] => "any"
  | first :: others => if others.all (· == first) then first else "any"

end EnumValue

namespace Schema

/-- Whether a composition has members. -/
def hasMembers (members : Option (List Schema)) : Bool := members.any (!·.isEmpty)

/-- The element of an array or dictionary leaves its mark only if it is simple. -/
def withElement (outline element : Outline) : Outline :=
  if element.shape = .reference ∨ element.shape = .primitive then
    { outline with element := some element.base, imports := element.imports }
  else outline

/-- The outline of an array. -/
def arrayOutline (s : Schema) (items : Option Outline) (default : Option String) : Outline :=
  let outline : Outline := { shape := .array, base := "any", nullable := s.isNullable }
  match items with
  | some element => withElement outline element
  | none => { outline with element := default }

/-- The outline of a dictionary. -/
def dictionaryOutline (s : Schema) (value : Option Outline) : Outline :=
  let outline : Outline := { shape := .dictionary, base := "any", nullable := s.isNullable }
  match value with
  | some element => withElement outline element
  | none => { outline with element := some "any" }

/-- The outline of a schema without compositions, by its only type name. -/
def plainOutline (s : Schema) (items value : Option Outline) : Outline :=
  let simple (base : String) : Outline :=
    { shape := .primitive, base := base, nullable := s.isNullable }
  let object : Outline := { shape := .object, base := "any", nullable := s.isNullable }
  match s.typeNames.head? with
  | some "array" => arrayOutline s items (some "any")
  | some "object" => if s.hasProperties then object else dictionaryOutline s value
  | some name => simple (primitiveBase name s.format)
  | none =>
    if s.hasProperties then object
    else if s.additional.isSome then dictionaryOutline s value
    else if s.items.isSome then arrayOutline s items none
    else simple "any"

/-- The outline of a schema that is no wrapper, given those of its elements. -/
def ownOutline (s : Schema) (items value : Option Outline) : Outline :=
  let composed (shape : Shape) : Outline :=
    { shape := shape, base := "any", nullable := s.isNullable }
  match s.ref with
  | some ref =>
    let name := Pointer.typeName ref
    { shape := .reference, base := name, nullable := s.isNullable, imports := [name] }
  | none =>
    if !s.enumValues.isEmpty then
      { shape := .enumeration, base := EnumValue.commonBase s.enumValues,
        nullable := s.isNullable || s.enumValues.contains .null }
    else if hasMembers s.allOf then composed .allOf
    else if hasMembers s.oneOf then composed .oneOf
    else if hasMembers s.anyOf then composed .anyOf
    else if s.typeNames.length > 1 then composed .anyOf
    else plainOutline s items value

mutual

/-- The outline of a schema. -/
def outline : Schema → Outline
  | s@{ anyOf, oneOf, items, additional, .. } =>
    if (soleMember? s.anyOf).isSome then { outlineOfMembers anyOf with nullable := true }
    else if (soleMember? s.oneOf).isSome then { outlineOfMembers oneOf with nullable := true }
    else
      ownOutline s
        (match items with
          | some item => some (outline item)
          | none => none)
        (match additional with
          | some (.schema value) => some (outline value)
          | _ => none)

/-- The outline of the first member of a composition that is not the schema of `null`. -/
def outlineOfMembers : Option (List Schema) → Outline
  | none => { shape := .primitive, base := "any" }
  | some members => outlineOfFirst members

/-- The outline of the first schema that is not the schema of `null`. -/
def outlineOfFirst : List Schema → Outline
  | [] => { shape := .primitive, base := "any" }
  | s :: rest => if s.isNullType then outlineOfFirst rest else outline s

end

end Schema

end TypedClient
