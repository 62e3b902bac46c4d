import TypedClient.Decimal.Text
import TypedClient.Model.Basic
import TypedClient.Naming.Unique
import TypedClient.Schema.Outline

/-!
# From schemas to models

`definition` is the model of a named schema, `inline` that of a schema which
stands inside another one. An inline schema of an object becomes a definition of
its own; a reference is left in its place. The definitions that come about in
this way are listed beside the model, inner ones first. Their names are not
final: they spell out the scope and the place of the schema, so that no two
places share one.
-/

namespace TypedClient

namespace Model

/-- The bounds of a schema. A flag turns the inclusive bound into an exclusive one. -/
def constraintsOf (s : Schema) : Constraints :=
  let isFlag (b : Option ExclusiveBound) : Bool := b == some (.flag true)
  let exclusive (b : Option ExclusiveBound) (inclusive : Option Double) : Option Double :=
    match b with
    | some (.value v) => some v
    | some (.flag true) => inclusive
    | _ => none
  { pattern := s.pattern
    minimum := if isFlag s.exclusiveMinimum then none else s.minimum
    maximum := if isFlag s.exclusiveMaximum then none else s.maximum
    exclusiveMinimum := exclusive s.exclusiveMinimum s.minimum
    exclusiveMaximum := exclusive s.exclusiveMaximum s.maximum
    multipleOf := s.multipleOf
    minLength := s.minLength
    maxLength := s.maxLength
    minItems := s.minItems
    maxItems := s.maxItems
    uniqueItems := s.uniqueItems
    minProperties := s.minProperties
    maxProperties := s.maxProperties }

/-- The name that a value of an enumeration suggests, and the value as it is written; `null` is no
member. -/
def memberOf? : EnumValue → Option (String × Json)
  | .string s => some (Naming.memberName s, .string s)
  | .integer n => some ("_" ++ Decimal.intText n, .ofInt n)
  | .float x =>
    let digits := (x.text .plain).toList.map fun c => if c = '.' ∨ c = '-' then '_' else c
    some (String.ofList ('_' :: digits), .ofDouble x)
  | .bool b => some (if b then "TRUE" else "FALSE", .bool b)
  | .null => none

/-- The members for the values from position `index` on. `seen` are the values before it that
have a member, `taken` the names of those members. -/
def membersFrom (names descriptions : List String) (index : Nat) (seen : List EnumValue)
    (taken : List String) : List EnumValue → List Member
  | [] => []
  | value :: rest =>
    match memberOf? value with
    | none => membersFrom names descriptions (index + 1) seen taken rest
    | some (derived, literal) =>
      if seen.any (·.same value) then
        membersFrom names descriptions (index + 1) seen taken rest
      else
        let base := (names[index]?.map Naming.typeName).getD derived
        let name := Naming.unique base taken
        { name := name, value := literal, description := descriptions[index]? } ::
          membersFrom names descriptions (index + 1) (value :: seen) (name :: taken) rest

/-- The members of an enumeration: one for every value other than `null`, at its first place. -/
def membersOf (s : Schema) : List Member :=
  membersFrom s.memberNames s.memberDescriptions 0 [] [] s.enumValues

/-- The kind of model for a shape. -/
def kindOf : Shape → Kind
  | .reference => .reference
  | .primitive => .primitive
  | .enumeration => .enumeration
  | .array => .array
  | .dictionary => .dictionary
  | .oneOf => .oneOf
  | .anyOf => .anyOf
  | .allOf => .allOf
  | .object => .interface

/-- The parts of a model that are models themselves, and the definitions lifted out of them. -/
structure Content where
  link : Option Model := none
  properties : List Model := []
  lifted : List Model := []

/-- The model of a schema whose parts are known. Most keywords are taken from the schema inside
the wrapper. -/
def assemble (name : String) (s : Schema) (content : Content) : Model :=
  let outline := s.outline
  let target := s.unwrapped
  { name := name
    kind := kindOf outline.shape
    base := outline.base
    description := target.description.or s.description
    isNullable := outline.nullable
    isReadOnly := target.readOnly
    deprecated := target.deprecated || s.deprecated
    format := target.format
    default := target.default
    constraints := constraintsOf target
    members := if outline.shape = .enumeration then membersOf target else []
    link := content.link
    properties := content.properties }

/-- The name that a lifted definition has until the final names are given out. -/
def provisionalName (scope : String) (place : List String) : String :=
  "#" ++ scope ++ "#" ++ String.intercalate "/" place

/-- Turns the model of an inline object into a definition. -/
def asLifted (place : List String) (m : Model) : Model :=
  refreshImports { m with isDefinition := true, isNullable := false, origin := .inline place }

/-- The model left at the place of an inline schema, and the definitions lifted out of it. -/
def settle (scope name : String) (place : List String) (s : Schema) (content : Content) :
    Model × List Model :=
  let outline := s.outline
  if outline.shape = .object then
    let key := provisionalName scope place
    let target := s.unwrapped
    let definition := asLifted place (assemble key target content)
    ({ reference name key with
        isNullable := outline.nullable
        description := target.description
        isReadOnly := target.readOnly
        deprecated := target.deprecated },
      content.lifted ++ [definition])
  else (assemble name s content, content.lifted)

/-- How many wrappers are taken off an inline schema before its parts are looked at: the definition
of an object is built from what its reference wraps. -/
def unwrapsOf (shape : Shape) : Nat := if shape = .object then 2 else 1

/-- The word for the members of a composition. -/
def memberLabel (shape : Shape) : String := if shape = .allOf then "Part" else "Variant"

/-- The place of the member of a composition with the given number. -/
def memberPlace (place : List String) (shape : Shape) (number : Nat) : List String :=
  place ++ [memberLabel shape ++ Decimal.natText number]

/-- The interface that holds the properties declared beside the members of an `allOf`. -/
def ownPart (scope : String) (place : List String) (properties : List Model)
    (lifted : List Model) : Model × List Model :=
  let key := provisionalName scope place
  let interface : Model :=
    { name := key, kind := .interface, base := "any", properties := properties }
  (reference "" key, lifted ++ [asLifted place interface])

mutual

/-- The parts of the model of a schema, after taking off up to `unwraps` wrappers. -/
def content (scope : String) (place : List String) (unwraps : Nat) (shape : Shape) :
    Schema → Content
  | s@{ anyOf, oneOf, allOf, items, additional, properties, .. } =>
    if unwraps > 0 && (Schema.soleMember? s.anyOf).isSome then
      contentOfMembers scope place (unwraps - 1) shape anyOf
    else if unwraps > 0 && (Schema.soleMember? s.oneOf).isSome then
      contentOfMembers scope place (unwraps - 1) shape oneOf
    else match shape with
      | .array =>
        match items with
        | some item =>
          let spot := place ++ ["Item"]
          let shape := item.outline.shape
          let (m, lifted) :=
            settle scope "" spot item (content scope spot (unwrapsOf shape) shape item)
          { link := some m, lifted := lifted }
        | none => { link := some (primitive "" "any") }
      | .dictionary =>
        match additional with
        | some (.schema value) =>
          let spot := place ++ ["Value"]
          let shape := value.outline.shape
          let (m, lifted) :=
            settle scope "" spot value (content scope spot (unwrapsOf shape) shape value)
          { link := some m, lifted := lifted }
        | _ => { link := some (primitive "" "any") }
      | .oneOf => contentOfComposition scope place .oneOf s.typeNames s.format oneOf
      | .anyOf => contentOfComposition scope place .anyOf s.typeNames s.format anyOf
      | .allOf =>
        let parts := contentOfComposition scope place .allOf s.typeNames s.format allOf
        if properties.isEmpty then parts
        else
          let number := (allOf.map (·.countP (!·.isNullType))).getD 0 + 1
          let spot := memberPlace place .allOf number
          let (own, lifted) := contentOfProperties scope spot s.required properties
          let (m, lifted) := ownPart scope spot own lifted
          { properties := parts.properties ++ [m], lifted := parts.lifted ++ lifted }
      | .object =>
        let (own, lifted) := contentOfProperties scope place s.required properties
        { properties := own, lifted := lifted }
      | _ => {}

/-- The parts of the first member of a composition that is not the schema of `null`. -/
def contentOfMembers (scope : String) (place : List String) (unwraps : Nat) (shape : Shape) :
    Option (List Schema) → Content
  | none => {}
  | some members => contentOfFirst scope place unwraps shape members

/-- The parts of the first schema that is not the schema of `null`. -/
def contentOfFirst (scope : String) (place : List String) (unwraps : Nat) (shape : Shape) :
    List Schema → Content
  | [] => {}
  | s :: rest =>
    if s.isNullType then contentOfFirst scope place unwraps shape rest
    else content scope place unwraps shape s

/-- The members of a composition; without any, one primitive type for each type name. -/
def contentOfComposition (scope : String) (place : List String) (shape : Shape)
    (typeNames : List String) (format : Option String) : Option (List Schema) → Content
  | none => { properties := typeNames.map fun t => primitive "" (primitiveBase t format) }
  | some members =>
    let (parts, lifted) := contentOfList scope place shape 1 members
    { properties := parts, lifted := lifted }

/-- The models of the members of a composition, numbered from `number` on; the schema of `null` is
passed over. -/
def contentOfList (scope : String) (place : List String) (shape : Shape) (number : Nat) :
    List Schema → List Model × List Model
  | [] => ([], [])
  | s :: rest =>
    if s.isNullType then contentOfList scope place shape number rest
    else
      let spot := memberPlace place shape number
      let inner := s.outline.shape
      let (m, lifted) := settle scope "" spot s (content scope spot (unwrapsOf inner) inner s)
      let (ms, others) := contentOfList scope place shape (number + 1) rest
      (m :: ms, lifted ++ others)

/-- The models of properties. -/
def contentOfProperties (scope : String) (place : List String) (required : List String) :
    List (String × Schema) → List Model × List Model
  | [] => ([], [])
  | (name, s) :: rest =>
    let spot := place ++ [name]
    let inner := s.outline.shape
    let (m, lifted) := settle scope name spot s (content scope spot (unwrapsOf inner) inner s)
    let (ms, others) := contentOfProperties scope place required rest
    ({ m with isRequired := required.contains name } :: ms, lifted ++ others)

end

/-- The model of an inline schema at a place, and the definitions lifted out of it. -/
def inline (scope name : String) (place : List String) (s : Schema) : Model × List Model :=
  let shape := s.outline.shape
  let (m, lifted) := settle scope name place s (content scope place (unwrapsOf shape) shape s)
  (m.refreshImports, lifted)

/-- The model of a named schema, and the definitions lifted out of it. -/
def definition (scope name : String) (s : Schema) (origin : Origin) : Model × List Model :=
  let content := content scope [name] 1 s.outline.shape s
  (refreshImports { assemble name s content with isDefinition := true, origin := origin },
    content.lifted)

end Model

end TypedClient
