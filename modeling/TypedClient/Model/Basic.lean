import TypedClient.Json.Basic
import TypedClient.Text.Order

/-!
# Models

A model is a type of the generated client: a definition with a file of its own,
or a part of one. A model never holds another definition. It refers to it by
name, which is how recursive types stay finite. `references` lists the names that
a model mentions at any depth.
-/

namespace TypedClient

namespace Model

/-- The kinds of models. -/
inductive Kind where
  | reference
  | primitive
  | enumeration
  | array
  | dictionary
  | interface
  | oneOf
  | anyOf
  | allOf
deriving DecidableEq, Repr, Inhabited

/-- The name of a kind. -/
def Kind.name : Kind → String
  | .reference => "reference"
  | .primitive => "primitive"
  | .enumeration => "enum"
  | .array => "array"
  | .dictionary => "dictionary"
  | .interface => "interface"
  | .oneOf => "one-of"
  | .anyOf => "any-of"
  | .allOf => "all-of"

/-- A member of an enumeration. -/
structure Member where
  name : String
  value : Json
  description : Option String := none
deriving BEq, Repr, Inhabited

/-- The keywords that restrict the values of a type further. -/
structure Constraints where
  pattern : Option String := none
  minimum : Option Double := none
  maximum : Option Double := none
  exclusiveMinimum : Option Double := none
  exclusiveMaximum : Option Double := none
  multipleOf : Option Double := none
  minLength : Option Nat := none
  maxLength : Option Nat := none
  minItems : Option Nat := none
  maxItems : Option Nat := none
  uniqueItems : Option Bool := none
  minProperties : Option Nat := none
  maxProperties : Option Nat := none
deriving DecidableEq, Repr, Inhabited

/-- Where a definition comes from. -/
inductive Origin where
  /-- A schema of the document's components. -/
  | schema
  /-- A shared response, for one media type. -/
  | response (component mediaType : String)
  /-- A schema inside another one, at the given place. -/
  | inline (place : List String)
deriving DecidableEq, Repr, Inhabited

/-- The wording of an origin. -/
def Origin.text : Origin → String
  | .schema => "component schema"
  | .response component mediaType => "response \"" ++ component ++ "\" (" ++ mediaType ++ ")"
  | .inline place => "inline schema at " ++ String.intercalate "." place

end Model

/-- A type of the client, or a part of one. -/
structure Model where
  /-- The name of a definition or of a property; empty for other parts. -/
  name : String
  kind : Model.Kind
  /-- The name of the model referred to, the name of a primitive type, or `any`. -/
  base : String
  description : Option String := none
  isDefinition : Bool := false
  isRequired : Bool := false
  isNullable : Bool := false
  isReadOnly : Bool := false
  deprecated : Bool := false
  format : Option String := none
  default : Option Json := none
  constraints : Model.Constraints := {}
  members : List Model.Member := []
  /-- The names that the model mentions, in order; its own is left out of a definition's. -/
  imports : List String := []
  origin : Model.Origin := .schema
  /-- The element type of an array or a dictionary. -/
  link : Option Model := none
  /-- The properties of an interface, or the members of a composition. -/
  properties : List Model := []
deriving BEq, Repr, Inhabited

namespace Model

/-- The character with which a name starts that is not final yet. -/
def provisionalMark : Char := '#'

/-- A model that refers to another one. -/
def reference (name target : String) : Model :=
  { name := name, kind := .reference, base := target, imports := [target] }

/-- A model of a primitive type. -/
def primitive (name base : String) : Model := { name := name, kind := .primitive, base := base }

/-- Whether the name is not final yet. -/
def isProvisional (m : Model) : Bool := m.name.toList.head? == some provisionalMark

mutual

/-- The names that a model mentions, at any depth. -/
def references : Model → List String
  | { kind, base, link, properties, .. } =>
    (if kind = .reference then [base] else []) ++ referencesOfLink link ++
      referencesOfAll properties

/-- The names that an element type mentions. -/
def referencesOfLink : Option Model → List String
  | none => []
  | some m => references m

/-- The names that some models mention. -/
def referencesOfAll : List Model → List String
  | [] => []
  | m :: rest => references m ++ referencesOfAll rest

end

/-- The imports that a model ought to have. -/
def importsOf (m : Model) : List String :=
  let names := Text.sortedNames m.references
  if m.isDefinition then names.filter (· != m.name) else names

mutual

/-- The model with its imports, and those of all its parts, set anew. -/
def refreshImports : Model → Model
  | m@{ link, properties, .. } =>
    { m with
      imports := importsOf m
      link := refreshLink link
      properties := refreshAll properties }

/-- The element type with its imports set anew. -/
def refreshLink : Option Model → Option Model
  | none => none
  | some m => some (refreshImports m)

/-- The models with their imports set anew. -/
def refreshAll : List Model → List Model
  | [] => []
  | m :: rest => refreshImports m :: refreshAll rest

end

mutual

/-- The model with every reference, at any depth, redirected. -/
def redirect (target : String → String) : Model → Model
  | m@{ kind, base, link, properties, .. } =>
    { m with
      base := if kind = .reference then target base else base
      link := redirectLink target link
      properties := redirectAll target properties }

/-- The element type with its references redirected. -/
def redirectLink (target : String → String) : Option Model → Option Model
  | none => none
  | some m => some (redirect target m)

/-- The models with their references redirected. -/
def redirectAll (target : String → String) : List Model → List Model
  | [] => []
  | m :: rest => redirect target m :: redirectAll target rest

end

end Model

end TypedClient
