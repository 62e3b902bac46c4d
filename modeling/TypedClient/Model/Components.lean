import TypedClient.Document.Basic
import TypedClient.Error
import TypedClient.Model.Build

/-!
# Models of components

Every schema of the components becomes a definition under its own name. Shared
responses can be made definitions as well, one for every media type with a
schema, so that operations refer to them instead of repeating them.
-/

namespace TypedClient

namespace Model

/-- The name of a promoted response, by its component and its media type. -/
abbrev Promotions := List ((String × String) × String)

/-- The models of a document's components. -/
structure ComponentSet where
  /-- The named definitions, and behind them those that were lifted out of them. -/
  models : List Model
  promotions : Promotions

/-- The definitions of the component schemas, each with those lifted out of it. -/
def schemaDefinitions (d : Document) : List (Model × List Model) :=
  d.schemas.map fun (key, s) => definition "schemas" (Naming.typeName key) s .schema

/-- A schema of a shared response, and the name that its definition gets. -/
structure Promotable where
  component : String
  mediaType : String
  schema : Schema

/-- The schemas of an inline response, in the order of the media types. -/
def promotableOf (component : String) : Document.RefOr Document.Response → List Promotable
  | .ref _ => []
  | .inline response =>
    response.content.filterMap fun (mediaType, media) =>
      media.schema.map (Promotable.mk component mediaType)

/-- The schemas of all inline responses of the components. -/
def promotables (d : Document) : List Promotable :=
  match d.components with
  | none => []
  | some components => components.responses.flatMap fun (name, item) => promotableOf name item

namespace Promotable

/-- The name of the promoted definition. -/
def name (p : Promotable) : String :=
  Naming.typeName (Naming.responseModelName p.component p.mediaType)

/-- The origin of the promoted definition. -/
def origin (p : Promotable) : Origin := .response p.component p.mediaType

/-- The promoted definition, and those lifted out of it. -/
def define (p : Promotable) : Model × List Model :=
  definition "responses" p.name p.schema p.origin

end Promotable

/-- The first promoted response whose name is taken. -/
def firstTaken? (taken : List String) : List Promotable → Option Promotable
  | [] => none
  | p :: rest => if p.name ∈ taken then some p else firstTaken? (p.name :: taken) rest

/-- The models of the components. A promoted response must not take a name that is in use. -/
def ofComponents (d : Document) (promote : Bool) : Except Error ComponentSet :=
  let schemas := schemaDefinitions d
  let shared := if promote then promotables d else []
  match firstTaken? (schemas.map (·.1.name)) shared with
  | some p => .error (.nameCollision p.name p.origin.text)
  | none =>
    let definitions := schemas ++ shared.map (·.define)
    .ok {
      models := definitions.map (·.1) ++ definitions.flatMap (·.2)
      promotions := shared.map fun p => ((p.component, p.mediaType), p.name) }

end Model

end TypedClient
