import TypedClient.Client.Basic
import TypedClient.Model.Expression
import TypedClient.Model.JsonSchema
import TypedClient.Options.Basic
import TypedClient.Page.Comment

/-!
# Pages of definitions

What is shown of a definition: as a type, as an enumeration or as an object type,
and as a JSON Schema. Beside them stand the pages about all definitions at once:
the script of the validator compiler, the settings of the core and the index.
-/

namespace TypedClient.Page

/-- A property as it is shown. -/
structure PropertyPage where
  key : String
  isOptional : Bool
  readOnly : Bool
  tsType : String
  doc : List String
deriving DecidableEq, Repr

/-- A member of an enumeration as it is shown. -/
structure MemberPage where
  key : String
  value : String
  doc : List String
deriving DecidableEq, Repr

/-- A definition as it is shown. -/
structure ModelPage where
  name : String
  kind : Model.Kind
  imports : List String
  doc : List String
  tsType : String
  asEnum : Bool
  asInterface : Bool
  properties : List PropertyPage
  members : List MemberPage
  httpClient : HttpClient
  useUnionTypes : Bool
deriving DecidableEq, Repr

/-- The doc comment of a model. -/
def modelDoc (m : Model) : List String :=
  (m.description.map commentLines).getD [] ++ (if m.deprecated then ["@deprecated"] else [])

/-- A property as it is shown. -/
def ofProperty (m : Model) : PropertyPage :=
  { key := Script.propertyKey m.name
    isOptional := !m.isRequired
    readOnly := m.isReadOnly
    tsType := m.expression
    doc := modelDoc m }

/-- A member of an enumeration as it is shown. -/
def ofMember (m : Model.Member) : MemberPage :=
  { key := Script.memberKey m.name
    value := Script.literal m.value
    doc := (m.description.map commentLines).getD [] }

/-- A definition as it is shown. -/
def ofModel (options : Options) (m : Model) : ModelPage :=
  { name := m.name
    kind := m.kind
    imports := m.imports
    doc := modelDoc m
    tsType := m.expression
    asEnum := m.isRuntimeEnum options.useUnionTypes
    asInterface := m.kind == .interface && !m.properties.isEmpty && !m.isNullable
    properties := m.properties.map ofProperty
    members := m.members.map ofMember
    httpClient := options.httpClient
    useUnionTypes := options.useUnionTypes }

/-- The context of a property. -/
def PropertyPage.context (p : PropertyPage) : Json :=
  .object
    [("key", .string p.key),
      ("optional", .bool p.isOptional),
      ("readonly", .bool p.readOnly),
      ("tsType", .string p.tsType),
      ("doc", .strings p.doc)]

/-- The context of a member of an enumeration. -/
def MemberPage.context (p : MemberPage) : Json :=
  .object [("key", .string p.key), ("value", .string p.value), ("doc", .strings p.doc)]

/-- The context of a definition. -/
def ModelPage.context (p : ModelPage) : Json :=
  .object
    [("name", .string p.name),
      ("kind", .string p.kind.name),
      ("imports", .strings p.imports),
      ("doc", .strings p.doc),
      ("tsType", .string p.tsType),
      ("asEnum", .bool p.asEnum),
      ("asInterface", .bool p.asInterface),
      ("properties", .array (p.properties.map (·.context))),
      ("members", .array (p.members.map (·.context))),
      ("httpClient", .string p.httpClient.name),
      ("useUnionTypes", .bool p.useUnionTypes)]

/-- The context of the JSON Schema of a definition. -/
def schemaContext (m : Model) : Json :=
  .object [("name", .string m.name), ("schema", .string m.schemaSource)]

/-- The file that holds the JSON Schema of a definition for the validator compiler. -/
def validatorInput (m : Model) : String := "$" ++ m.name ++ ".js"

/-- The context of the script that compiles the validators. -/
def generatorContext (options : Options) (models : List Model) : Json :=
  .object
    [("models", .array (models.map fun m =>
        .object [("name", .string m.name), ("schemaFile", .string (validatorInput m))])),
      ("httpClient", .string options.httpClient.name),
      ("useUnionTypes", .bool options.useUnionTypes)]

/-- The context of the modules of the core. -/
def coreContext (options : Options) (c : Client) : Json :=
  .object
    [("httpClient", .string options.httpClient.name),
      ("variation", .string options.variation.name),
      ("server", .string (Script.escape c.server)),
      ("version", .string (Script.escape c.version)),
      ("runtimeValidation", .bool options.runtimeValidation),
      ("throwOnRequestFailed", .bool options.throwOnRequestFailed),
      ("verboseHttpLog", .bool options.verboseHttpLog)]

/-- The name of the module of a service, without its extension. -/
def serviceModule (s : Service) : String := s.name ++ "Service"

/-- The context of the index. -/
def indexContext (options : Options) (c : Client) : Json :=
  .object
    [("exportCore", .bool options.exportCore),
      ("exportServices", .bool options.exportServices),
      ("exportModels", .bool options.exportModels),
      ("exportSchemas", .bool options.exportSchemas),
      ("precompileValidator", .bool options.precompileValidator),
      ("variation", .string options.variation.name),
      ("models", .array (c.models.map fun m =>
        .object
          [("name", .string m.name),
            ("isEnum", .bool (m.isRuntimeEnum options.useUnionTypes))])),
      ("services", .array (c.services.map fun s =>
        .object [("name", .string s.name), ("module", .string (serviceModule s))]))]

end TypedClient.Page
