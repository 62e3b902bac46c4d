import TypedClient.Schema.Basic

/-!
# OpenAPI documents

The part of an OpenAPI document that matters for the generated client. Everything
that a document lists under names keeps the order in which it is declared.
-/

namespace TypedClient

/-- The methods under which operations are declared. -/
inductive Method where
  | get
  | put
  | post
  | delete
  | options
  | head
  | patch
  | trace
deriving DecidableEq, Repr, Inhabited

namespace Method

/-- The key of a method in a path item. -/
def key : Method → String
  | .get => "get"
  | .put => "put"
  | .post => "post"
  | .delete => "delete"
  | .options => "options"
  | .head => "head"
  | .patch => "patch"
  | .trace => "trace"

/-- All methods. -/
def all : List Method := [.get, .put, .post, .delete, .options, .head, .patch, .trace]

/-- The method of a key. -/
def ofKey? (key : String) : Option Method := all.find? (·.key == key)

end Method

namespace Document

/-- Where a parameter is sent. -/
inductive Location where
  | path
  | query
  | header
  | cookie
deriving DecidableEq, Repr, Inhabited

/-- The key of a location. -/
def Location.key : Location → String
  | .path => "path"
  | .query => "query"
  | .header => "header"
  | .cookie => "cookie"

/-- The location of a key. -/
def Location.ofKey? (key : String) : Option Location :=
  [Location.path, .query, .header, .cookie].find? (·.key == key)

/-- A reference to a shared component, or the component itself. -/
inductive RefOr (α : Type) where
  | ref (target : String)
  | inline (value : α)
deriving Repr, Inhabited

/-- The body for one media type. -/
structure MediaType where
  schema : Option Schema := none
deriving Repr, Inhabited

/-- The bodies of a message, by media type. -/
abbrev Content := List (String × MediaType)

/-- A parameter of an operation. -/
structure Parameter where
  name : String
  location : Location
  description : Option String := none
  required : Bool := false
  deprecated : Bool := false
  schema : Option Schema := none
  content : Option Content := none
deriving Repr, Inhabited

/-- The body of a request. -/
structure RequestBody where
  description : Option String := none
  required : Bool := false
  content : Content := []
deriving Repr, Inhabited

/-- A header of a response. -/
structure Header where
  description : Option String := none
  schema : Option Schema := none
deriving Repr, Inhabited

/-- A response. -/
structure Response where
  description : String := ""
  content : Content := []
  headers : List (String × RefOr Header) := []
deriving Repr, Inhabited

/-- An operation, as it is declared. -/
structure Operation where
  operationId : Option String := none
  summary : Option String := none
  description : Option String := none
  tags : List String := []
  deprecated : Bool := false
  parameters : List (RefOr Parameter) := []
  requestBody : Option (RefOr RequestBody) := none
  responses : List (String × RefOr Response) := []
deriving Repr, Inhabited

/-- The operations of a path and the parameters that they share. -/
structure PathItem where
  operations : List (Method × Operation) := []
  parameters : List (RefOr Parameter) := []
deriving Repr, Inhabited

/-- What the document says about itself. -/
structure Info where
  title : String := ""
  version : String := ""
deriving Repr, Inhabited

/-- A variable in the address of a server. -/
structure ServerVariable where
  default : String
deriving Repr, Inhabited

/-- A server. -/
structure Server where
  url : String
  placeholders : List (String × ServerVariable) := []
deriving Repr, Inhabited

/-- The shared parts of a document. -/
structure Components where
  schemas : List (String × Schema) := []
  responses : List (String × RefOr Response) := []
  parameters : List (String × RefOr Parameter) := []
  requestBodies : List (String × RefOr RequestBody) := []
deriving Repr, Inhabited

end Document

/-- An OpenAPI document. -/
structure Document where
  openapi : String
  info : Document.Info := {}
  servers : List Document.Server := []
  paths : List (String × Document.PathItem) := []
  components : Option Document.Components := none
deriving Repr, Inhabited

namespace Document

/-- The schemas of the components. -/
def schemas (d : Document) : List (String × Schema) := (d.components.map (·.schemas)).getD []

end Document

end TypedClient
