import TypedClient.Document.Basic
import TypedClient.Model.Basic
import TypedClient.Operation.Status

/-!
# Operations

An operation as the generated code sees it: a function with arguments and
outcomes. The arguments are listed once as they are passed, required ones first,
and once more for every place where they are sent.
-/

namespace TypedClient

namespace Operation

/-- Where an argument is sent. -/
inductive Place where
  | path
  | query
  | header
  | cookie
  | body
deriving DecidableEq, Repr, Inhabited

/-- The name of a place. -/
def Place.name : Place → String
  | .path => "path"
  | .query => "query"
  | .header => "header"
  | .cookie => "cookie"
  | .body => "body"

/-- The place for a declared location. -/
def Place.ofLocation : Document.Location → Place
  | .path => .path
  | .query => .query
  | .header => .header
  | .cookie => .cookie

/-- An argument of an operation. -/
structure Argument where
  /-- The name under which the value is sent. -/
  wireName : String
  /-- The identifier in the generated code. -/
  identifier : String
  place : Place
  description : Option String := none
  /-- The media type of a body. -/
  mediaType : Option String := none
  model : Model
deriving BEq, Repr, Inhabited

/-- What may come back for a status. -/
structure Outcome where
  status : Status
  description : String := ""
  /-- The media type whose schema the model was built from. -/
  mediaType : Option String := none
  /-- The type of the body; `void` without one. -/
  model : Model
  /-- The first declared header. -/
  header : Option String := none
deriving BEq, Repr, Inhabited

/-- A failure in words. -/
structure Failure where
  status : Status
  reason : String
deriving DecidableEq, Repr, Inhabited

end Operation

/-- An operation of the client. -/
structure Operation where
  service : String
  name : String
  hookName : String
  summary : Option String := none
  description : Option String := none
  deprecated : Bool := false
  method : Method
  path : String
  /-- The names of the placeholders of the path. -/
  pathParameters : List String := []
  /-- The path as the text of a template literal. -/
  pathPattern : String := ""
  /-- The path as a router reads it. -/
  routePattern : String := ""
  /-- All arguments, the required ones first. -/
  arguments : List Operation.Argument := []
  pathArguments : List Operation.Argument := []
  queryArguments : List Operation.Argument := []
  headerArguments : List Operation.Argument := []
  cookieArguments : List Operation.Argument := []
  bodyArgument : Option Operation.Argument := none
  imports : List String := []
  /-- All outcomes, in the order in which they are declared. -/
  outcomes : List Operation.Outcome := []
  successes : List Operation.Outcome := []
  failures : List Operation.Outcome := []
  failureReasons : List Operation.Failure := []
  /-- The header that is returned instead of the body. -/
  responseHeader : Option String := none
deriving BEq, Repr, Inhabited

namespace Operation

/-- The argument with its model changed. -/
def Argument.mapModel (f : Model → Model) (a : Argument) : Argument := { a with model := f a.model }

/-- The outcome with its model changed. -/
def Outcome.mapModel (f : Model → Model) (o : Outcome) : Outcome := { o with model := f o.model }

/-- The operation with every model changed. -/
def mapModels (f : Model → Model) (op : Operation) : Operation :=
  { op with
    arguments := op.arguments.map (·.mapModel f)
    pathArguments := op.pathArguments.map (·.mapModel f)
    queryArguments := op.queryArguments.map (·.mapModel f)
    headerArguments := op.headerArguments.map (·.mapModel f)
    cookieArguments := op.cookieArguments.map (·.mapModel f)
    bodyArgument := op.bodyArgument.map (·.mapModel f)
    outcomes := op.outcomes.map (·.mapModel f)
    successes := op.successes.map (·.mapModel f)
    failures := op.failures.map (·.mapModel f) }

/-- All models of an operation. -/
def models (op : Operation) : List Model :=
  (op.arguments ++ op.pathArguments ++ op.queryArguments ++ op.headerArguments ++
    op.cookieArguments ++ op.bodyArgument.toList).map (·.model) ++
    (op.outcomes ++ op.successes ++ op.failures).map (·.model)

/-- The operation with its imports, and those of its models, set anew. -/
def refreshImports (op : Operation) : Operation :=
  { op.mapModels Model.refreshImports with
    imports := Text.sortedNames (op.models.flatMap Model.references) }

end Operation

end TypedClient
