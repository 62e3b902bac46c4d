import TypedClient.Document.Reference
import TypedClient.Model.Build
import TypedClient.Model.Components
import TypedClient.Operation.Basic
import TypedClient.Operation.Path

/-!
# From declared operations to operations of the client

Parameters of the path are merged with those of the operation, get identifiers
that are free among the arguments, and are followed by the body. Responses become
outcomes; a shared response that was promoted is referred to by name. Definitions
lifted out of parameters and responses are listed beside the operation.
-/

namespace TypedClient

namespace Operation

open Document (RefOr Parameter)

/-- The media types that are preferred where a body has several, best first. -/
def preferredMediaTypes : List String :=
  ["application/json-patch+json", "application/json", "application/x-www-form-urlencoded",
    "multipart/form-data", "multipart/mixed", "multipart/related", "multipart/batch"]

/-- The schema declared for a media type. -/
def schemaFor? (content : Document.Content) (mediaType : String) : Option (String × Schema) :=
  (content.lookup mediaType).bind fun media => media.schema.map (mediaType, ·)

/-- The schema that stands for the whole content, with its media type: that of the best preferred
media type, or else the first one. -/
def preferred? (content : Document.Content) : Option (String × Schema) :=
  (preferredMediaTypes.findSome? (schemaFor? content)).or
    (content.findSome? fun (mediaType, media) => media.schema.map (mediaType, ·))

/-- Whether two parameters have the same name and location. -/
def sameParameter (p q : Parameter) : Bool := p.name == q.name && p.location == q.location

/-- The parameters of the path, then those of the operation. A parameter of the operation replaces
earlier ones with the same name and location. -/
def mergeParameters (d : Document) (shared own : List (RefOr Parameter)) : List Parameter :=
  (own.filterMap d.parameter?).foldl
    (fun merged p => merged.filter (!sameParameter · p) ++ [p])
    (shared.filterMap d.parameter?)

/-- Free identifiers for some names, each different from the ones before it. -/
def assignIdentifiers (taken : List String) : List String → List String
  | [] => []
  | name :: rest =>
    let identifier := Naming.unique (Naming.valueName name) taken
    identifier :: assignIdentifiers (identifier :: taken) rest

/-- Whether a parameter is sent in the path. -/
def isInPath (p : Parameter) : Bool := p.location == .path

/-- Gives the parameters their identifiers: those in the path from one list, the others from
another. -/
def interleave : List Parameter → List String → List String → List String
  | [], _, _ => []
  | p :: ps, inPath, others =>
    if isInPath p then
      match inPath with
      | [] => []
      | name :: inPath => name :: interleave ps inPath others
    else
      match others with
      | [] => []
      | name :: others => name :: interleave ps inPath others

/-- The identifiers of the parameters, in order. Parameters in the path get theirs first. -/
def identifiers (ps : List Parameter) : List String :=
  let inPath := assignIdentifiers [] ((ps.filter isInPath).map (·.name))
  let others := assignIdentifiers inPath.reverse ((ps.filter (!isInPath ·)).map (·.name))
  interleave ps inPath others

/-- The schema of a parameter. -/
def schemaOf? (p : Parameter) : Option Schema :=
  p.schema.or ((p.content.bind preferred?).map (·.2))

/-- The argument for a parameter, and the definitions lifted out of its schema. -/
def argumentOf (scope root : String) (p : Parameter) (identifier : String) :
    Argument × List Model :=
  let (model, lifted) :=
    match schemaOf? p with
    | some s => Model.inline scope p.name [root, Naming.pascalCase p.name] s
    | none => (Model.primitive p.name "any", [])
  ({ wireName := p.name
     identifier := identifier
     place := .ofLocation p.location
     description := p.description
     model := { model with
       isRequired := p.required || isInPath p
       deprecated := model.deprecated || p.deprecated } },
    lifted)

/-- The argument for the body, and the definitions lifted out of its schema. -/
def bodyOf? (d : Document) (scope root : String) (taken : List String)
    (body : Option (RefOr Document.RequestBody)) : Option (Argument × List Model) := do
  let body ← body.bind d.requestBody?
  let (mediaType, s) ← preferred? body.content
  let (model, lifted) := Model.inline scope "requestBody" [root, "RequestBody"] s
  return ({
    wireName := "requestBody"
    identifier := Naming.unique "requestBody" taken
    place := .body
    description := body.description
    mediaType := some mediaType
    model := { model with isRequired := body.required } }, lifted)

/-- The name of the promoted definition that stands for a response. Only the component that the
reference names itself is looked up. -/
def promotion? (promotions : Model.Promotions) (item : RefOr Document.Response)
    (mediaType : String) : Option String :=
  match item with
  | .ref target => promotions.lookup (Pointer.key target, mediaType)
  | .inline _ => none

/-- The outcome for a declared response, and the definitions lifted out of its schema; none for a
key that is no status and for a reference that leads nowhere. -/
def outcomeOf? (d : Document) (promotions : Model.Promotions) (scope root : String)
    (key : String) (item : RefOr Document.Response) : Option (Outcome × List Model) := do
  let status ← Status.ofKey? key
  let response ← d.response? item
  let content := preferred? response.content
  let (model, lifted) :=
    match content with
    | none => (Model.primitive "" "void", [])
    | some (mediaType, s) =>
      match promotion? promotions item mediaType with
      | some name => (Model.reference "" name, [])
      | none => Model.inline scope "" [root, "Response" ++ status.label] s
  return ({
    status := status
    description := response.description
    mediaType := content.map (·.1)
    model := model
    header := response.headers.head?.map (·.1) }, lifted)

/-- A failure in words: the customary reason, or else what the document says. -/
def failureOf (o : Outcome) : Failure :=
  { status := o.status
    reason := match o.status.reason? with
      | some reason => reason
      | none => if o.description.isEmpty then "Unknown Error" else o.description }

/-- The required arguments, then the others, both in order. -/
def requiredFirst (arguments : List Argument) : List Argument :=
  arguments.filter (·.model.isRequired) ++ arguments.filter (!·.model.isRequired)

/-- The identifier of a placeholder: that of the first argument in the path with its name. -/
def placeholderIdentifier (inPath : List Argument) (token : String) : String :=
  match inPath.find? (·.wireName == token) with
  | some a => a.identifier
  | none => Naming.valueName token

/-- The name of the service that an operation belongs to, by its first tag. -/
def serviceOf (tags : List String) : String :=
  match tags with
  | [] => Naming.defaultService
  | tag :: _ => Naming.serviceName tag

/-- The operation that is declared under a path and a method, and the definitions lifted out of
it. -/
def build (d : Document) (promotions : Model.Promotions) (path : String) (method : Method)
    (op : Document.Operation) (shared : List (RefOr Parameter)) : Operation × List Model :=
  let name := nameFor op.operationId method path
  let root := Text.capitalize name
  let scope := method.key ++ " " ++ path
  let parameters := mergeParameters d shared op.parameters
  let identifiers := identifiers parameters
  let built := (parameters.zip identifiers).map fun (p, identifier) =>
    argumentOf scope root p identifier
  let sent := built.map (·.1)
  let body := bodyOf? d scope root identifiers op.requestBody
  let sentIn (place : Place) := sent.filter (·.place == place)
  let responses := op.responses.filterMap fun (key, item) =>
    outcomeOf? d promotions scope root key item
  let outcomes := responses.map (·.1)
  let successes := outcomes.filter (·.status.isSuccess)
  let failures := outcomes.filter (!·.status.isSuccess)
  let operation : Operation :=
    { service := serviceOf op.tags
      name := name
      hookName := "use" ++ root
      summary := op.summary
      description := op.description
      deprecated := op.deprecated
      method := method
      path := path
      pathParameters := PathTemplate.placeholders path
      pathPattern := PathTemplate.literalWith (placeholderIdentifier (sentIn .path)) path
      routePattern := PathTemplate.route path
      arguments := requiredFirst (sent ++ (body.map (·.1)).toList)
      pathArguments := sentIn .path
      queryArguments := sentIn .query
      headerArguments := sentIn .header
      cookieArguments := sentIn .cookie
      bodyArgument := body.map (·.1)
      outcomes := outcomes
      successes := successes
      failures := failures
      failureReasons := failures.map failureOf
      responseHeader := successes.findSome? (·.header) }
  (operation.refreshImports,
    built.flatMap (·.2) ++ (body.map (·.2)).getD [] ++ responses.flatMap (·.2))

end Operation

end TypedClient
