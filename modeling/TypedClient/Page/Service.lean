import TypedClient.Client.Basic
import TypedClient.Model.Expression
import TypedClient.Operation.Path
import TypedClient.Options.Basic
import TypedClient.Page.Comment

/-!
# Pages of services

What the module of a service shows: the functions of its operations with their
signatures, the values that each sends, and the failures that it knows. Everything
that depends on types is worked out here; templates only lay it out.
-/

namespace TypedClient.Page

open Operation (Argument Outcome)

/-- A value that is sent: its name in the request and in the code. -/
structure SentField where
  prop : String
  name : String
deriving DecidableEq, Repr

/-- The body that is sent. -/
structure SentBody where
  name : String
  mediaType : String
deriving DecidableEq, Repr

/-- A failure that the module knows by its status. -/
structure KnownFailure where
  code : String
  description : String
deriving DecidableEq, Repr

/-- An operation as it is shown. -/
structure OperationPage where
  name : String
  hookName : String
  doc : List String
  method : String
  pathPattern : String
  routePattern : String
  signature : String
  arguments : String
  deps : String
  result : String
  path : List SentField
  query : List SentField
  headers : List SentField
  cookies : List SentField
  body : Option SentBody
  errors : List KnownFailure
  responseHeader : Option String
  validator : Option String
deriving DecidableEq, Repr

/-- A service as it is shown. -/
structure ServicePage where
  name : String
  imports : List String
  validators : List String
  operations : List OperationPage
  httpClient : HttpClient
  useUnionTypes : Bool
  useVersion : Bool
  useOptions : Bool
  runtimeValidation : Bool
  precompileValidator : Bool
  throwOnRequestFailed : Bool
  verboseHttpLog : Bool
deriving DecidableEq, Repr

/-- The name of an argument with its type. -/
def typedName (a : Argument) : String :=
  a.identifier ++ (if a.model.isRequired then "" else "?") ++ ": " ++ a.model.expression

/-- The names of arguments between commas. -/
def nameList (arguments : List Argument) : String :=
  Json.joinWith ", " (arguments.map (·.identifier))

/-- The names of arguments as a pattern that takes an object apart. -/
def bindingPattern (arguments : List Argument) : String := "\x7b " ++ nameList arguments ++ " \x7d"

/-- The parameter list of a function. -/
def signature (arguments : List Argument) (useOptions : Bool) : String :=
  if arguments.isEmpty then ""
  else if useOptions then
    bindingPattern arguments ++ ": \x7b " ++
      Json.joinWith " " (arguments.map fun a => typedName a ++ ";") ++ " \x7d" ++
      (if arguments.all (!·.model.isRequired) then " = \x7b\x7d" else "")
  else Json.joinWith ", " (arguments.map typedName)

/-- The arguments of a call from a function with the same parameter list. -/
def callArguments (arguments : List Argument) (useOptions : Bool) : String :=
  if arguments.isEmpty then ""
  else if useOptions then bindingPattern arguments
  else nameList arguments

/-- The items of a list, each at its first place. -/
def firstOccurrences (seen : List String) : List String → List String
  | [] => []
  | s :: rest =>
    if s ∈ seen then firstOccurrences seen rest else s :: firstOccurrences (s :: seen) rest

/-- The type of the result: the union of the types of all successes. -/
def resultType (op : Operation) : String :=
  match firstOccurrences [] (op.successes.map (·.model.expression)) with
  | [] => "void"
  | types => Json.joinWith " | " types

/-- The definition that an outcome refers to and that its values are sure to be of. -/
def plainReference? (o : Outcome) : Option String :=
  if o.model.kind = .reference ∧ !o.model.isNullable then some o.model.base else none

/-- The definition whose validator fits every success. -/
def validatedModel? (op : Operation) : Option String :=
  match op.successes.map plainReference? with
  | some name :: others => if others.all (· == some name) then some name else none
  | _ => none

/-- The values that are sent in one place. -/
def sentFields (arguments : List Argument) : List SentField :=
  arguments.map fun a => { prop := Script.escape a.wireName, name := a.identifier }

/-- The doc comment of an operation. -/
def operationDoc (op : Operation) (options : Options) : List String :=
  (op.summary.map commentLines).getD [] ++
    (op.description.map commentLines).getD [] ++
    (if op.deprecated then ["@deprecated"] else []) ++
    op.arguments.flatMap (fun a =>
      commentLines (Text.trimEnd ("@param " ++ a.identifier ++ " " ++ a.description.getD ""))) ++
    (if options.throwOnRequestFailed then
      op.failureReasons.map fun f => "@throws ApiError " ++ f.status.text ++ " " ++ f.reason
    else [])

/-- An operation as it is shown. -/
def ofOperation (options : Options) (op : Operation) : OperationPage :=
  { name := op.name
    hookName := op.hookName
    doc := operationDoc op options
    method := Text.upperAscii op.method.key
    pathPattern := Text.replaceChar '\x60' "\\\x60" op.pathPattern
    routePattern := Script.escape op.routePattern
    signature := signature op.arguments options.useOptions
    arguments := callArguments op.arguments options.useOptions
    deps := "[" ++ nameList op.arguments ++ "]"
    result := resultType op
    path := sentFields op.pathArguments
    query := sentFields op.queryArguments
    headers := sentFields op.headerArguments
    cookies := sentFields op.cookieArguments
    body := op.bodyArgument.map fun a =>
      { name := a.identifier, mediaType := a.mediaType.getD "" }
    errors := op.failureReasons.map fun f =>
      { code := Script.propertyKey f.status.text, description := Script.escape f.reason }
    responseHeader := op.responseHeader.map Script.escape
    validator :=
      if options.runtimeValidation && options.precompileValidator then validatedModel? op
      else none }

/-- Whether a text contains another one. -/
def containsText (pattern : List Char) : List Char → Bool
  | [] => pattern.isEmpty
  | c :: cs => pattern.isPrefixOf (c :: cs) || containsText pattern cs

/-- Whether an operation mentions the version of the API in its path. -/
def usesVersion (op : Operation) : Bool :=
  containsText PathTemplate.versionExpression.toList op.pathPattern.toList

/-- A service as it is shown. -/
def ofService (options : Options) (s : Service) : ServicePage :=
  let operations := s.operations.map (ofOperation options)
  { name := s.name
    imports := s.imports
    validators := Text.sortedNames (operations.filterMap (·.validator))
    operations := operations
    httpClient := options.httpClient
    useUnionTypes := options.useUnionTypes
    useVersion := s.operations.any usesVersion
    useOptions := options.useOptions
    runtimeValidation := options.runtimeValidation
    precompileValidator := options.precompileValidator
    throwOnRequestFailed := options.throwOnRequestFailed
    verboseHttpLog := options.verboseHttpLog }

/-- The context of a value that is sent. -/
def SentField.context (f : SentField) : Json :=
  .object [("prop", .string f.prop), ("name", .string f.name)]

/-- The context of the body. -/
def SentBody.context (b : SentBody) : Json :=
  .object [("name", .string b.name), ("mediaType", .string b.mediaType)]

/-- The context of a failure. -/
def KnownFailure.context (f : KnownFailure) : Json :=
  .object [("code", .string f.code), ("description", .string f.description)]

/-- The context of an operation. -/
def OperationPage.context (p : OperationPage) : Json :=
  .object
    [("name", .string p.name),
      ("hookName", .string p.hookName),
      ("doc", .strings p.doc),
      ("method", .string p.method),
      ("pathPattern", .string p.pathPattern),
      ("routePattern", .string p.routePattern),
      ("signature", .string p.signature),
      ("arguments", .string p.arguments),
      ("deps", .string p.deps),
      ("result", .string p.result),
      ("path", .array (p.path.map (·.context))),
      ("query", .array (p.query.map (·.context))),
      ("headers", .array (p.headers.map (·.context))),
      ("cookies", .array (p.cookies.map (·.context))),
      ("body", (p.body.map (·.context)).getD .null),
      ("errors", .array (p.errors.map (·.context))),
      ("responseHeader", .ofOption p.responseHeader),
      ("validator", .ofOption p.validator)]

/-- The context of a service. -/
def ServicePage.context (p : ServicePage) : Json :=
  .object
    [("name", .string p.name),
      ("imports", .strings p.imports),
      ("validators", .strings p.validators),
      ("operations", .array (p.operations.map (·.context))),
      ("httpClient", .string p.httpClient.name),
      ("useUnionTypes", .bool p.useUnionTypes),
      ("useVersion", .bool p.useVersion),
      ("useOptions", .bool p.useOptions),
      ("runtimeValidation", .bool p.runtimeValidation),
      ("precompileValidator", .bool p.precompileValidator),
      ("throwOnRequestFailed", .bool p.throwOnRequestFailed),
      ("verboseHttpLog", .bool p.verboseHttpLog)]

end TypedClient.Page
