/-!
# Artifacts

The kinds of files that are rendered, each from a template of its own. A kind is
known by the name of its template.
-/

namespace TypedClient

/-- The kinds of files that are rendered. -/
inductive Artifact where
  | settings
  | apiError
  | requestOptions
  | apiResult
  | request
  | requestHook
  | reactHookService
  | fastifyService
  | model
  | schema
  | validatorSchema
  | validatorGenerator
  | index
deriving DecidableEq, Repr, Inhabited

/-- The name of the template of an artifact. -/
def Artifact.template : Artifact → String
  | .settings => "core/OpenAPI.ts"
  | .apiError => "core/ApiError.ts"
  | .requestOptions => "core/ApiRequestOptions.ts"
  | .apiResult => "core/ApiResult.ts"
  | .request => "core/request.ts"
  | .requestHook => "core/requestReactHook.ts"
  | .reactHookService => "services/reactHook.ts"
  | .fastifyService => "services/fastify.ts"
  | .model => "models/model.ts"
  | .schema => "schemas/schema.ts"
  | .validatorSchema => "validators/schema.js"
  | .validatorGenerator => "validators/generator.js"
  | .index => "index.ts"

/-- All artifacts. -/
def Artifact.all : List Artifact :=
  [.settings, .apiError, .requestOptions, .apiResult, .request, .requestHook, .reactHookService,
    .fastifyService, .model, .schema, .validatorSchema, .validatorGenerator, .index]

/-- The artifact of a template name. -/
def Artifact.ofTemplate? (name : String) : Option Artifact := all.find? (·.template == name)

end TypedClient
