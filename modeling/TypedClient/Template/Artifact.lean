import TypedClient.Artifact
import TypedClient.Error
import TypedClient.Template.Core
import TypedClient.Template.Pages
import TypedClient.Template.Services

/-!
# The templates of the artifacts

Every artifact has a template. Rendering fails only for want of a value that the
template writes, compares or lists.
-/

namespace TypedClient.Artifact

/-- The template of an artifact. -/
def nodes : Artifact → List Template.Node
  | .settings => Template.settings
  | .apiError => Template.apiError
  | .requestOptions => Template.requestOptions
  | .apiResult => Template.apiResult
  | .request => Template.request
  | .requestHook => Template.requestHook
  | .reactHookService => Template.reactHookService
  | .fastifyService => Template.fastifyService
  | .model => Template.model
  | .schema => Template.schema
  | .validatorSchema => Template.validatorSchema
  | .validatorGenerator => Template.validatorGenerator
  | .index => Template.index

/-- The text of an artifact in a context. -/
def render (artifact : Artifact) (context : Json) : Except Error String :=
  match Template.render? artifact.nodes context with
  | some text => .ok text
  | none => .error (.render artifact)

end TypedClient.Artifact
