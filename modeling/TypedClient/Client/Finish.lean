import TypedClient.Client.Basic
import TypedClient.Error
import TypedClient.Naming.Identifier
import TypedClient.Naming.Unique

/-!
# Final names

`finish` gives every definition its final name and redirects all references.
Names that the document fixes must be different; a definition that was lifted out
of another schema takes the name of its place, with a number behind it if that
name is taken. Operations of one service that would share a name are numbered in
the same way. At the end models and services are sorted by name.
-/

namespace TypedClient

namespace Client

/-- The first model that repeats the name of an earlier one. -/
def firstRepeated? (seen : List String) : List Model → Option Model
  | [] => none
  | m :: rest => if m.name ∈ seen then some m else firstRepeated? (m.name :: seen) rest

/-- The name that a lifted definition asks for. -/
def wantedName (m : Model) : String :=
  match m.origin with
  | .inline place => Naming.placeName place
  | _ => Naming.placeName [m.name]

/-- The final names of some lifted definitions, in order, each free among those before it. -/
def finalNames (taken : List String) : List Model → List String
  | [] => []
  | m :: rest =>
    let name := Naming.unique (wantedName m) taken
    name :: finalNames (name :: taken) rest

/-- The final names by the provisional ones. Of two definitions with one provisional name the last
counts. -/
def renames (models : List Model) : List (String × String) :=
  let fixed := (models.filter (!·.isProvisional)).map (·.name)
  let lifted := models.filter (·.isProvisional)
  ((lifted.map (·.name)).zip (finalNames fixed.reverse lifted)).reverse

/-- The final name for a name that a reference mentions. -/
def finalName (renames : List (String × String)) (name : String) : String :=
  (renames.lookup name).getD name

/-- The models with their own names final: lifted ones take the given names, in order. -/
def nameModels : List Model → List String → List Model
  | [], _ => []
  | m :: rest, names =>
    if m.isProvisional then
      match names with
      | [] => m :: nameModels rest []
      | name :: names => { m with name := name } :: nameModels rest names
    else m :: nameModels rest names

/-- The models with their own names final. -/
def namedModels (models : List Model) : List Model :=
  let fixed := (models.filter (!·.isProvisional)).map (·.name)
  nameModels models (finalNames fixed.reverse (models.filter (·.isProvisional)))

/-- The operation under another name. Its hook follows. -/
def renameOperation (name : String) (op : Operation) : Operation :=
  if name = op.name then op
  else { op with name := name, hookName := "use" ++ Text.capitalize name }

/-- The operations with different names: one that repeats an earlier name is numbered. -/
def distinguish (seen : List String) : List Operation → List Operation
  | [] => []
  | op :: rest =>
    let name := Naming.unique op.name seen
    renameOperation name op :: distinguish (name :: seen) rest

/-- The service with all references redirected and all names different. -/
def finishService (target : String → String) (s : Service) : Service :=
  let redirected := s.operations.map fun op => (op.mapModels (Model.redirect target)).refreshImports
  let operations := distinguish [] redirected
  { s with
    operations := operations
    imports := Text.sortedNames (operations.flatMap (·.imports)) }

/-- Models in the order of their names. -/
def sortModels (models : List Model) : List Model := models.mergeSort fun a b => a.name ≤ b.name

/-- Services in the order of their names. -/
def sortServices (services : List Service) : List Service :=
  services.mergeSort fun a b => a.name ≤ b.name

/-- The client with final names; refused if the document fixes a name twice. -/
def finish (c : Client) : Except Error Client :=
  match firstRepeated? [] (c.models.filter (!·.isProvisional)) with
  | some m => .error (.nameCollision m.name m.origin.text)
  | none =>
    let target := finalName (renames c.models)
    .ok { c with
      models := sortModels
        ((namedModels c.models).map fun m => (m.redirect target).refreshImports)
      services := sortServices (c.services.map (finishService target)) }

end Client

end TypedClient
