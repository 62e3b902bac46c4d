import TypedClient.Operation.Basic
import TypedClient.Proofs.Model.Parts
import TypedClient.Proofs.Text.Pieces

/-!
# The models of an operation

An operation stores its arguments and outcomes in nine lists. `models_mapModels` says that
changing the models of an operation reaches every model in every list, and
`mem_imports_refreshImports` that the imports are the names which these models mention.
-/

namespace TypedClient.Operation

/-- Every model in every list is changed. -/
@[simp]
theorem models_mapModels (f : Model → Model) (op : Operation) :
    (op.mapModels f).models = op.models.map f := by
  simp only [models, mapModels, List.map_append, List.map_map, Option.toList_map]
  rfl

@[simp]
theorem models_refreshImports (op : Operation) :
    op.refreshImports.models = op.models.map Model.refreshImports :=
  models_mapModels Model.refreshImports op

/-- The imports of an operation are the names that its models mention. -/
@[simp]
theorem mem_imports_refreshImports {op : Operation} {name : String} :
    name ∈ op.refreshImports.imports ↔ ∃ m ∈ op.models, name ∈ m.references := by
  rw [refreshImports, Text.mem_sortedNames, List.mem_flatMap]

/-- Two changes of the models one after the other are one change. -/
theorem mapModels_mapModels (f g : Model → Model) (op : Operation) :
    (op.mapModels f).mapModels g = op.mapModels (g ∘ f) := by
  simp only [mapModels, List.map_map, Option.map_map]
  rfl

/-- Changing no model changes nothing. -/
theorem mapModels_id (op : Operation) : op.mapModels id = op := by
  have hargument : (fun a : Argument => a.mapModel id) = id := rfl
  have houtcome : (fun o : Outcome => o.mapModel id) = id := rfl
  simp only [mapModels, hargument, houtcome, id_eq, List.map_id', Option.map_id']

/-- Changes that agree on the models of an operation make the same of it. -/
theorem mapModels_congr {f g : Model → Model} {op : Operation}
    (h : ∀ m ∈ op.models, f m = g m) : op.mapModels f = op.mapModels g := by
  have hargument : ∀ a : Argument, f a.model = g a.model → a.mapModel f = a.mapModel g := by
    intro a ha
    rw [Argument.mapModel, ha, Argument.mapModel]
  have houtcome : ∀ o : Outcome, f o.model = g o.model → o.mapModel f = o.mapModel g := by
    intro o ho
    rw [Outcome.mapModel, ho, Outcome.mapModel]
  simp only [models, List.forall_mem_append, List.forall_mem_map] at h
  obtain ⟨⟨⟨⟨⟨⟨harguments, hpath⟩, hquery⟩, hheader⟩, hcookie⟩, hbody⟩,
    ⟨⟨houtcomes, hsuccesses⟩, hfailures⟩⟩ := h
  rw [mapModels, mapModels, List.map_congr_left fun a ha => hargument a (harguments a ha),
    List.map_congr_left fun a ha => hargument a (hpath a ha),
    List.map_congr_left fun a ha => hargument a (hquery a ha),
    List.map_congr_left fun a ha => hargument a (hheader a ha),
    List.map_congr_left fun a ha => hargument a (hcookie a ha),
    Option.map_congr fun a ha => hargument a (hbody a (Option.mem_toList.2 ha)),
    List.map_congr_left fun o ho => houtcome o (houtcomes o ho),
    List.map_congr_left fun o ho => houtcome o (hsuccesses o ho),
    List.map_congr_left fun o ho => houtcome o (hfailures o ho)]

/-- Setting the imports a second time changes nothing. -/
@[simp]
theorem refreshImports_refreshImports (op : Operation) :
    op.refreshImports.refreshImports = op.refreshImports := by
  have htwice : Model.refreshImports ∘ Model.refreshImports = Model.refreshImports :=
    funext Model.refreshImports_refreshImports
  have hmodels : (op.mapModels Model.refreshImports).mapModels Model.refreshImports =
      op.mapModels Model.refreshImports := by
    rw [mapModels_mapModels, htwice]
  have hreferences : op.refreshImports.models.flatMap Model.references =
      op.models.flatMap Model.references := by
    rw [models_refreshImports, List.flatMap_map]
    exact List.flatMap_congr fun m _ => Model.references_refreshImports m
  calc op.refreshImports.refreshImports
      = { (op.mapModels Model.refreshImports).mapModels Model.refreshImports with
          imports := Text.sortedNames (op.refreshImports.models.flatMap Model.references) } := rfl
    _ = op.refreshImports := by rw [hmodels, hreferences, refreshImports]

end TypedClient.Operation
