import TypedClient.Proofs.Client.Drafted
import TypedClient.Proofs.Client.Position
import TypedClient.Proofs.Client.Renaming

/-!
# The models of a finished client

The models of a finished client are those of the component schemas, those of the promoted
responses and the lifted ones. The document fixes the names of the first two kinds. A lifted
definition takes the name of its place, or else that name with the least number from 2 on
that is free (`Naming.FreeName`). `modelSet_of_draft_finish` is the main result: models and
services are strictly sorted by name, there is one model for each schema and for each promoted
response, under its declared name, and no lifted definition takes such a name.
-/

namespace TypedClient.Client

/-- The lifted definitions of a finished client, in the order in which they are named. Each is
rewritten from the definition of an inline object and named after the place of that object, where
the names in `taken` and those of earlier lifted definitions are not free. -/
inductive NamedByPlace (d : Document) (promote : Bool) (rho : String → String) :
    List String → List Model → Prop
  | nil (taken : List String) : NamedByPlace d promote rho taken []
  | cons (taken : List String) (p : Position) (spot : Spot) (m : Model) (rest : List Model) :
      d.object? promote p = some spot →
      Model.Rewritten rho (withName spot.definition m.name) m →
      m.origin = .inline spot.place →
      Naming.FreeName (Naming.placeName spot.place) taken m.name →
      NamedByPlace d promote rho (m.name :: taken) rest →
      NamedByPlace d promote rho taken (m :: rest)

/-- What the models of a client are: one for each component schema, one for each promoted response,
and the lifted ones. `rho` is the map by which references are redirected. -/
structure ModelSet (d : Document) (promote : Bool) (c : Client) (rho : String → String)
    (schemas responses lifted : List Model) : Prop where
  models_sorted : c.models.Pairwise fun m n => m.name < n.name
  services_sorted : c.services.Pairwise fun s t => s.name < t.name
  models_perm : c.models.Perm (schemas ++ responses ++ lifted)
  /-- The models of the component schemas, one for each key. -/
  of_schemas : List.Forall₂ (fun (key, s) m =>
      m.name = Naming.typeName key ∧ m.origin = .schema ∧
        Model.Rewritten rho (Model.definition "schemas" (Naming.typeName key) s .schema).1 m)
    d.schemas schemas
  /-- The models of the promoted responses, one for each media type with a schema. -/
  of_responses : List.Forall₂ (fun p m =>
      m.name = p.name ∧ m.origin = .response p.component p.mediaType ∧
        Model.Rewritten rho p.define.1 m)
    (d.promoted promote) responses
  of_objects : NamedByPlace d promote rho (d.declaredNames promote) lifted
  declared_names : (schemas ++ responses).map (·.name) = d.declaredNames promote
  lifted_names_free : ∀ m ∈ lifted, m.name ∉ d.declaredNames promote

/-! ## Sorted by name -/

/-- Items that are sorted by name are in the order of their names. -/
theorem pairwise_le_mergeSort {α : Type} (name : α → String) (items : List α) :
    (items.mergeSort fun a b => name a ≤ name b).Pairwise fun a b => name a ≤ name b := by
  have htrans : ∀ a b c : α, decide (name a ≤ name b) = true →
      decide (name b ≤ name c) = true → decide (name a ≤ name c) = true := by
    intro a b c hab hbc
    simp only [decide_eq_true_eq] at hab hbc ⊢
    exact String.le_trans hab hbc
  have htotal : ∀ a b : α, (decide (name a ≤ name b) || decide (name b ≤ name a)) = true :=
    fun a b => by simpa using String.le_total (name a) (name b)
  exact (List.pairwise_mergeSort htrans htotal items).imp of_decide_eq_true

/-- Items with different names are strictly increasing once they are sorted by name. -/
theorem pairwise_lt_mergeSort {α : Type} {name : α → String} {items : List α}
    (hnodup : (items.map name).Nodup) :
    (items.mergeSort fun a b => name a ≤ name b).Pairwise fun a b => name a < name b := by
  have hsorted := pairwise_le_mergeSort name items
  have hne : (items.mergeSort fun a b => name a ≤ name b).Pairwise
      fun a b => name a ≠ name b := by
    rw [← List.pairwise_map (f := name) (R := (· ≠ ·))]
    exact ((List.mergeSort_perm _ _).map name).nodup_iff.2 hnodup
  refine (hsorted.and hne).imp fun ⟨hle, hne⟩ => String.not_le.1 fun hge => ?_
  exact hne (String.le_antisymm hle hge)

theorem models_finished_sorted {c : Client} (h : (fixedNames c.models).Nodup) :
    c.finished.models.Pairwise fun m n => m.name < n.name := by
  apply pairwise_lt_mergeSort
  have hperm := ((models_finished_perm c).map (·.name)).nodup_iff
  exact hperm.1 (nodup_names_finished h)

theorem services_finished_sorted (d : Document) (promote : Bool) :
    (drafted d promote).finished.services.Pairwise fun s t => s.name < t.name := by
  apply pairwise_lt_mergeSort
  rw [List.map_map]
  -- Finishing a service leaves its name alone.
  exact (grouped_group _).nodup_names

/-! ## Named definitions -/

@[simp]
theorem origin_finishModel (target : String → String) (m : Model) :
    (finishModel target m).origin = m.origin := by
  rw [finishModel, Model.refreshImports_eq, Model.redirect_eq]

/-- The place that a lifted definition is named after is the place of its object. -/
@[simp]
theorem origin_definition (spot : Spot) : spot.definition.origin = .inline spot.place := by
  rw [Spot.definition, Model.liftedDefinition, Model.asLifted, Model.refreshImports_eq]

@[simp]
theorem origin_modelDefinition (scope name : String) (s : Schema) (origin : Model.Origin) :
    (Model.definition scope name s origin).1.origin = origin := by
  rw [Model.definition, Model.refreshImports_eq]

theorem wantedName_definition (spot : Spot) :
    wantedName spot.definition = Naming.placeName spot.place := by
  rw [wantedName, origin_definition]

variable {d : Document} {promote : Bool}

/-- Definitions of inline objects that are given their final names are named by their places. -/
theorem namedByPlace_finalNames {rho : String → String} {ms : List Model}
    (h : ∀ m ∈ ms, ∃ p spot, d.object? promote p = some spot ∧ m = spot.definition)
    {taken others : List String} (hmem : ∀ name, name ∈ others ↔ name ∈ taken) :
    NamedByPlace d promote rho others
      ((withNames ms (finalNames taken ms)).map (finishModel rho)) := by
  induction ms generalizing taken others with
  | nil => exact .nil others
  | cons m ms ih =>
      obtain ⟨p, spot, hspot, rfl⟩ := h m List.mem_cons_self
      have hname := Naming.freeName_unique (wantedName spot.definition) taken
      refine .cons others p spot _ _ hspot ?_ ?_ ?_ ?_
      · rw [name_finishModel, name_withName]
        exact rewritten_finishModel rho _
      · exact (origin_finishModel _ _).trans (origin_definition spot)
      · rw [name_finishModel, name_withName, ← wantedName_definition]
        exact hname.congr hmem
      · rw [name_finishModel, name_withName]
        refine ih (fun n hn => h n (List.mem_cons_of_mem _ hn)) fun name => ?_
        rw [List.mem_cons, List.mem_cons, hmem]

theorem NamedByPlace.not_mem {rho : String → String} {taken : List String} {lifted : List Model}
    (h : NamedByPlace d promote rho taken lifted) : ∀ m ∈ lifted, m.name ∉ taken := by
  induction h with
  | nil taken => simp
  | cons taken p spot m rest hspot hrewritten horigin hname hrest ih =>
      intro n hn
      rcases List.mem_cons.1 hn with rfl | hn
      · exact hname.not_mem
      · exact fun htaken => ih n hn (List.mem_cons_of_mem _ htaken)

/-! ## The model set -/

/-- The model of a component schema in the finished client. -/
def schemaModel (rho : String → String) (entry : String × Schema) : Model :=
  finishModel rho (Model.definition "schemas" (Naming.typeName entry.1) entry.2 .schema).1

/-- The model of a promoted response in the finished client. -/
def responseModel (rho : String → String) (p : Model.Promotable) : Model :=
  finishModel rho p.define.1

@[simp]
theorem name_schemaModel (rho : String → String) (entry : String × Schema) :
    (schemaModel rho entry).name = Naming.typeName entry.1 := by
  rw [schemaModel, name_finishModel, Model.name_definition]

@[simp]
theorem name_responseModel (rho : String → String) (p : Model.Promotable) :
    (responseModel rho p).name = p.name := by
  rw [responseModel, name_finishModel, Model.Promotable.define, Model.name_definition]

/-- The definitions whose names the document fixes, as they are in the finished client. -/
theorem fixedModels_map_finishModel (rho : String → String) :
    (fixedModels (drafted d promote).models).map (finishModel rho) =
      d.schemas.map (schemaModel rho) ++ (d.promoted promote).map (responseModel rho) := by
  rw [fixedModels_drafted, Document.builtComponents, Document.named]
  simp only [List.map_append, List.map_map]
  rfl

/-- The models of the finished client of a document: they and the services are strictly sorted by
name; there is one for each component schema and for each promoted response, under its declared
name; all others are lifted out of inline objects and named by their places, with the least free
number where the name is taken, so that none takes a declared name. -/
theorem modelSet_of_draft_finish {c : Client} (h : (draft d promote >>= finish) = .ok c) :
    ∃ rho schemas responses lifted, ModelSet d promote c rho schemas responses lifted := by
  obtain ⟨hnodup, rfl⟩ := draft_bind_finish_eq_ok_iff.1 h
  set b := drafted d promote with hb
  have hfixed : fixedNames b.models = d.declaredNames promote := fixedNames_drafted d promote
  have hlifted : NamedByPlace d promote b.target (d.declaredNames promote)
      ((withNames (liftedModels b.models) (liftedNames b.models)).map (finishModel b.target)) := by
    rw [liftedNames, hfixed]
    exact namedByPlace_finalNames (fun m hm => (mem_lifted_iff hnodup).1 hm)
      fun name => List.mem_reverse.symm
  refine ⟨b.target, d.schemas.map (schemaModel b.target),
    (d.promoted promote).map (responseModel b.target), _,
    { models_sorted := models_finished_sorted (hfixed ▸ hnodup)
      services_sorted := services_finished_sorted d promote
      models_perm := ?_
      of_schemas := forall₂_map_of_forall fun entry _ => ?_
      of_responses := forall₂_map_of_forall fun p _ => ?_
      of_objects := hlifted
      declared_names := ?_
      lifted_names_free := hlifted.not_mem }⟩
  · have hperm := (namedModels_perm b.models).map (finishModel b.target)
    rw [List.map_append, fixedModels_map_finishModel] at hperm
    exact (models_finished_perm b).trans hperm
  · refine ⟨name_schemaModel _ _, ?_, rewritten_finishModel _ _⟩
    rw [schemaModel, origin_finishModel, origin_modelDefinition]
  · refine ⟨name_responseModel _ _, ?_, rewritten_finishModel _ _⟩
    rw [responseModel, origin_finishModel, Model.Promotable.define, origin_modelDefinition,
      Model.Promotable.origin]
  · rw [List.map_append, List.map_map, List.map_map, Document.declaredNames]
    refine congrArg₂ (· ++ ·) ?_ ?_
    · exact List.map_congr_left fun entry _ => name_schemaModel _ entry
    · exact List.map_congr_left fun p _ => name_responseModel _ p

/-- A document with a schema under the name of the place of an inline object, and with a shared
response. -/
def ownerDocument : Document where
  openapi := "3.0.0"
  components := some {
    schemas :=
      [("Pet", { properties :=
        [("owner", { properties := [("name", { type := some (.single "string") })] })] }),
       ("PetOwner", { type := some (.single "string") })]
    responses :=
      [("Missing", .inline { content :=
        [("text/plain", { schema := some { type := some (.single "string") } })] })] }

theorem modelSet_ownerDocument :
    ∃ rho schemas responses lifted,
      ModelSet ownerDocument true (drafted ownerDocument true).finished rho schemas responses
        lifted := by
  have hclient : (draft ownerDocument true >>= finish) =
      .ok (drafted ownerDocument true).finished :=
    draft_bind_finish_eq_ok_iff.2 ⟨by decide, rfl⟩
  exact modelSet_of_draft_finish hclient

end TypedClient.Client
