import TypedClient.Page.Service
import TypedClient.Proofs.Client.References
import TypedClient.Proofs.Client.WellFormed
import TypedClient.Proofs.Model.Printed

/-!
# Imports

The imports of a definition are the names that its type mentions, beside its own: nothing is
imported that is not written, and nothing is written that is not imported. The imports of an
operation, and those of its service, hold at least what its parameters and its result mention
(`imports_mentioned`). That a definition writes all of its references rests on how it was built, and
is kept when names become final.
-/

namespace TypedClient

namespace Operation

/-- The types that an operation writes: those of its parameters, and that of its result. -/
def types (op : Operation) (useOptions : Bool) : String × String :=
  (Page.signature op.arguments useOptions, Page.resultType op)

/-- What an operation writes mentions names of its models only. -/
theorem exists_mem_references_of_isMentioned {op : Operation} {name : String} {useOptions : Bool}
    (h : Model.IsMentioned
      (fun target => (op.mapModels (Model.redirect target)).types useOptions) name) :
    ∃ m ∈ op.models, name ∈ m.references := by
  obtain ⟨target, hothers, hchanged⟩ := h
  by_contra hnone
  have hsame : op.mapModels (Model.redirect target) = op.mapModels (Model.redirect id) := by
    refine mapModels_congr fun m hm => Model.redirect_congr fun other hother => ?_
    exact hothers other fun heq => hnone ⟨m, hm, heq ▸ hother⟩
  exact hchanged (congrArg (fun op : Operation => op.types useOptions) hsame)

end Operation

namespace Client

variable {d : Document} {promote : Bool}

/-! ## Definitions -/

/-- The definitions of a draft are definitions that show all of their parts. -/
theorem isLifted_of_mem_models_drafted {m : Model} (hm : m ∈ (drafted d promote).models) :
    m.IsLifted := by
  rw [models_drafted, List.mem_append, Document.builtComponents, List.map_map] at hm
  rcases hm with hm | hm
  · obtain ⟨n, -, rfl⟩ := List.mem_map.1 hm
    exact (Model.isLifted_definition n.scope n.name n.schema n.origin).1
  · obtain ⟨source, hsource, hm⟩ := List.mem_flatMap.1 hm
    obtain ⟨a, spot, -, hm⟩ := exists_attached_of_mem_sources hsource hm
    exact (Model.isInner_embed spot.scope "" spot.place spot.schema).2 m hm

/-- Final names make no difference to that. -/
theorem isLifted_finishModel {m : Model} (h : m.IsLifted) (target : String → String)
    (name : String) : (finishModel target (withName m name)).IsLifted where
  isDefinition := by
    rw [finishModel, Model.isDefinition_refreshImports, Model.redirect_eq]
    exact h.isDefinition
  isFlat := by
    have hnamed : (withName m name).IsFlat := h.isFlat.congr rfl rfl rfl
    exact (hnamed.redirect target).refreshImports

/-- Every definition of a finished client shows all of its parts, and its imports are in step with
its references. -/
theorem imports_of_mem_models_finished {m : Model}
    (hm : m ∈ (drafted d promote).finished.models) :
    m.IsLifted ∧ m.imports = (Text.sortedNames m.references).filter (· != m.name) := by
  obtain ⟨named, hnamed, rfl⟩ := List.mem_map.1 ((models_finished_perm _).mem_iff.1 hm)
  obtain ⟨n, hn, name, rfl⟩ := exists_withName_of_mem_namedModels hnamed
  have hlifted := isLifted_finishModel (isLifted_of_mem_models_drafted hn)
    (drafted d promote).target name
  have hdefinition := hlifted.isDefinition
  refine ⟨hlifted, ?_⟩
  rw [finishModel, Model.isDefinition_refreshImports] at hdefinition
  rw [finishModel, Model.imports_refreshImports, Model.importsOf, if_pos hdefinition,
    Model.references_refreshImports, Model.name_refreshImports]

/-- The imports of an operation of a finished client are in step with its references. -/
theorem imports_of_mem_operations_finished {c : Client} {s : Service} {op : Operation}
    (hs : s ∈ c.finished.services) (hop : op ∈ s.operations) :
    op.imports = Text.sortedNames (op.models.flatMap Model.references) := by
  obtain ⟨_, _, o, _, hmodels, himports⟩ := exists_of_mem_operations_finished hs hop
  have hreferences : (finishOperation c.target o).models.flatMap Model.references =
      (o.mapModels (Model.redirect c.target)).models.flatMap Model.references := by
    rw [finishOperation, Operation.models_refreshImports, List.flatMap_map]
    exact List.flatMap_congr fun m _ => Model.references_refreshImports m
  rw [himports, hmodels, hreferences]
  rfl

/-- The imports of a service of a finished client are those of its operations. -/
theorem imports_of_mem_services_finished {c : Client} {s : Service} (hs : s ∈ c.finished.services) :
    s.imports = Text.sortedNames (s.operations.flatMap (·.imports)) := by
  obtain ⟨t, _, rfl⟩ := List.mem_map.1 ((services_finished_perm c).mem_iff.1 hs)
  rfl

/-! ## What is imported -/

/-- In the client of a document, the imports of a definition are the names that its type mentions
beside its own, in order. The imports of an operation and of its service are in order as well and
hold every name that the parameters and the result of the operation mention. -/
theorem imports_mentioned {d : Document} {promote : Bool} {c : Client}
    (h : (draft d promote >>= finish) = .ok c) :
    (∀ m ∈ c.models, m.imports.Pairwise (· < ·) ∧ ∀ name, name ∈ m.imports ↔
      name ≠ m.name ∧ Model.IsMentioned (fun target => (m.redirect target).typeTexts) name) ∧
    ∀ s ∈ c.services, s.imports.Pairwise (· < ·) ∧
      ∀ op ∈ s.operations, op.imports.Pairwise (· < ·) ∧ ∀ name useOptions,
        Model.IsMentioned
            (fun target => (op.mapModels (Model.redirect target)).types useOptions) name →
          name ∈ op.imports ∧ name ∈ s.imports := by
  obtain ⟨_, rfl⟩ := draft_bind_finish_eq_ok_iff.1 h
  constructor
  · intro m hm
    obtain ⟨hlifted, himports⟩ := imports_of_mem_models_finished hm
    rw [himports]
    refine ⟨(Text.pairwise_sortedNames _).filter _, fun name => ?_⟩
    rw [Model.isMentioned_typeTexts_iff hlifted.isFlat.showsAll, List.mem_filter,
      Text.mem_sortedNames, bne_iff_ne, and_comm]
  · intro s hs
    rw [imports_of_mem_services_finished hs]
    refine ⟨Text.pairwise_sortedNames _, fun op hop => ?_⟩
    have himports := imports_of_mem_operations_finished hs hop
    refine ⟨himports ▸ Text.pairwise_sortedNames _, fun name useOptions hmentioned => ?_⟩
    obtain ⟨m, hm, hname⟩ := Operation.exists_mem_references_of_isMentioned hmentioned
    have hmem : name ∈ op.imports := by
      rw [himports, Text.mem_sortedNames]
      exact List.mem_flatMap.2 ⟨m, hm, hname⟩
    exact ⟨hmem, Text.mem_sortedNames.2 (List.mem_flatMap.2 ⟨op, hop, hmem⟩)⟩

/-- A pet with its litter and an inline home. -/
def litterSchema : Schema where
  properties :=
    [("litter", { type := some (.single "array"), items := some { ref := some "#/Pet" } }),
      ("home", { properties := [("owner", { ref := some "#/Owner" })] })]

/-- An operation that sends a pet and gets its owner. -/
def adoption : Document.Operation where
  tags := ["pets"]
  requestBody := some (.inline { content :=
    [("application/json", { schema := some { ref := some "#/Pet" } })] })
  responses := [("200", .inline { content :=
    [("application/json", { schema := some { ref := some "#/Owner" } })] })]

/-- A document with the pet, its owner and the operation. -/
def litterDocument : Document where
  openapi := "3.0.0"
  components := some { schemas := [("Pet", litterSchema), ("Owner", {})] }
  paths := [("/pets", { operations := [(.post, adoption)] })]

theorem imports_mentioned_litterDocument :
    ∃ c, (draft litterDocument false >>= finish) = .ok c ∧
      (∃ m ∈ c.models, m.name = "Pet" ∧ m.references = ["Pet", "PetHome"] ∧
        m.imports = ["PetHome"]) ∧
      (∃ s ∈ c.services, s.imports = ["Owner", "Pet"]) ∧
      (∀ m ∈ c.models, m.imports.Pairwise (· < ·) ∧ ∀ name, name ∈ m.imports ↔
        name ≠ m.name ∧ Model.IsMentioned (fun target => (m.redirect target).typeTexts) name) ∧
      ∀ s ∈ c.services, s.imports.Pairwise (· < ·) ∧
        ∀ op ∈ s.operations, op.imports.Pairwise (· < ·) ∧ ∀ name useOptions,
          Model.IsMentioned
              (fun target => (op.mapModels (Model.redirect target)).types useOptions) name →
            name ∈ op.imports ∧ name ∈ s.imports := by
  have hclient : (draft litterDocument false >>= finish) =
      .ok (drafted litterDocument false).finished :=
    draft_bind_finish_eq_ok_iff.2 ⟨by decide, rfl⟩
  let pet := (Model.definition "schemas" "Pet" litterSchema .schema).1
  have hpet : finishModel (drafted litterDocument false).target pet ∈
      (drafted litterDocument false).finished.models :=
    (models_finished_perm _).mem_iff.2 List.mem_cons_self
  obtain ⟨t, hservices, himports⟩ : ∃ t, (drafted litterDocument false).services = [t] ∧
      (finishService (drafted litterDocument false).target t).imports = ["Owner", "Pet"] :=
    ⟨_, rfl, by decide⟩
  have hservice : finishService (drafted litterDocument false).target t ∈
      (drafted litterDocument false).finished.services := by
    rw [(services_finished_perm _).mem_iff, hservices]
    exact List.mem_cons_self
  exact ⟨_, hclient, ⟨_, hpet, rfl, by decide, by decide⟩, ⟨_, hservice, himports⟩,
    imports_mentioned hclient⟩

end Client

end TypedClient
