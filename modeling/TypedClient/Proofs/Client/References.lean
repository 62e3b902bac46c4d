import TypedClient.Proofs.Client.Drafted
import TypedClient.Proofs.Client.Services
import TypedClient.Proofs.Schema.References

/-!
# No reference is left hanging

Every model of a finished client, in its definitions or in a list of an operation, comes
from a model of the draft by redirecting (`exists_of_mem_allModels_finished`), and the draft
mentions only known names and its own definitions (`coveredBy_of_mem_allModels_drafted`).
`references_resolve` draws the conclusion for documents: where every `$ref` names a
component, every reference names a definition, and in no case is a provisional name left.
-/

namespace TypedClient

namespace Model

/-- The imports of a refreshed model, at any depth, are names that it mentions. -/
theorem mem_references_of_mem_imports {m n : Model} (h : m.refreshImports.Within n) {name : String}
    (hname : name ∈ n.imports) : name ∈ m.references := by
  induction m using induction with
  | step m ih =>
      cases h with
      | self =>
          rw [imports_refreshImports, importsOf] at hname
          split at hname
          · exact Text.mem_sortedNames.1 (List.mem_of_mem_filter hname)
          · exact Text.mem_sortedNames.1 hname
      | part _ part _ hpart hwithin =>
          rw [parts_refreshImports] at hpart
          obtain ⟨inner, hinner, rfl⟩ := List.mem_map.1 hpart
          exact mem_references_of_mem_parts hinner (ih inner hinner hwithin)

end Model

namespace Client

open Model (IsProvisionalName)

/-- The definitions of a client and the models in all lists of its operations. -/
def allModels (c : Client) : List Model :=
  c.models ++ c.services.flatMap fun s => s.operations.flatMap (·.models)

/-- Every reference, at any depth of any model, names a definition. -/
def NoDanglingReference (c : Client) : Prop :=
  ∀ m ∈ c.allModels, ∀ n, m.Within n → n.kind = .reference → n.base ∈ c.models.map (·.name)

/-- No name that is left is provisional. -/
structure Settled (c : Client) : Prop where
  names : ∀ m ∈ c.models, ¬ IsProvisionalName m.name
  bases : ∀ m ∈ c.allModels, ∀ n, m.Within n → n.kind = .reference → ¬ IsProvisionalName n.base
  imports : ∀ m ∈ c.allModels, ∀ n, m.Within n → ∀ name ∈ n.imports, ¬ IsProvisionalName name
  operationImports : ∀ s ∈ c.services, ∀ op ∈ s.operations, ∀ name ∈ op.imports,
    ¬ IsProvisionalName name
  serviceImports : ∀ s ∈ c.services, ∀ name ∈ s.imports, ¬ IsProvisionalName name

/-! ## The models of a finished client -/

variable {c : Client}

/-- A named definition mentions what a definition of the draft mentions. -/
theorem exists_of_mem_namedModels {models : List Model} {m : Model} (h : m ∈ namedModels models) :
    ∃ n ∈ models, m.references = n.references := by
  obtain ⟨n, hn, name, rfl⟩ := exists_withName_of_mem_namedModels h
  have halike : Model.Alike (withName n name) n := ⟨rfl, rfl, rfl⟩
  exact ⟨n, hn, halike.references_eq⟩

/-- An operation of a finished service is one of the draft's, but for its name and hook. -/
theorem exists_of_mem_operations_finished {s : Service} {op : Operation}
    (hs : s ∈ c.finished.services) (hop : op ∈ s.operations) :
    ∃ t ∈ c.services, ∃ o ∈ t.operations, op.models = (finishOperation c.target o).models ∧
      op.imports = (finishOperation c.target o).imports := by
  obtain ⟨t, ht, rfl⟩ := List.mem_map.1 ((services_finished_perm c).mem_iff.1 hs)
  rw [operations_finishService] at hop
  obtain ⟨finished, hfinished, hname⟩ := exists_of_mem_distinguish hop
  obtain ⟨o, ho, rfl⟩ := List.mem_map.1 hfinished
  refine ⟨t, ht, o, ho, ?_⟩
  rcases hname with rfl | ⟨number, _, rfl⟩
  · exact ⟨rfl, rfl⟩
  · exact ⟨rfl, rfl⟩

/-- Every model of a finished client is refreshed and mentions, redirected, what a model of the
draft mentions. -/
theorem exists_of_mem_allModels_finished {m : Model} (h : m ∈ c.finished.allModels) :
    ∃ n ∈ c.allModels, ∃ before : Model, m = before.refreshImports ∧
      before.references = n.references.map c.target := by
  rcases List.mem_append.1 h with h | h
  · obtain ⟨named, hnamed, rfl⟩ := List.mem_map.1 ((models_finished_perm c).mem_iff.1 h)
    obtain ⟨n, hn, heq⟩ := exists_of_mem_namedModels hnamed
    exact ⟨n, List.mem_append_left _ hn, named.redirect c.target, rfl, by simp [heq]⟩
  · obtain ⟨s, hs, h⟩ := List.mem_flatMap.1 h
    obtain ⟨op, hop, h⟩ := List.mem_flatMap.1 h
    obtain ⟨t, ht, o, ho, hmodels, _⟩ := exists_of_mem_operations_finished hs hop
    rw [hmodels, models_finishOperation] at h
    obtain ⟨n, hn, rfl⟩ := List.mem_map.1 h
    refine ⟨n, List.mem_append_right _ ?_, n.redirect c.target, rfl, by simp⟩
    exact List.mem_flatMap.2 ⟨t, ht, List.mem_flatMap.2 ⟨o, ho, hn⟩⟩

/-! ## The models of a draft -/

variable {d : Document} {promote : Bool} {known : String → Prop}

/-- Every model of a draft mentions known names and definitions of the draft only. -/
theorem coveredBy_of_mem_allModels_drafted
    (hpromoted : ∀ p ∈ d.promoted promote, known p.name)
    (href : ∀ s, d.Declares s → ∀ ref, s.Mentions ref → known (Pointer.typeName ref))
    {m : Model} (h : m ∈ (drafted d promote).allModels) :
    Model.CoveredBy known (liftedModels (drafted d promote).models) m := by
  have hclosed : ∀ source ∈ sources d promote, Model.Closed known source :=
    fun source hsource => closed_of_mem_sources hsource hpromoted href
  have hsub : ∀ source ∈ sources d promote,
      source.2 ⊆ liftedModels (drafted d promote).models := by
    intro source hsource n hn
    rw [liftedModels_drafted]
    exact List.mem_flatMap.2 ⟨source, hsource, hn⟩
  have hsource : ∃ source ∈ sources d promote,
      m.references = source.1.references ∨ m ∈ source.2 := by
    rcases List.mem_append.1 h with h | h
    · rw [models_drafted] at h
      rcases List.mem_append.1 h with h | h
      · obtain ⟨built, hbuilt, rfl⟩ := List.mem_map.1 h
        exact ⟨built, List.mem_append_left _ hbuilt, .inl rfl⟩
      · obtain ⟨source, hsource, hm⟩ := List.mem_flatMap.1 h
        exact ⟨source, hsource, .inr hm⟩
    · obtain ⟨s, hs, h⟩ := List.mem_flatMap.1 h
      obtain ⟨op, hop, hm⟩ := List.mem_flatMap.1 h
      have hgrouped := mem_of_mem_group hs hop
      rw [Operation.operations_eq, List.map_map] at hgrouped
      obtain ⟨x, hx, rfl⟩ := List.mem_map.1 hgrouped
      obtain ⟨source, hsource, rfl⟩ := x.exists_source_of_mem_models d _ hm
      exact ⟨source, List.mem_append_right _ (List.mem_flatMap.2 ⟨x, hx, hsource⟩),
        .inl (Model.references_refreshImports _)⟩
  obtain ⟨source, hsource, heq | hmem⟩ := hsource
  · exact ((hclosed source hsource).model.congr heq).mono (hsub source hsource)
  · exact ((hclosed source hsource).lifted m hmem).mono (hsub source hsource)

/-! ## No reference is left hanging -/

/-- A name that a finished client mentions is known or was given out. -/
theorem known_or_mem_liftedNames (hknown : ∀ name, known name → ¬ IsProvisionalName name)
    (hpromoted : ∀ p ∈ d.promoted promote, known p.name)
    (href : ∀ s, d.Declares s → ∀ ref, s.Mentions ref → known (Pointer.typeName ref))
    {m : Model} (h : m ∈ (drafted d promote).finished.allModels) {name : String}
    (hname : name ∈ m.references) :
    known name ∨ name ∈ liftedNames (drafted d promote).models := by
  obtain ⟨n, hn, before, rfl, hbefore⟩ := exists_of_mem_allModels_finished h
  rw [Model.references_refreshImports, hbefore] at hname
  obtain ⟨other, hother, rfl⟩ := List.mem_map.1 hname
  rcases coveredBy_of_mem_allModels_drafted hpromoted href hn other hother with hother | hother
  · rw [target, finalName_renames_of_not_isProvisionalName (hknown other hother)]
    exact .inl hother
  · exact .inr (finalName_renames_mem hother)

/-- A final name is not provisional. -/
theorem not_isProvisionalName_of_mem_liftedNames {models : List Model} {name : String}
    (h : name ∈ liftedNames models) : ¬ IsProvisionalName name :=
  Model.not_isProvisionalName_of_isTypeName (isTypeName_of_mem_liftedNames h)

/-- Every name that a finished client mentions is a type name. -/
theorem isTypeName_of_mem_references {m : Model}
    (h : m ∈ (drafted d promote).finished.allModels) {name : String}
    (hname : name ∈ m.references) : Naming.IsTypeName name := by
  have htype : ∀ text, Naming.IsTypeName (Naming.typeName text) := Naming.isTypeName_typeName
  rcases known_or_mem_liftedNames (fun _ => Model.not_isProvisionalName_of_isTypeName)
    (fun p _ => htype _) (fun _ _ _ _ => htype _) h hname with hname | hname
  · exact hname
  · exact isTypeName_of_mem_liftedNames hname

/-- No name that a finished client mentions is provisional. -/
theorem not_isProvisionalName_of_mem_references {m : Model}
    (h : m ∈ (drafted d promote).finished.allModels) {name : String}
    (hname : name ∈ m.references) : ¬ IsProvisionalName name :=
  Model.not_isProvisionalName_of_isTypeName (isTypeName_of_mem_references h hname)

/-- What an operation of a finished client imports, one of its models mentions. -/
theorem exists_mem_references_of_mem_imports {s : Service} {op : Operation} {name : String}
    (hs : s ∈ c.finished.services) (hop : op ∈ s.operations) (hname : name ∈ op.imports) :
    ∃ m ∈ op.models, name ∈ m.references := by
  obtain ⟨_, _, o, _, hmodels, himports⟩ := exists_of_mem_operations_finished hs hop
  rw [himports, finishOperation, Operation.mem_imports_refreshImports] at hname
  obtain ⟨m, hm, hname⟩ := hname
  refine ⟨m.refreshImports, ?_, by simpa using hname⟩
  rw [hmodels, finishOperation, Operation.models_refreshImports]
  exact List.mem_map_of_mem hm

/-- No provisional name is left in a finished client. -/
theorem settled_finished (d : Document) (promote : Bool) :
    (drafted d promote).finished.Settled := by
  have hmodel : ∀ s ∈ (drafted d promote).finished.services, ∀ op ∈ s.operations,
      ∀ m ∈ op.models, m ∈ (drafted d promote).finished.allModels := by
    intro s hs op hop m hm
    exact List.mem_append_right _ (List.mem_flatMap.2 ⟨s, hs, List.mem_flatMap.2 ⟨op, hop, hm⟩⟩)
  have hoperation : ∀ s ∈ (drafted d promote).finished.services, ∀ op ∈ s.operations,
      ∀ name ∈ op.imports, ¬ IsProvisionalName name := by
    intro s hs op hop name hname
    obtain ⟨m, hm, hname⟩ := exists_mem_references_of_mem_imports hs hop hname
    exact not_isProvisionalName_of_mem_references (hmodel s hs op hop m hm) hname
  constructor
  case names =>
    intro m hm
    have hname := (names_finished_perm _).mem_iff.1 (List.mem_map_of_mem hm)
    rcases List.mem_append.1 hname with hname | hname
    · exact not_isProvisionalName_of_mem_fixedNames hname
    · exact not_isProvisionalName_of_mem_liftedNames hname
  case bases =>
    intro m hm n hwithin hkind
    exact not_isProvisionalName_of_mem_references hm
      (Model.mem_references_iff.2 ⟨n, hwithin, hkind, rfl⟩)
  case imports =>
    intro m hm n hwithin name hname
    obtain ⟨_, _, before, rfl, _⟩ := exists_of_mem_allModels_finished hm
    have hmentions := Model.mem_references_of_mem_imports hwithin hname
    exact not_isProvisionalName_of_mem_references hm (by simpa using hmentions)
  case operationImports => exact hoperation
  case serviceImports =>
    intro s hs name hname
    obtain ⟨t, ht, rfl⟩ := List.mem_map.1 ((services_finished_perm _).mem_iff.1 hs)
    rw [finishService, Text.mem_sortedNames] at hname
    obtain ⟨op, hop, hname⟩ := List.mem_flatMap.1 hname
    exact hoperation _ hs op hop name hname

/-- Where every `$ref` names a component, every reference names a definition. -/
theorem noDanglingReference_finished (href : d.ReferencesResolve) :
    (drafted d promote).finished.NoDanglingReference := by
  intro m hm n hwithin hkind
  have hbase : n.base ∈ m.references := Model.mem_references_iff.2 ⟨n, hwithin, hkind, rfl⟩
  have hpromoted : ∀ p ∈ d.promoted promote, p.name ∈ d.declaredNames promote :=
    fun p hp => List.mem_append_right _ (List.mem_map_of_mem hp)
  have hmentioned : ∀ s, d.Declares s → ∀ ref, s.Mentions ref →
      Pointer.typeName ref ∈ d.declaredNames promote := by
    intro s hs ref hmentions
    obtain ⟨key, hkey, hsegment⟩ := href s hs ref hmentions
    obtain ⟨entry, hentry, rfl⟩ := List.mem_map.1 hkey
    rw [Pointer.typeName, Pointer.key_eq_of_lastSegment hsegment]
    exact List.mem_append_left _ (List.mem_map.2 ⟨entry, hentry, rfl⟩)
  -- What is known are the declared names, and these stay as they are.
  have hknown : ∀ name, name ∈ d.declaredNames promote → ¬ IsProvisionalName name :=
    fun name hname =>
      Model.not_isProvisionalName_of_isTypeName (isTypeName_of_mem_declaredNames hname)
  rw [(names_finished_perm _).mem_iff, fixedNames_drafted]
  exact List.mem_append.2 (known_or_mem_liftedNames hknown hpromoted hmentioned hm hbase)

/-- In the client of a document no provisional name is left. If every `$ref` of the document names
a component, then every reference of the client names one of its definitions. -/
theorem references_resolve {d : Document} {promote : Bool} {c : Client}
    (h : (draft d promote >>= finish) = .ok c) :
    (d.ReferencesResolve → c.NoDanglingReference) ∧ c.Settled := by
  obtain ⟨_, rfl⟩ := draft_bind_finish_eq_ok_iff.1 h
  exact ⟨noDanglingReference_finished, settled_finished d promote⟩

/-- A recursive schema. -/
def nodeSchema : Schema where
  properties :=
    [("next", { ref := some "#/components/schemas/tree~1Node" }),
      ("value", { properties := [("text", { type := some (.single "string") })] })]

/-- A document with the recursive schema, whose key holds a slash. -/
def treeDocument : Document where
  openapi := "3.0.0"
  components := some { schemas := [("tree/Node", nodeSchema)] }

/-- A schema that holds no other schema mentions its own reference only. -/
theorem ref_eq_of_mentions {s : Schema} {ref : String} (h : s.Mentions ref)
    (hleaf : s.properties = [] ∧ s.items = none ∧ s.anyOf = none ∧ s.oneOf = none ∧
      s.allOf = none ∧ s.additional = none) : s.ref = some ref := by
  cases h with
  | ref _ _ href => exact href
  | child _ t _ hchild _ => cases hchild <;> simp_all

/-- The only reference of the recursive schema is the one to itself. -/
theorem eq_of_mentions_nodeSchema {ref : String} (h : nodeSchema.Mentions ref) :
    ref = "#/components/schemas/tree~1Node" := by
  have hnode : nodeSchema.ownSchema.Mentions ref := h
  obtain ⟨name, p, hmem, hp⟩ := Schema.exists_property_of_ownSchema hnode
  simp only [nodeSchema, List.mem_cons, Prod.mk.injEq, List.not_mem_nil, or_false] at hmem
  rcases hmem with ⟨_, rfl⟩ | ⟨_, rfl⟩
  · exact (Option.some.inj (ref_eq_of_mentions hp (by simp))).symm
  · have hvalue : Schema.Mentions (Schema.ownSchema
        { properties := [("text", { type := some (.single "string") })] }) ref := hp
    obtain ⟨_, text, hmem, htext⟩ := Schema.exists_property_of_ownSchema hvalue
    obtain ⟨_, rfl⟩ := Prod.mk.inj (List.mem_singleton.1 hmem)
    cases ref_eq_of_mentions htext (by simp)

theorem referencesResolve_treeDocument : treeDocument.ReferencesResolve := by
  intro s hs ref hmentions
  have hschema : s = nodeSchema := by
    cases hs with
    | component key _ hmem =>
        have hpair : (key, s) = ("tree/Node", nodeSchema) := List.mem_singleton.1 hmem
        exact congrArg Prod.snd hpair
    | parameter _ _ hitem => cases hitem
    | parameterContent _ _ _ hitem => cases hitem
    | requestBody _ _ hitem => cases hitem
    | response _ _ hitem => cases hitem
  subst hschema
  rw [eq_of_mentions_nodeSchema hmentions]
  exact ⟨"tree/Node", by decide, by decide⟩

theorem references_resolve_treeDocument :
    (drafted treeDocument true).finished.NoDanglingReference ∧
      (drafted treeDocument true).finished.Settled := by
  have hclient : (draft treeDocument true >>= finish) =
      .ok (drafted treeDocument true).finished :=
    draft_bind_finish_eq_ok_iff.2 ⟨by decide, rfl⟩
  obtain ⟨hresolved, hsettled⟩ := references_resolve hclient
  exact ⟨hresolved referencesResolve_treeDocument, hsettled⟩

end Client

end TypedClient
