import TypedClient.Proofs.Json.Accepts
import TypedClient.Proofs.Model.Populated

/-!
# Required properties of models

The schema of an interface names its required properties, and that of an intersection those of the
definitions that its members refer to: `requires_of_interface`, `requires_of_allOf`. Among the
properties that are built from a schema is a required one for each name that the schema both
requires and declares (`exists_required_part`).
-/

namespace TypedClient.Model

open Json

variable {defined : String → Json → Prop} {m : Model} {name : String}

/-- What the own schema of a model requires, the schema of the definition does. -/
theorem requires_definitionSchema (h : m.ownSchema.Requires defined name) :
    m.definitionSchema.Requires defined name := by
  have hschema : m.jsonSchema.Requires defined name := by
    rw [jsonSchema_eq]
    split
    · exact .besideNull List.mem_cons_self h
    · exact h
  obtain ⟨members, hmembers, -⟩ := m.exists_keys_jsonSchema
  rw [hmembers] at hschema
  rw [definitionSchema, hmembers]
  exact hschema.append _

/-- An interface requires its required properties. -/
theorem requires_of_interface (hkind : m.kind = .interface) {p : Model} (hp : p ∈ m.properties)
    (hrequired : p.isRequired = true) : m.definitionSchema.Requires defined p.name := by
  have hname : p.name ∈ (m.properties.filter (·.isRequired)).map (·.name) :=
    List.mem_map_of_mem (List.mem_filter.2 ⟨hp, hrequired⟩)
  refine requires_definitionSchema (.listed (List.mem_append_left _ ?_) (List.mem_map_of_mem hname))
  rw [typeKeywords, hkind]
  dsimp only
  rw [requiredKeyword_of_mem hp hrequired]
  exact List.mem_append_right _ (List.mem_singleton_self _)

/-- An intersection requires what the definitions require that its members refer to. -/
theorem requires_of_allOf (hkind : m.kind = .allOf) {p : Model} (hp : p ∈ m.properties)
    (hreference : p.kind = .reference) (hnullable : p.isNullable = false) {definition : Json}
    (hdefined : defined p.base definition) (h : definition.Requires defined name) :
    m.definitionSchema.Requires defined name := by
  have hmembers : ("allOf", .array (m.properties.map jsonSchema)) ∈ m.typeKeywords := by
    rw [typeKeywords, hkind]
    exact List.mem_singleton_self _
  have hmember : Json.object (p.typeKeywords ++ p.annotations) ∈ m.properties.map jsonSchema := by
    refine List.mem_map.2 ⟨p, hp, ?_⟩
    rw [jsonSchema_eq, if_neg (by rw [hnullable]; exact Bool.false_ne_true), ownSchema]
  have href : ("$ref", .string p.base) ∈ p.typeKeywords ++ p.annotations := by
    rw [typeKeywords, hreference]
    exact List.mem_append_left _ (List.mem_singleton_self _)
  exact requires_definitionSchema
    (.ofMember (List.mem_append_left _ hmembers) hmember href hdefined h)

/-! ## Properties that are built -/

/-- A model without an element type has no parts but its properties. -/
theorem properties_eq_parts (h : m.link = none) : m.properties = m.parts := by
  rw [parts, h]
  rfl

/-- Objects and compositions have no element type. -/
theorem link_content_eq_none {scope : String} {place : List String} {n : Nat} {shape : Shape}
    {s : Schema} (h : shape = .object ∨ shape ∈ Schema.compositions) :
    (content scope place n shape s).link = none := by
  have hfits : (content scope place n shape s).Fits shape := fits_content n shape s
  unfold Content.Fits at hfits
  cases shape <;> simp_all [Schema.compositions]

theorem link_definition {scope name : String} {s : Schema} {origin : Origin}
    (h : s.outline.shape = .object ∨ s.outline.shape ∈ Schema.compositions) :
    (definition scope name s origin).1.link = none := by
  rw [definition, link_refreshImports]
  exact Option.map_eq_none_iff.2 (link_content_eq_none h)

theorem link_liftedDefinition (scope : String) (place : List String) (s : Schema) :
    (liftedDefinition scope place s).link = none := by
  rw [liftedDefinition, asLifted, link_refreshImports]
  exact Option.map_eq_none_iff.2 (link_content_eq_none (.inl rfl))

theorem kind_definition (scope name : String) (s : Schema) (origin : Origin) :
    (definition scope name s origin).1.kind = kindOf s.outline.shape := by
  rw [definition, kind_refreshImports]
  rfl

theorem kind_liftedDefinition (scope : String) (place : List String) {s : Schema}
    (h : s.outline.shape = .object) : (liftedDefinition scope place s).kind = .interface := by
  have hshape := s.outline_unwrapped.1.trans h
  rw [liftedDefinition, asLifted, kind_refreshImports]
  simp only [assemble, hshape, kindOf]

/-- For every name that a schema requires and declares, a required property is built. -/
theorem exists_required_part {s : Schema} (hrequired : name ∈ s.required)
    (hdeclared : name ∈ s.properties.map (·.1)) (scope : String) (place : List String) :
    ∃ part ∈ s.propertyParts, (ofPart scope place part).name = name ∧
      (ofPart scope place part).isRequired = true := by
  obtain ⟨⟨key, p⟩, hp, rfl⟩ := List.mem_map.1 hdeclared
  refine ⟨_, List.mem_map_of_mem hp, name_embed _ _ _ _, ?_⟩
  exact List.contains_iff_mem.2 hrequired

end TypedClient.Model
