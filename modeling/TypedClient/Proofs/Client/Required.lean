import TypedClient.Proofs.Client.ModelSet
import TypedClient.Proofs.Client.OwnParts
import TypedClient.Proofs.Model.Required

/-!
# Required properties are kept

Being required is said of the properties of a model. So a name that a component requires gets into
the schema of its definition if the component declares a property of this name: `required_kept`, the
main result. Beside the members of an `allOf` it is the definition of the own properties that names
it. `looseDocument` requires properties that are not declared where they are required.
-/

namespace TypedClient

namespace Client

open Json (Accepts)

/-- The definition of the properties that a component declares beside the members of an `allOf`. -/
def OwnPart (c : Client) (owner target : String) (schema : Json) : Prop :=
  ∃ part ∈ c.models, part.name = target ∧ schema = part.definitionSchema ∧
    ∃ number, part.origin = .inline (Model.memberPlace [owner] .allOf number)

variable {d : Document} {promote : Bool} {target : String → String} {name : String}
  {defined : String → Json → Prop}

theorem isEmpty_eq_false_of_declared {s : Schema} (h : name ∈ s.properties.map (·.1)) :
    s.properties.isEmpty = false := by
  rw [List.isEmpty_eq_false_iff]
  intro hnil
  rw [hnil] at h
  cases h

/-- An interface with the properties of a schema requires those that the schema requires and
declares. -/
theorem requires_of_properties {m : Model} (hkind : m.kind = .interface) {s : Schema}
    {scope : String} {place : List String}
    (hproperties : m.properties =
      s.propertyParts.map fun part => finishModel target (Model.ofPart scope place part))
    (hrequired : name ∈ s.required) (hdeclared : name ∈ s.properties.map (·.1)) :
    m.definitionSchema.Requires defined name := by
  obtain ⟨part, hpart, hname, hpartRequired⟩ :=
    Model.exists_required_part hrequired hdeclared scope place
  have hmem : finishModel target (Model.ofPart scope place part) ∈ m.properties := by
    rw [hproperties]
    exact List.mem_map_of_mem hpart
  rw [← hname, ← name_finishModel target]
  refine Model.requires_of_interface hkind hmem ?_
  rwa [finishModel, Model.isRequired_refreshImports, Model.isRequired_redirect]

/-- The properties of the definition of an object or a composition. -/
theorem properties_finishModel_define (target : String → String) {n : Document.Named}
    (h : n.schema.outline.shape = .object ∨ n.schema.outline.shape ∈ Schema.compositions) :
    (finishModel target n.define.1).properties =
      n.parts.map fun part => finishModel target (Model.ofPart n.scope [n.name] part) := by
  have hlink : (finishModel target n.define.1).link = none := by
    rw [finishModel, Model.link_refreshImports, Model.link_redirect, Document.Named.define,
      Model.link_definition h]
    rfl
  rw [Model.properties_eq_parts hlink, parts_finishModel_define]

theorem kind_finishModel_define (n : Document.Named) :
    (finishModel target n.define.1).kind = Model.kindOf n.schema.outline.shape := by
  rw [finishModel, Model.kind_refreshImports, Model.kind_redirect, Document.Named.define,
    Model.kind_definition]

/-- The definition of the own properties requires what the component requires and declares. -/
theorem requires_ownDefinition {s : Schema} (hrequired : name ∈ s.required)
    (hdeclared : name ∈ s.properties.map (·.1)) (owner final : String) :
    (finishModel target (withName (ownSpot owner s).definition final)).definitionSchema.Requires
      defined name := by
  have hproperties := isEmpty_eq_false_of_declared hdeclared
  have hobject : (ownSpot owner s).schema.outline.shape = .object := by
    have houtline := Model.outline_ownSchema hproperties
    rw [ownSpot, houtline]
  have hkind : (finishModel target (withName (ownSpot owner s).definition final)).kind =
      .interface := by
    rw [finishModel, Model.kind_refreshImports, Model.kind_redirect]
    exact Model.kind_liftedDefinition "schemas"
      (Model.memberPlace [owner] .allOf s.ownNumber) hobject
  have hlink : (finishModel target (withName (ownSpot owner s).definition final)).link = none := by
    rw [finishModel, Model.link_refreshImports, Model.link_redirect]
    have hlifted : (withName (ownSpot owner s).definition final).link = none :=
      Model.link_liftedDefinition _ _ _
    rw [hlifted]
    rfl
  have hparts : (ownSpot owner s).schema.parts = s.propertyParts := by
    rw [Schema.parts, hobject]
    rfl
  have hmodels := map_parts_definition target hobject
  rw [hparts, ← parts_withName _ final, ← parts_finishModel,
    ← Model.properties_eq_parts hlink] at hmodels
  exact requires_of_properties hkind hmodels hrequired hdeclared

/-- The definition of an object requires what the object requires and declares. -/
theorem requires_define_of_object {n : Document.Named} (hshape : n.schema.outline.shape = .object)
    (hrequired : name ∈ n.schema.unwrapped.required)
    (hdeclared : name ∈ n.schema.unwrapped.properties.map (·.1)) :
    (finishModel target n.define.1).definitionSchema.Requires defined name := by
  have hkind : (finishModel target n.define.1).kind = .interface := by
    rw [kind_finishModel_define, hshape]
    rfl
  have hparts : n.parts = n.schema.unwrapped.propertyParts := by
    rw [Document.Named.parts, hshape, Schema.unwrap_one]
    rfl
  have hproperties := properties_finishModel_define target (.inl hshape)
  rw [hparts] at hproperties
  exact requires_of_properties hkind hproperties hrequired hdeclared

/-- The last member of an intersection refers to the own properties, under the name that their key
leads to. -/
theorem exists_member_ownSpot (target : String → String) {n : Document.Named}
    (hscope : n.scope = "schemas") (hshape : n.schema.outline.shape = .allOf)
    (hproperties : n.schema.unwrapped.properties.isEmpty = false) :
    ∃ member ∈ (finishModel target n.define.1).properties, member.kind = .reference ∧
      member.base = target (ownSpot n.name n.schema.unwrapped).key ∧ member.isNullable = false := by
  have hobject := Model.outline_ownSchema hproperties
  have hpart : Model.ofPart n.scope [n.name]
      (.inner (Schema.memberSegment .allOf n.schema.unwrapped.ownNumber) "" false
        n.schema.unwrapped.ownSchema) =
      Model.standIn "schemas" "" (Model.memberPlace [n.name] .allOf n.schema.unwrapped.ownNumber)
        n.schema.unwrapped.ownSchema := by
    rw [Model.ofPart_inner_false, Model.embed_of_object _ _ _ (by rw [hobject]), hscope]
    rfl
  have hmember : finishModel target (Model.ofPart n.scope [n.name]
      (.inner (Schema.memberSegment .allOf n.schema.unwrapped.ownNumber) "" false
        n.schema.unwrapped.ownSchema)) ∈ (finishModel target n.define.1).properties := by
    rw [properties_finishModel_define _ (.inr (by rw [hshape]; decide))]
    exact List.mem_map_of_mem (own_mem_parts hshape hproperties)
  rw [hpart] at hmember
  refine ⟨_, hmember, ?_, ?_, ?_⟩
  · rw [finishModel, Model.kind_refreshImports, Model.kind_redirect]
    rfl
  · rw [finishModel, Model.base_refreshImports, Model.base_redirect]
    rfl
  · rw [finishModel, Model.refreshImports_eq, Model.redirect_eq]
    simp only [Model.standIn, hobject]

/-- The definition of an intersection requires what the component requires and declares, by the
definition of the own properties. -/
theorem requires_define_of_allOf (hnodup : (d.declaredNames promote).Nodup) {n : Document.Named}
    (hn : n ∈ d.named promote) (hscope : n.scope = "schemas")
    (hshape : n.schema.outline.shape = .allOf)
    (hrequired : name ∈ n.schema.unwrapped.required)
    (hdeclared : name ∈ n.schema.unwrapped.properties.map (·.1)) :
    (finishModel (drafted d promote).target n.define.1).definitionSchema.Requires
      ((drafted d promote).finished.OwnPart n.name) name := by
  have hproperties := isEmpty_eq_false_of_declared hdeclared
  have hkind : (finishModel (drafted d promote).target n.define.1).kind = .allOf := by
    rw [kind_finishModel_define, hshape]
    rfl
  obtain ⟨member, hmember, hreference, hbase, hnullable⟩ :=
    exists_member_ownSpot (drafted d promote).target hscope hshape hproperties
  -- The member is redirected to the name that the definition of the own properties gets.
  have hmem := ownDefinition_mem_finished hnodup hn hscope hshape hproperties
  rw [← hbase] at hmem
  have hown : (drafted d promote).finished.OwnPart n.name member.base
      (finishModel (drafted d promote).target (withName
        (ownSpot n.name n.schema.unwrapped).definition member.base)).definitionSchema := by
    refine ⟨_, hmem, ?_, rfl, n.schema.unwrapped.ownNumber, ?_⟩
    · rw [name_finishModel, name_withName]
    · rw [origin_finishModel]
      exact origin_definition _
  exact Model.requires_of_allOf hkind hmember hreference hnullable hown
    (requires_ownDefinition hrequired hdeclared n.name member.base)

/-- What a component requires and declares is required by the schema of its definition, or by that
of the definition of its own properties, which is a member of it. So objects that lack it are
rejected. -/
theorem required_kept {c : Client} (h : (draft d promote >>= finish) = .ok c) {key : String}
    {s : Schema} (hs : (key, s) ∈ d.schemas)
    (hshape : s.outline.shape = .object ∨ s.outline.shape = .allOf) :
    ∃ m ∈ c.models, m.name = Naming.typeName key ∧ m.origin = .schema ∧
      ∀ name ∈ s.unwrapped.required, name ∈ s.unwrapped.properties.map (·.1) →
        m.definitionSchema.Requires (c.OwnPart m.name) name ∧
        ∀ references : String → Json → Prop,
          (∀ part ∈ c.models, ∀ value, references part.name value →
            Accepts references part.definitionSchema value) →
          ∀ members, Accepts references m.definitionSchema (.object members) →
            (members.lookup name).isSome := by
  obtain ⟨hnodup, rfl⟩ := draft_bind_finish_eq_ok_iff.1 h
  let n : Document.Named := ⟨"schemas", Naming.typeName key, s, .schema⟩
  have hn : n ∈ d.named promote := List.mem_append_left _ (List.mem_map.2 ⟨(key, s), hs, rfl⟩)
  have hname : (finishModel (drafted d promote).target n.define.1).name = n.name := by
    rw [name_finishModel]
    exact Model.name_definition _ _ _ _
  have horigin : (finishModel (drafted d promote).target n.define.1).origin = .schema := by
    rw [origin_finishModel]
    exact origin_modelDefinition _ _ _ _
  have hmem := List.mem_of_find?_eq_some (model?_finished_of_named hnodup hn)
  refine ⟨_, hmem, hname, horigin, fun name hrequired hdeclared => ?_⟩
  have hrequires : (finishModel (drafted d promote).target n.define.1).definitionSchema.Requires
      ((drafted d promote).finished.OwnPart n.name) name := by
    rcases hshape with hshape | hshape
    · exact requires_define_of_object hshape hrequired hdeclared
    · exact requires_define_of_allOf hnodup hn rfl hshape hrequired hdeclared
  rw [hname]
  refine ⟨hrequires, fun references hreferences members haccepts => ?_⟩
  refine hrequires.isSome_lookup ?_ haccepts
  rintro _ _ ⟨part, hpart, rfl, rfl, -⟩ value hvalue
  exact hreferences part hpart value hvalue

/-- An employee is a person with a badge. -/
def staffDocument : Document where
  openapi := "3.0.0"
  components := some { schemas :=
    [("Person", { required := ["name"], properties := [("name", {})] }),
      ("Employee",
        { required := ["badge"], properties := [("badge", {})],
          allOf := some [{ ref := some "#/components/schemas/Person" }] })] }

theorem required_kept_staffDocument :
    ∃ c, (draft staffDocument false >>= finish) = .ok c ∧
      ∃ m ∈ c.models, m.name = Naming.typeName "Employee" ∧
        m.definitionSchema.Requires (c.OwnPart m.name) "badge" ∧
        ∀ references : String → Json → Prop,
          (∀ part ∈ c.models, ∀ value, references part.name value →
            Accepts references part.definitionSchema value) →
          ∀ members, Accepts references m.definitionSchema (.object members) →
            (members.lookup "badge").isSome := by
  have hclient : (draft staffDocument false >>= finish) =
      .ok (drafted staffDocument false).finished :=
    draft_bind_finish_eq_ok_iff.2 ⟨by decide, rfl⟩
  obtain ⟨m, hm, hname, -, hkept⟩ :=
    required_kept hclient (List.mem_cons_of_mem _ List.mem_cons_self) (.inr rfl)
  obtain ⟨hrequires, hrejects⟩ := hkept "badge" (by decide) (by decide)
  exact ⟨_, hclient, m, hm, hname, hrequires, hrejects⟩

/-- Three schemas that require a property: one that declares none of this name, an `allOf` beside
which nothing is declared, and a wrapper whose own keywords are passed over. -/
def looseDocument : Document where
  openapi := "3.0.0"
  components := some { schemas :=
    [("Pet", { required := ["id"], properties := [("name", {})] }),
      ("Dog", { required := ["id"], allOf := some [{ type := some (.single "object") }] }),
      ("Maybe",
        { required := ["id"], properties := [("id", {})],
          anyOf := some [{ properties := [("name", {})] }, { type := some (.single "null") }] })] }

/-- No schema of theirs requires the property: each accepts the empty object. -/
theorem not_required_looseDocument :
    ∃ c, (draft looseDocument false >>= finish) = .ok c ∧
      ∀ entry ∈ looseDocument.schemas,
        (entry.2.outline.shape = .object ∨ entry.2.outline.shape = .allOf) ∧
          "id" ∈ entry.2.required ∧
          ∃ m ∈ c.models, m.name = Naming.typeName entry.1 ∧
            (∀ defined, ¬ m.definitionSchema.Requires defined "id") ∧
            Accepts (fun _ _ => False) m.definitionSchema (.object []) := by
  have hnodup : (looseDocument.declaredNames false).Nodup := by decide
  -- Where nothing is referred to, a required property would be missed.
  have hentry : ∀ key s, (key, s) ∈ looseDocument.schemas →
      Accepts (fun _ _ => False) (finishModel (drafted looseDocument false).target
        (Model.definition "schemas" (Naming.typeName key) s .schema).1).definitionSchema
          (.object []) →
      ∃ m ∈ (drafted looseDocument false).finished.models, m.name = Naming.typeName key ∧
        (∀ defined, ¬ m.definitionSchema.Requires defined "id") ∧
        Accepts (fun _ _ => False) m.definitionSchema (.object []) := by
    intro key s hs haccepts
    have hn : (⟨"schemas", Naming.typeName key, s, .schema⟩ : Document.Named) ∈
        looseDocument.named false :=
      List.mem_append_left _ (List.mem_map.2 ⟨(key, s), hs, rfl⟩)
    have hmem := List.mem_of_find?_eq_some (model?_finished_of_named hnodup hn)
    refine ⟨_, hmem, ?_, fun defined hrequires => ?_, haccepts⟩
    · rw [name_finishModel]
      exact Model.name_definition _ _ _ _
    · have hlookup := hrequires.isSome_lookup (fun _ _ _ _ hfalse => hfalse.elim) haccepts
      cases hlookup
  refine ⟨_, draft_bind_finish_eq_ok_iff.2 ⟨hnodup, rfl⟩, ?_⟩
  refine List.forall_mem_cons.2 ⟨?_, List.forall_mem_cons.2 ⟨?_, List.forall_mem_singleton.2 ?_⟩⟩
  · refine ⟨.inl rfl, by decide, hentry _ _ List.mem_cons_self ?_⟩
    change Accepts _ (.object [("type", .string "object"),
      ("properties", .object [("name", .object [])]), ("$id", .string "Pet")]) _
    simp [Json.MeetsAll, Json.meetsProperties_iff, Json.IsOfType]
  · refine ⟨.inr rfl, by decide, hentry _ _ (List.mem_cons_of_mem _ List.mem_cons_self) ?_⟩
    change Accepts _ (.object [("allOf", .array [.object
      [("type", .string "object"), ("additionalProperties", .object [])]]),
      ("$id", .string "Dog")]) _
    simp [Json.MeetsAll, Json.acceptsEach_iff, Json.IsOfType]
  · refine ⟨.inl rfl, by decide, hentry _ _
      (List.mem_cons_of_mem _ (List.mem_cons_of_mem _ List.mem_cons_self)) ?_⟩
    change Accepts _ (.object [("anyOf", .array [.object
      [("type", .string "object"), ("properties", .object [("name", .object [])])],
      .object [("type", .string "null")]]), ("$id", .string "Maybe")]) _
    simp [Json.MeetsAll, Json.acceptsAny_iff, Json.meetsProperties_iff, Json.IsOfType]

end Client

end TypedClient
