import TypedClient.Proofs.Json.WellFormed
import TypedClient.Proofs.Model.JsonSchema
import TypedClient.Proofs.Model.Orderly

/-!
# Models whose schemas can be compiled

An enumeration needs a value and a composition a member (`HasContent`), and so does every model
whose schema stands inside (`Populated`). This is what well-formed schemas come down to:
`wellFormed_definitionSchema_iff`. Final names are neither here nor there, see
`populated_refreshImports` and `populated_redirect`.
-/

namespace TypedClient.Model

open Json

/-- The kinds of models whose properties are the members of a composition. -/
def compositions : List Kind := [.oneOf, .anyOf, .allOf]

/-- An enumeration has a value and a composition a member. -/
structure HasContent (m : Model) : Prop where
  members : m.kind = .enumeration → m.members ≠ []
  properties : m.kind ∈ compositions → m.properties ≠ []

/-- The parts whose schemas stand in the schema of the model. -/
def schemaParts (m : Model) : List Model :=
  match m.kind with
  | .array | .dictionary => m.link.toList
  | .interface | .oneOf | .anyOf | .allOf => m.properties
  | .reference | .primitive | .enumeration => []

/-- A model has content, and so has everything whose schema stands inside its own. -/
inductive Populated : Model → Prop
  | intro {m : Model} : m.HasContent → (∀ part ∈ m.schemaParts, Populated part) → Populated m

theorem populated_iff {m : Model} :
    m.Populated ↔ m.HasContent ∧ ∀ part ∈ m.schemaParts, part.Populated :=
  ⟨fun ⟨hself, hparts⟩ => ⟨hself, hparts⟩, fun ⟨hself, hparts⟩ => .intro hself hparts⟩

theorem mem_parts_of_mem_schemaParts {m part : Model} (h : part ∈ m.schemaParts) :
    part ∈ m.parts := by
  unfold schemaParts at h
  split at h
  all_goals first
    | exact List.mem_append_left _ h
    | exact List.mem_append_right _ h
    | cases h

/-! ## Changes that keep the type -/

/-- What is said about a model beside its type makes no difference. -/
theorem populated_congr {m n : Model} (hkind : n.kind = m.kind) (hmembers : n.members = m.members)
    (hlink : n.link = m.link) (hproperties : n.properties = m.properties) :
    n.Populated ↔ m.Populated := by
  have hparts : n.schemaParts = m.schemaParts := by
    simp only [schemaParts, hkind, hlink, hproperties]
  have hcontent : n.HasContent ↔ m.HasContent := by
    constructor <;> rintro ⟨h, h'⟩ <;> constructor <;> simp_all
  rw [populated_iff, populated_iff, hparts, hcontent]

/-- A change that is made to a model and to all its parts, and that keeps their kinds, leaves every
part where it stands. -/
theorem schemaParts_change {change : Model → Model} (hkind : ∀ m, (change m).kind = m.kind)
    (hlink : ∀ m, (change m).link = m.link.map change)
    (hproperties : ∀ m, (change m).properties = m.properties.map change) (m : Model) :
    (change m).schemaParts = m.schemaParts.map change := by
  simp only [schemaParts, hkind, hlink, hproperties]
  cases m.kind <;> cases m.link <;> rfl

@[simp]
theorem schemaParts_refreshImports (m : Model) :
    m.refreshImports.schemaParts = m.schemaParts.map refreshImports := by
  apply schemaParts_change <;> intro n <;> rw [refreshImports_eq]

@[simp]
theorem schemaParts_redirect (target : String → String) (m : Model) :
    (m.redirect target).schemaParts = m.schemaParts.map (redirect target) := by
  apply schemaParts_change <;> intro n <;> rw [redirect_eq]

/-- Such a change makes no difference to whether a model is populated, if it keeps the members of
enumerations. -/
theorem populated_change_iff {change : Model → Model} (hkind : ∀ m, (change m).kind = m.kind)
    (hmembers : ∀ m, (change m).members = m.members)
    (hlink : ∀ m, (change m).link = m.link.map change)
    (hproperties : ∀ m, (change m).properties = m.properties.map change) {m : Model} :
    (change m).Populated ↔ m.Populated := by
  induction m using induction with
  | step m ih =>
      have hparts := schemaParts_change hkind hlink hproperties m
      have hcontent : (change m).HasContent ↔ m.HasContent := by
        constructor <;> rintro ⟨h, h'⟩ <;> constructor <;> simp_all
      rw [populated_iff, populated_iff, hparts, hcontent, List.forall_mem_map]
      refine and_congr_right fun _ => forall₂_congr fun part hpart => ?_
      exact ih part (mem_parts_of_mem_schemaParts hpart)

theorem populated_refreshImports {m : Model} : m.refreshImports.Populated ↔ m.Populated := by
  apply populated_change_iff <;> intro n <;> rw [refreshImports_eq]

theorem populated_redirect (target : String → String) {m : Model} :
    (m.redirect target).Populated ↔ m.Populated := by
  apply populated_change_iff <;> intro n <;> rw [redirect_eq]

/-! ## Schemas -/

/-- The schema of a model is no list. -/
theorem jsonSchema_ne_array (m : Model) (items : List Json) : m.jsonSchema ≠ .array items := by
  obtain ⟨members, hmembers, -⟩ := m.exists_keys_jsonSchema
  rw [hmembers]
  exact fun heq => nomatch heq

theorem elementSchema_ne_array (m : Model) (items : List Json) :
    m.elementSchema ≠ .array items := by
  obtain ⟨members, hmembers⟩ := m.exists_elementSchema_eq
  rw [hmembers]
  exact fun heq => nomatch heq

theorem primitiveSchema_ne_array {base : String} :
    ∀ member ∈ primitiveSchema base, ∀ items, member.2 ≠ .array items := by
  intro member hmember items
  rw [eq_of_mem_primitiveSchema hmember]
  exact fun heq => nomatch heq

theorem wellFormed_of_mem_primitiveSchema {base : String} :
    ∀ member ∈ primitiveSchema base, member.2.WellFormed := by
  intro member hmember
  rw [eq_of_mem_primitiveSchema hmember]
  exact IsLiteral.wellFormed trivial

/-- The keywords of an interface. -/
def interfaceKeywords (properties : List Model) : List (String × Json) :=
  [("type", .string "object"),
    ("properties", .object (properties.map fun p => (p.name, p.jsonSchema)))] ++
      requiredKeyword properties

theorem typeKeywords_interface {m : Model} (hkind : m.kind = .interface)
    (hnodup : (m.properties.map (·.name)).Nodup) :
    m.typeKeywords = interfaceKeywords m.properties := by
  unfold typeKeywords
  rw [hkind]
  dsimp only
  rw [uniqueMembers_of_nodup (by rwa [List.map_map]), interfaceKeywords]

/-- The required properties are described beside the keyword that names them. -/
theorem keywordsWellFormed_interface {properties : List Model}
    (hnodup : (properties.map (·.name)).Nodup) :
    KeywordsWellFormed (interfaceKeywords properties) := by
  constructor
  · intro keyword hkeyword hmem
    rcases List.mem_append.1 hmem with hmem | hmem
    · simp at hmem
    · have hno : "required" ∉ alternativeKeywords := by decide
      obtain ⟨rfl, -⟩ := Prod.mk.inj (eq_of_mem_requiredKeyword hmem).2
      exact hno hkeyword
  · intro names hmem
    rcases List.mem_append.1 hmem with hmem | hmem
    · simp at hmem
    · obtain ⟨hne, heq⟩ := eq_of_mem_requiredKeyword hmem
      obtain rfl := Json.array.inj (Prod.mk.inj heq).2
      have hsublist := (List.filter_sublist (p := (·.isRequired)) (l := properties)).map (·.name)
      have hproperties : ("properties", Json.object (properties.map fun p => (p.name,
          p.jsonSchema))) ∈ interfaceKeywords properties :=
        List.mem_append_left _ (List.mem_cons_of_mem _ (List.mem_singleton_self _))
      refine ⟨by simpa using hne, ?_, _, hproperties, ?_⟩
      · exact (hnodup.sublist hsublist).map fun _ _ heq => Json.string.inj heq
      · intro name hname
        obtain ⟨key, hkey, rfl⟩ := List.mem_map.1 hname
        refine ⟨key, ?_, rfl⟩
        rw [List.map_map]
        exact hsublist.subset hkey

/-- The only schemas among the values of the keywords are those of the properties. -/
theorem wellFormed_interfaceKeywords_iff {properties : List Model} :
    (∀ member ∈ interfaceKeywords properties, member.2.WellFormed) ↔
      ∀ part ∈ properties, part.jsonSchema.WellFormed := by
  have htype : (Json.string "object").WellFormed := IsLiteral.wellFormed trivial
  have hrequired : ∀ member ∈ requiredKeyword properties, member.2.WellFormed := by
    intro member hmember
    rw [(eq_of_mem_requiredKeyword hmember).2]
    refine wellFormed_array.2 (List.forall_mem_map.2 fun name _ => ?_)
    exact IsLiteral.wellFormed trivial
  have hkeywords : KeywordsWellFormed (properties.map fun p => (p.name, p.jsonSchema)) := by
    refine keywordsWellFormed_of_no_array (List.forall_mem_map.2 fun p _ items => ?_)
    exact p.jsonSchema_ne_array items
  rw [interfaceKeywords, List.forall_mem_append, and_iff_left hrequired, List.forall_mem_cons,
    List.forall_mem_singleton, and_iff_right htype, wellFormed_object, and_iff_right hkeywords,
    List.forall_mem_map]

/-- What is asked of the keywords of a model is that it has content. -/
theorem keywordsWellFormed_typeKeywords_iff {m : Model} (h : m.IsOrderly) :
    KeywordsWellFormed m.typeKeywords ↔ m.HasContent := by
  have hsimple : m.kind ≠ .enumeration → m.kind ∉ compositions → m.HasContent :=
    fun henumeration hcomposition =>
      ⟨fun hkind => absurd hkind henumeration, fun hkind => absurd hkind hcomposition⟩
  have hcomposed : ∀ keyword ∈ alternativeKeywords, m.kind ≠ .enumeration → m.kind ∈ compositions →
      (KeywordsWellFormed [(keyword, .array (m.properties.map jsonSchema))] ↔ m.HasContent) := by
    intro keyword hkeyword henumeration hcomposition
    rw [← List.nil_append [_], keywordsWellFormed_alternatives_iff hkeyword (by simp)]
    simp only [ne_eq, List.map_eq_nil_iff]
    exact ⟨fun hne => ⟨fun hkind => absurd hkind henumeration, fun _ => hne⟩,
      fun hcontent => hcontent.properties hcomposition⟩
  by_cases hinterface : m.kind = .interface
  · have hnodup := h.nodup hinterface
    rw [typeKeywords_interface hinterface hnodup]
    refine iff_of_true (keywordsWellFormed_interface hnodup) (hsimple ?_ ?_) <;>
      simp [hinterface, compositions]
  unfold typeKeywords
  cases hkind : m.kind with
  | interface => exact absurd hkind hinterface
  | reference =>
      refine iff_of_true (keywordsWellFormed_of_no_array ?_) (hsimple ?_ ?_) <;>
        simp [hkind, compositions]
  | primitive =>
      refine iff_of_true (keywordsWellFormed_of_no_array primitiveSchema_ne_array)
        (hsimple ?_ ?_) <;> simp [hkind, compositions]
  | enumeration =>
      dsimp only
      rw [keywordsWellFormed_alternatives_iff (by decide) primitiveSchema_ne_array]
      simp only [ne_eq, List.map_eq_nil_iff]
      refine ⟨fun hne => ⟨fun _ => hne, fun hcomposition => ?_⟩, ?_⟩
      · simp [hkind, compositions] at hcomposition
      · exact fun hcontent => hcontent.members hkind
  | array | dictionary =>
      refine iff_of_true (keywordsWellFormed_of_no_array ?_) (hsimple ?_ ?_) <;>
        simp [hkind, compositions, m.elementSchema_ne_array]
  | oneOf => exact hcomposed "oneOf" (by decide) (by simp [hkind]) (by simp [hkind, compositions])
  | anyOf => exact hcomposed "anyOf" (by decide) (by simp [hkind]) (by simp [hkind, compositions])
  | allOf => exact hcomposed "allOf" (by decide) (by simp [hkind]) (by simp [hkind, compositions])

/-- The values of the keywords are well formed if the schemas of the parts are. -/
theorem wellFormed_typeKeywords_iff {m : Model} (h : m.IsOrderly) :
    (∀ member ∈ m.typeKeywords, member.2.WellFormed) ↔
      ∀ part ∈ m.schemaParts, part.jsonSchema.WellFormed := by
  have hliteral : ∀ s : String, (Json.string s).WellFormed := fun _ => IsLiteral.wellFormed trivial
  have helement : m.elementSchema.WellFormed ↔
      ∀ part ∈ m.link.toList, part.jsonSchema.WellFormed := by
    unfold elementSchema
    cases m.link with
    | none =>
        refine iff_of_true (wellFormed_object.2 ⟨keywordsWellFormed_of_no_array ?_, ?_⟩) ?_ <;> simp
    | some element => simp
  have hmembers : ∀ keyword : String,
      (∀ member ∈ [(keyword, Json.array (m.properties.map jsonSchema))], member.2.WellFormed) ↔
        ∀ part ∈ m.properties, part.jsonSchema.WellFormed := by
    intro keyword
    rw [List.forall_mem_singleton, wellFormed_array, List.forall_mem_map]
  by_cases hinterface : m.kind = .interface
  · rw [typeKeywords_interface hinterface (h.nodup hinterface), schemaParts, hinterface]
    exact wellFormed_interfaceKeywords_iff
  unfold typeKeywords schemaParts
  cases hkind : m.kind with
  | interface => exact absurd hkind hinterface
  | reference => simp [hliteral]
  | primitive => exact iff_of_true wellFormed_of_mem_primitiveSchema (by simp)
  | enumeration =>
      have hvalues : (Json.array (m.members.map (·.value))).WellFormed :=
        wellFormed_array.2 (List.forall_mem_map.2 fun member hmember =>
          (h.isLiteral hkind member hmember).wellFormed)
      refine iff_of_true (List.forall_mem_append.2 ⟨wellFormed_of_mem_primitiveSchema, ?_⟩) ?_
      · exact List.forall_mem_singleton.2 hvalues
      · simp
  | array | dictionary => simp [hliteral, helement]
  | oneOf => exact hmembers "oneOf"
  | anyOf => exact hmembers "anyOf"
  | allOf => exact hmembers "allOf"

theorem wellFormed_orNull {schema : Json} : (orNull schema).WellFormed ↔ schema.WellFormed := by
  have hnull : (Json.object [("type", .string "null")]).WellFormed := by
    refine wellFormed_object.2 ⟨keywordsWellFormed_of_no_array (by simp), ?_⟩
    exact List.forall_mem_singleton.2 (IsLiteral.wellFormed trivial)
  have hkeywords :
      KeywordsWellFormed [("anyOf", .array [schema, .object [("type", .string "null")]])] := by
    refine (@keywordsWellFormed_alternatives_iff [] _ _ (by decide) ?_).2 (List.cons_ne_nil _ _)
    exact List.forall_mem_nil _
  rw [orNull, wellFormed_object, and_iff_right hkeywords, List.forall_mem_singleton,
    wellFormed_array, List.forall_mem_cons, List.forall_mem_singleton]
  exact and_iff_left hnull

/-- The schema of a model is well formed exactly if the model is populated. -/
theorem wellFormed_jsonSchema_iff {m : Model} (h : m.Orderly) :
    m.jsonSchema.WellFormed ↔ m.Populated := by
  induction m using induction with
  | step m ih =>
      obtain ⟨hself, hparts⟩ := throughout_iff.1 h
      -- The annotations are literals under keywords of which nothing is asked.
      have hchecked : ∀ member ∈ m.annotations, member.1 ∉ checkedKeywords := by
        have hkeywords : ∀ keyword ∈ annotationKeywords, keyword ∉ checkedKeywords := by decide
        exact fun member hmember => hkeywords _ (mem_annotationKeywords hmember)
      have hannotations : ∀ member ∈ m.annotations, member.2.WellFormed :=
        fun member hmember => (isAnnotation_of_mem_annotations hmember).value.wellFormed
      have hown : m.ownSchema.WellFormed ↔ m.Populated := by
        rw [ownSchema, wellFormed_object, keywordsWellFormed_append_iff hchecked,
          List.forall_mem_append, and_iff_left hannotations,
          keywordsWellFormed_typeKeywords_iff hself, wellFormed_typeKeywords_iff hself,
          populated_iff]
        refine and_congr_right fun _ => forall₂_congr fun part hpart => ?_
        have hpart := mem_parts_of_mem_schemaParts hpart
        exact ih part hpart (hparts part hpart)
      rw [jsonSchema_eq]
      split
      · rw [wellFormed_orNull, hown]
      · exact hown

/-- The schema of a definition is well formed exactly if the definition is populated. -/
theorem wellFormed_definitionSchema_iff {m : Model} (h : m.Orderly) :
    m.definitionSchema.WellFormed ↔ m.Populated := by
  have hid : "$id" ∉ checkedKeywords := by decide
  have hname : (Json.string m.name).WellFormed := IsLiteral.wellFormed trivial
  rw [← wellFormed_jsonSchema_iff h]
  obtain ⟨members, hmembers, -⟩ := m.exists_keys_jsonSchema
  rw [definitionSchema, hmembers]
  rw [wellFormed_object, wellFormed_object, List.forall_mem_append, List.forall_mem_singleton,
    and_iff_left hname, keywordsWellFormed_append_iff (List.forall_mem_singleton.2 hid)]

end TypedClient.Model
