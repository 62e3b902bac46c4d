import TypedClient.Model.JsonSchema
import TypedClient.Proofs.Json.References
import TypedClient.Proofs.Json.Value
import TypedClient.Proofs.Model.Parts

/-!
# JSON Schemas in terms of the parts

The schema of a model is given by the keywords of its type and by others that say nothing about it
(`jsonSchema_eq`). The schema of a definition has its name as identifier and refers to the names
that the definition mentions only (`member?_id_definitionSchema`, `refersOnlyTo_definitionSchema`).
-/

namespace TypedClient

namespace Model

open Json

/-- The schema of the elements of an array or a dictionary. -/
def elementSchema (m : Model) : Json := (m.link.map jsonSchema).getD (.object [])

/-- The keywords that give the type. -/
def typeKeywords (m : Model) : List (String × Json) :=
  match m.kind with
  | .reference => [("$ref", .string m.base)]
  | .primitive => primitiveSchema m.base
  | .enumeration => primitiveSchema m.base ++ [("enum", .array (m.members.map (·.value)))]
  | .array => [("type", .string "array"), ("items", m.elementSchema)]
  | .dictionary => [("type", .string "object"), ("additionalProperties", m.elementSchema)]
  | .interface =>
    [("type", .string "object"),
      ("properties",
        .object (uniqueMembers (m.properties.map fun p => (p.name, p.jsonSchema))))] ++
      requiredKeyword m.properties
  | .oneOf => [("oneOf", .array (m.properties.map jsonSchema))]
  | .anyOf => [("anyOf", .array (m.properties.map jsonSchema))]
  | .allOf => [("allOf", .array (m.properties.map jsonSchema))]

theorem linkSchema_eq (link : Option Model) :
    linkSchema link = (link.map jsonSchema).getD (.object []) := by
  cases link <;> simp [linkSchema]

theorem jsonSchemas_eq (ms : List Model) : jsonSchemas ms = ms.map jsonSchema := by
  induction ms with
  | nil => simp [jsonSchemas]
  | cons m ms ih => simp [jsonSchemas, ih]

theorem propertySchemas_eq (ms : List Model) :
    propertySchemas ms = ms.map fun p => (p.name, p.jsonSchema) := by
  induction ms with
  | nil => simp [propertySchemas]
  | cons m ms ih => simp [propertySchemas, ih]

/-- The schema of a model that does not accept `null` beside its own values. -/
def ownSchema (m : Model) : Json := .object (m.typeKeywords ++ m.annotations)

theorem jsonSchema_eq (m : Model) :
    m.jsonSchema = if m.isNullable then orNull m.ownSchema else m.ownSchema := by
  obtain ⟨_, kind, _, _, _, _, _, _, _, _, _, _, _, _, _, _, _⟩ := m
  cases kind <;>
    simp only [jsonSchema, ownSchema, typeKeywords, elementSchema, linkSchema_eq, jsonSchemas_eq,
      propertySchemas_eq]

theorem eq_of_mem_primitiveSchema {base : String} {member : String × Json}
    (h : member ∈ primitiveSchema base) : member = ("type", .string base) := by
  unfold primitiveSchema at h
  split at h
  · exact List.mem_singleton.1 h
  · cases h

/-- The keyword is left out where no property is required. -/
theorem eq_of_mem_requiredKeyword {properties : List Model} {member : String × Json}
    (h : member ∈ requiredKeyword properties) :
    (properties.filter (·.isRequired)).map (·.name) ≠ [] ∧
      member = ("required", Json.strings ((properties.filter (·.isRequired)).map (·.name))) := by
  unfold requiredKeyword at h
  split at h
  · cases h
  · rename_i hne
    exact ⟨hne, List.mem_singleton.1 h⟩

theorem requiredKeyword_of_mem {properties : List Model} {p : Model} (hp : p ∈ properties)
    (hrequired : p.isRequired = true) : requiredKeyword properties =
      [("required", Json.strings ((properties.filter (·.isRequired)).map (·.name)))] := by
  have hname : p.name ∈ (properties.filter (·.isRequired)).map (·.name) :=
    List.mem_map_of_mem (List.mem_filter.2 ⟨hp, hrequired⟩)
  unfold requiredKeyword
  split
  · rename_i hnil
    rw [hnil] at hname
    cases hname
  · rfl

/-! ## Keys -/

/-- The keywords that the schema of a model can hold. -/
def ownKeywords : List String :=
  ["$ref", "type", "enum", "items", "additionalProperties", "properties", "required", "oneOf",
    "anyOf", "allOf", "pattern", "minimum", "maximum", "exclusiveMinimum", "exclusiveMaximum",
    "multipleOf", "minLength", "maxLength", "minItems", "maxItems", "uniqueItems",
    "minProperties", "maxProperties", "description", "readOnly"]

/-- The keywords that say nothing about the type. -/
def annotationKeywords : List String := ownKeywords.drop 10

/-- A member that says nothing about the type: a literal under its own keyword. -/
structure IsAnnotation (entry : String × Json) : Prop where
  key : entry.1 ∈ annotationKeywords
  value : entry.2.IsLiteral

theorem isAnnotation_of_mem_keywords {c : Constraints} {entry : String × Json}
    (h : entry ∈ c.keywords) : IsAnnotation entry := by
  obtain ⟨keyword, hkeyword, hentry⟩ := List.mem_filterMap.1 h
  obtain rfl : keyword = some entry := hentry
  simp only [List.mem_cons, List.not_mem_nil, or_false, eq_comm (a := some entry),
    Option.map_eq_some_iff] at hkeyword
  rcases hkeyword with ⟨_, _, rfl⟩ | ⟨_, _, rfl⟩ | ⟨_, _, rfl⟩ | ⟨_, _, rfl⟩ | ⟨_, _, rfl⟩ |
    ⟨_, _, rfl⟩ | ⟨_, _, rfl⟩ | ⟨_, _, rfl⟩ | ⟨_, _, rfl⟩ | ⟨_, _, rfl⟩ | ⟨_, _, rfl⟩ |
    ⟨_, _, rfl⟩ | ⟨_, _, rfl⟩ <;>
    exact ⟨by simp [annotationKeywords, ownKeywords],
      by first | exact isLiteral_ofDouble _ | trivial⟩

theorem isAnnotation_of_mem_annotations {m : Model} {entry : String × Json}
    (h : entry ∈ m.annotations) : IsAnnotation entry := by
  simp only [annotations, List.mem_append] at h
  rcases h with (h | h) | h
  · exact isAnnotation_of_mem_keywords h
  · obtain ⟨_, _, rfl⟩ := Option.map_eq_some_iff.1 (Option.mem_toList.1 h)
    exact ⟨by simp [annotationKeywords, ownKeywords], trivial⟩
  · split at h
    · obtain rfl := List.mem_singleton.1 h
      exact ⟨by simp [annotationKeywords, ownKeywords], trivial⟩
    · cases h

theorem mem_annotationKeywords {m : Model} {entry : String × Json} (h : entry ∈ m.annotations) :
    entry.1 ∈ annotationKeywords := (isAnnotation_of_mem_annotations h).key

theorem mem_ownKeywords_of_mem_primitiveSchema {base : String} :
    ∀ member ∈ primitiveSchema base, member.1 ∈ ownKeywords := by
  intro member hmember
  rw [eq_of_mem_primitiveSchema hmember]
  simp [ownKeywords]

theorem mem_ownKeywords_of_mem_typeKeywords {m : Model} :
    ∀ member ∈ m.typeKeywords, member.1 ∈ ownKeywords := by
  unfold typeKeywords
  cases m.kind with
  | primitive => exact mem_ownKeywords_of_mem_primitiveSchema
  | enumeration =>
      refine List.forall_mem_append.2 ⟨mem_ownKeywords_of_mem_primitiveSchema, ?_⟩
      simp [ownKeywords]
  | interface =>
      refine List.forall_mem_append.2 ⟨by simp [ownKeywords], fun member hmember => ?_⟩
      rw [(eq_of_mem_requiredKeyword hmember).2]
      simp [ownKeywords]
  | _ => simp [ownKeywords]

/-- The schema of a model is an object with keywords of its own only. -/
theorem exists_keys_jsonSchema (m : Model) :
    ∃ members, m.jsonSchema = .object members ∧ ∀ member ∈ members, member.1 ∈ ownKeywords := by
  rw [jsonSchema_eq]
  split
  · exact ⟨_, rfl, by simp [ownKeywords]⟩
  · refine ⟨_, rfl, List.forall_mem_append.2 ⟨mem_ownKeywords_of_mem_typeKeywords, ?_⟩⟩
    exact fun member hmember => List.mem_of_mem_drop (mem_annotationKeywords hmember)

/-! ## References -/

variable {P : Json → Prop}

theorem memberRefersOnlyTo_annotations {m : Model} :
    ∀ member ∈ m.annotations, MemberRefersOnlyTo P member := by
  have hkeywords : ∀ keyword ∈ annotationKeywords, keyword ∉ referringKeywords := by decide
  exact fun member hmember =>
    memberRefersOnlyTo_of_not_mem (hkeywords _ (mem_annotationKeywords hmember))

theorem mem_setMember {key : String} {value : Json} {members : List (String × Json)}
    {member : String × Json} (h : member ∈ setMember key value members) :
    member = (key, value) ∨ member ∈ members := by
  induction members with
  | nil => exact .inl (List.mem_singleton.1 h)
  | cons first rest ih =>
      obtain ⟨k, v⟩ := first
      rw [setMember] at h
      split at h
      · rename_i hkey
        rcases List.mem_cons.1 h with rfl | h
        · exact .inl (by rw [hkey])
        · exact .inr (List.mem_cons_of_mem _ h)
      · rcases List.mem_cons.1 h with rfl | h
        · exact .inr List.mem_cons_self
        · exact (ih h).imp_right (List.mem_cons_of_mem _)

theorem mem_of_mem_uniqueMembers {members : List (String × Json)} {member : String × Json}
    (h : member ∈ uniqueMembers members) : member ∈ members := by
  have hfold : ∀ (rest done : List (String × Json)),
      member ∈ rest.foldl (fun ms entry => setMember entry.1 entry.2 ms) done →
        member ∈ done ∨ member ∈ rest := by
    intro rest
    induction rest with
    | nil => exact fun done hmem => .inl hmem
    | cons entry rest ih =>
        intro done hmem
        rcases ih _ hmem with hdone | hrest
        · rcases mem_setMember hdone with rfl | hdone
          · exact .inr List.mem_cons_self
          · exact .inl hdone
        · exact .inr (List.mem_cons_of_mem _ hrest)
  exact (hfold members [] h).resolve_left List.not_mem_nil

theorem setMember_of_not_mem {α : Type} {key : String} {value : α} {members : List (String × α)}
    (h : key ∉ members.map (·.1)) : setMember key value members = members ++ [(key, value)] := by
  induction members with
  | nil => rfl
  | cons member rest ih =>
      obtain ⟨k, v⟩ := member
      simp only [List.map_cons, List.mem_cons, not_or] at h
      rw [setMember, if_neg (Ne.symm h.1), ih h.2, List.cons_append]

/-- Members under distinct keys are kept as they are. -/
theorem uniqueMembers_of_nodup {members : List (String × Json)}
    (h : (members.map (·.1)).Nodup) : uniqueMembers members = members := by
  have hfold : ∀ (rest done : List (String × Json)), ((done ++ rest).map (·.1)).Nodup →
      rest.foldl (fun ms member => setMember member.1 member.2 ms) done = done ++ rest := by
    intro rest
    induction rest with
    | nil => simp
    | cons member rest ih =>
        intro done hnodup
        obtain ⟨key, value⟩ := member
        have hnew : key ∉ done.map (·.1) := by
          rw [List.map_append, List.nodup_append] at hnodup
          exact fun hmem => hnodup.2.2 _ hmem key (by simp) rfl
        rw [List.foldl_cons, setMember_of_not_mem hnew, ih _ (by simpa using hnodup)]
        simp
  exact hfold members [] (by simpa using h)

theorem memberRefersOnlyTo_type (value : Json) : MemberRefersOnlyTo P ("type", value) := by
  have htype : "type" ∉ referringKeywords := by decide
  exact memberRefersOnlyTo_of_not_mem htype

theorem memberRefersOnlyTo_primitiveSchema {base : String} :
    ∀ member ∈ primitiveSchema base, MemberRefersOnlyTo P member := by
  intro member hmember
  rw [eq_of_mem_primitiveSchema hmember]
  exact memberRefersOnlyTo_type _

theorem memberRefersOnlyTo_requiredKeyword {properties : List Model} :
    ∀ member ∈ requiredKeyword properties, MemberRefersOnlyTo P member := by
  have hrequired : "required" ∉ referringKeywords := by decide
  intro member hmember
  rw [(eq_of_mem_requiredKeyword hmember).2]
  exact memberRefersOnlyTo_of_not_mem hrequired

theorem exists_elementSchema_eq (m : Model) : ∃ members, m.elementSchema = .object members := by
  unfold elementSchema
  cases m.link with
  | none => exact ⟨[], rfl⟩
  | some element =>
      obtain ⟨members, hmembers, -⟩ := element.exists_keys_jsonSchema
      exact ⟨members, hmembers⟩

theorem refersOnlyTo_elementSchema {m : Model}
    (h : ∀ part ∈ m.parts, part.jsonSchema.RefersOnlyTo P) : m.elementSchema.RefersOnlyTo P := by
  unfold elementSchema
  cases hlink : m.link with
  | none => exact refersOnlyTo_object.2 fun _ hmember => absurd hmember List.not_mem_nil
  | some element => exact h element (by simp [parts, hlink])

theorem memberRefersOnlyTo_elementSchema {m : Model} {keyword : String}
    (hkeyword : keyword ∉ "$ref" :: schemaMapKeywords)
    (h : ∀ part ∈ m.parts, part.jsonSchema.RefersOnlyTo P) :
    MemberRefersOnlyTo P (keyword, m.elementSchema) := by
  have helement := refersOnlyTo_elementSchema h
  obtain ⟨members, hmembers⟩ := m.exists_elementSchema_eq
  rw [hmembers] at helement ⊢
  exact memberRefersOnlyTo_schema hkeyword helement

/-- The schemas of the members of a union or an intersection. -/
theorem memberRefersOnlyTo_members {m : Model} {keyword : String}
    (hkeyword : keyword ∉ "$ref" :: schemaKeywords)
    (h : ∀ part ∈ m.parts, part.jsonSchema.RefersOnlyTo P) :
    MemberRefersOnlyTo P (keyword, .array (m.properties.map jsonSchema)) :=
  memberRefersOnlyTo_list hkeyword <| List.forall_mem_map.2 fun part hpart =>
    h part (List.mem_append_right _ hpart)

/-- What a model refers to in its schema, it refers to in its type or in its parts. -/
theorem memberRefersOnlyTo_typeKeywords {m : Model}
    (hself : m.kind = .reference → P (.string m.base))
    (hparts : ∀ part ∈ m.parts, part.jsonSchema.RefersOnlyTo P) :
    ∀ member ∈ m.typeKeywords, MemberRefersOnlyTo P member := by
  have hreference : "$ref" ∉ schemaKeywords := by decide
  have henum : "enum" ∉ referringKeywords := by decide
  unfold typeKeywords
  cases hkind : m.kind with
  | reference =>
      refine List.forall_mem_singleton.2 ⟨fun _ => hself hkind, fun inner hholds => ?_⟩
      cases hholds with
      | single _ hsingle => exact absurd hsingle hreference
  | primitive => exact memberRefersOnlyTo_primitiveSchema
  | enumeration =>
      exact List.forall_mem_append.2 ⟨memberRefersOnlyTo_primitiveSchema,
        List.forall_mem_singleton.2 (memberRefersOnlyTo_of_not_mem henum)⟩
  | array =>
      exact List.forall_mem_cons.2 ⟨memberRefersOnlyTo_type _,
        List.forall_mem_singleton.2 (memberRefersOnlyTo_elementSchema (by decide) hparts)⟩
  | dictionary =>
      exact List.forall_mem_cons.2 ⟨memberRefersOnlyTo_type _,
        List.forall_mem_singleton.2 (memberRefersOnlyTo_elementSchema (by decide) hparts)⟩
  | interface =>
      refine List.forall_mem_append.2 ⟨List.forall_mem_cons.2 ⟨memberRefersOnlyTo_type _,
        List.forall_mem_singleton.2 ?_⟩, memberRefersOnlyTo_requiredKeyword⟩
      refine memberRefersOnlyTo_map (by decide) fun member hmember => ?_
      obtain ⟨part, hpart, rfl⟩ := List.mem_map.1 (mem_of_mem_uniqueMembers hmember)
      exact hparts part (List.mem_append_right _ hpart)
  | oneOf => exact List.forall_mem_singleton.2 (memberRefersOnlyTo_members (by decide) hparts)
  | anyOf => exact List.forall_mem_singleton.2 (memberRefersOnlyTo_members (by decide) hparts)
  | allOf => exact List.forall_mem_singleton.2 (memberRefersOnlyTo_members (by decide) hparts)

theorem refersOnlyTo_orNull {schema : Json} (h : schema.RefersOnlyTo P) :
    (orNull schema).RefersOnlyTo P := by
  refine refersOnlyTo_object.2
    (List.forall_mem_singleton.2 (memberRefersOnlyTo_list (by decide) ?_))
  refine List.forall_mem_cons.2 ⟨h, List.forall_mem_singleton.2 ?_⟩
  exact refersOnlyTo_object.2 (List.forall_mem_singleton.2 (memberRefersOnlyTo_type _))

/-- The schema of a model refers to the names that the model mentions only. -/
theorem refersOnlyTo_jsonSchema {m : Model} (h : ∀ name ∈ m.references, P (.string name)) :
    m.jsonSchema.RefersOnlyTo P := by
  induction m using induction with
  | step m ih =>
      rw [references_eq, List.forall_mem_append, List.forall_mem_flatMap] at h
      have hown : m.ownSchema.RefersOnlyTo P := by
        refine refersOnlyTo_object.2 (List.forall_mem_append.2 ⟨?_, memberRefersOnlyTo_annotations⟩)
        refine memberRefersOnlyTo_typeKeywords (fun hkind => ?_) fun part hpart =>
          ih part hpart (h.2 part hpart)
        rw [if_pos hkind] at h
        exact h.1 m.base (List.mem_singleton_self _)
      rw [jsonSchema_eq]
      split
      · exact refersOnlyTo_orNull hown
      · exact hown

/-! ## Schemas of definitions -/

/-- The identifier of a definition is its name. -/
theorem member?_id_definitionSchema (m : Model) :
    m.definitionSchema.member? "$id" = some (.string m.name) := by
  obtain ⟨members, hmembers, hkeys⟩ := m.exists_keys_jsonSchema
  have hid : "$id" ∉ ownKeywords := by decide
  have hnew : members.lookup "$id" = none := by
    rw [List.lookup_eq_none_iff]
    intro member hmember
    rw [bne_iff_ne]
    exact fun heq => hid (heq ▸ hkeys member hmember)
  rw [definitionSchema, hmembers]
  rw [member?, List.lookup_append, hnew, Option.none_or, List.lookup_cons_self]

/-- The schema of a definition refers to the names that the definition mentions only. -/
theorem refersOnlyTo_definitionSchema {m : Model} (h : ∀ name ∈ m.references, P (.string name)) :
    m.definitionSchema.RefersOnlyTo P := by
  have hschema := refersOnlyTo_jsonSchema h
  have hid : "$id" ∉ referringKeywords := by decide
  obtain ⟨members, hmembers, -⟩ := m.exists_keys_jsonSchema
  rw [hmembers, refersOnlyTo_object] at hschema
  rw [definitionSchema, hmembers]
  refine refersOnlyTo_object.2 (List.forall_mem_append.2 ⟨hschema, ?_⟩)
  exact List.forall_mem_singleton.2 (memberRefersOnlyTo_of_not_mem hid)

end Model

end TypedClient
