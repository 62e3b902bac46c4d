import TypedClient.Proofs.Json.Accepts
import TypedClient.Proofs.Model.JsonSchema
import TypedClient.Proofs.Model.Type

/-!
# Schemas are sound for types

What the schema of a model accepts is of the type that the model is printed as: `has_of_accepts`,
by induction on the model. Its step is `has_ownType`, with a case for each kind. The types `Blob`
and `void` are left out, which no JSON value is of.
-/

namespace TypedClient.Model

open Script Json

variable {S T : String → Json → Prop} {value : Json}

/-! ## Schemas -/

/-- Annotations accept everything. -/
theorem meetsAll_annotations {m : Model} {siblings : List (String × Json)} :
    MeetsAll S siblings m.annotations value := by
  have hkeywords : ∀ keyword ∈ annotationKeywords, keyword ∉ Json.typeKeywords := by decide
  exact meetsAll_of_not_mem fun entry hentry => hkeywords _ (mem_annotationKeywords hentry)

theorem accepts_ownSchema {m : Model} :
    Accepts S m.ownSchema value ↔
      MeetsAll S (m.typeKeywords ++ m.annotations) m.typeKeywords value := by
  rw [ownSchema, accepts_object, meetsAll_append]
  exact and_iff_left meetsAll_annotations

/-- Beside its own values a nullable model accepts `null`. -/
theorem accepts_jsonSchema {m : Model} :
    Accepts S m.jsonSchema value ↔
      Accepts S m.ownSchema value ∨ (m.isNullable = true ∧ value = .null) := by
  have hnull : Accepts S (.object [("type", .string "null")]) value ↔ value = .null := by
    cases value <;> simp [IsOfType]
  rw [jsonSchema_eq]
  cases m.isNullable <;> simp [orNull, acceptsAny_iff, hnull]

/-! ## Types -/

theorem has_nullableType {type : Ty} {nullable : Bool}
    (h : type.Has T value ∨ (nullable = true ∧ value = .null)) :
    (nullableType nullable type).Has T value := by
  unfold nullableType
  split
  · rw [Ty.Has, Ty.hasSome_iff]
    rcases h with h | ⟨-, rfl⟩
    · exact ⟨type, by simp, h⟩
    · exact ⟨.word .null, by simp, by rw [Ty.Has]; rfl⟩
  · rename_i hword
    rcases h with h | ⟨rfl, rfl⟩
    · exact h
    · simp only [Bool.true_and, Bool.not_eq_true', Bool.not_eq_false] at hword
      unfold isNullWord at hword
      split at hword
      · rw [Ty.Has]
        rfl
      · rw [Ty.Has]
        trivial
      · cases hword

theorem has_union {types : List Ty} (h : ∃ type ∈ types, type.Has T value) :
    (joinedType .union types).Has T value := by
  obtain ⟨type, htype, hvalue⟩ := h
  match types, htype with
  | [_], htype => rwa [← List.mem_singleton.1 htype]
  | first :: next :: others, htype =>
      change (Ty.union (first :: next :: others)).Has T value
      rw [Ty.Has, Ty.hasSome_iff]
      exact ⟨type, htype, hvalue⟩

theorem has_intersection {types : List Ty} (h : ∀ type ∈ types, type.Has T value) :
    (joinedType .intersection types).Has T value := by
  match types, h with
  | [], _ =>
      change (Ty.word .any).Has T value
      rw [Ty.Has]
      trivial
  | [type], h => exact h type List.mem_cons_self
  | first :: next :: others, h =>
      change (Ty.intersection (first :: next :: others)).Has T value
      rw [Ty.Has, Ty.hasEach_iff]
      exact h

theorem has_any : (Ty.word .any).Has T value := by
  rw [Ty.Has]
  trivial

/-! ## The kinds of models -/

/-- A value that is the same as a literal is of its type. -/
theorem has_literalType {literal : Json} (hliteral : literal.IsLiteral)
    (h : Same literal value) : (literalType literal).Has T value := by
  cases h with
  | null =>
      rw [literalType, Ty.Has]
      rfl
  | bool b =>
      rw [literalType, Ty.Has]
  | number hvalue =>
      rw [literalType, Ty.Has]
      exact ⟨_, _, Number.readsAs_text hliteral, hvalue, rfl⟩
  | string s =>
      rw [literalType, Ty.Has]
  | array => exact hliteral.elim
  | object => exact hliteral.elim

theorem has_baseType {base : String} (hbinary : base ≠ "binary") (hvoid : base ≠ "void")
    {siblings : List (String × Json)} (h : MeetsAll S siblings (primitiveSchema base) value) :
    (baseType base).Has T value := by
  have htype : base ∈ ["string", "integer", "number", "boolean", "null"] → IsOfType base value := by
    intro hbase
    rw [primitiveSchema, if_pos hbase, meetsAll_type] at h
    exact h.1
  have hword : ∀ w : TypeWord, w.Has value → (Ty.word w).Has T value := fun w hw => by rwa [Ty.Has]
  unfold baseType
  split
  · rename_i hbase
    refine hword .number ?_
    have hnumber := htype (by rcases hbase with rfl | rfl <;> decide)
    rcases hbase with rfl | rfl <;> cases value <;> simp_all [IsOfType, TypeWord.Has]
  · split
    · rename_i hbase
      subst hbase
      have hstring := htype (by decide)
      refine hword .string ?_
      cases value <;> simp_all [IsOfType, TypeWord.Has]
    · split
      · rename_i hbase
        subst hbase
        have hboolean := htype (by decide)
        refine hword .boolean ?_
        cases value <;> simp_all [IsOfType, TypeWord.Has]
      · split
        · rename_i hbase
          subst hbase
          have hnull := htype (by decide)
          refine hword .null ?_
          cases value <;> simp_all [IsOfType, TypeWord.Has]
        · exact has_any

theorem has_enumeration {m : Model} (hliteral : ∀ member ∈ m.members, member.value.IsLiteral)
    (h : ∃ item ∈ m.members.map (·.value), Same item value) :
    (if m.members.isEmpty then baseType m.base
      else joinedType .union (m.members.map fun member => literalType member.value)).Has T value := by
  obtain ⟨item, hitem, hsame⟩ := h
  obtain ⟨member, hmember, rfl⟩ := List.mem_map.1 hitem
  rw [if_neg (by rw [List.isEmpty_iff]; exact List.ne_nil_of_mem hmember)]
  exact has_union ⟨_, List.mem_map_of_mem hmember, has_literalType (hliteral member hmember) hsame⟩

/-! ### Objects -/

theorem eq_of_isOfType_object (h : IsOfType "object" value) :
    ∃ members, value = .object members := by
  cases value <;> simp_all [IsOfType]

theorem eq_of_isOfType_array (h : IsOfType "array" value) : ∃ items, value = .array items := by
  cases value <;> simp_all [IsOfType]

theorem has_objectOf {properties : List Model} {members : List (String × Json)}
    (hrequired : ∀ p ∈ properties, p.isRequired = true → (members.lookup p.name).isSome)
    (hmembers : ∀ p ∈ properties, ∀ member, members.lookup p.name = some member →
      p.type.Has T member) :
    (objectOf (properties.map fun p => (p.head, p.type))).Has T (.object members) := by
  cases properties with
  | nil =>
      change (Ty.record (.word .any)).Has T (.object members)
      rw [Ty.Has]
      exact ⟨members, rfl, fun _ _ => has_any⟩
  | cons first others =>
      change (Ty.object ((first :: others).map fun p => (p.head, p.type))).Has T (.object members)
      rw [Ty.Has]
      refine ⟨members, rfl, Ty.hasProperties_iff.2 (List.forall_mem_map.2 fun p hp => ?_)⟩
      exact ⟨hrequired p hp, hmembers p hp⟩

theorem lookup_of_meetsAll_requiredKeyword {properties : List Model}
    {siblings : List (String × Json)} {members : List (String × Json)}
    (h : MeetsAll S siblings (requiredKeyword properties) (.object members)) :
    ∀ p ∈ properties, p.isRequired = true → (members.lookup p.name).isSome := by
  intro p hp hrequired
  have hname : p.name ∈ (properties.filter (·.isRequired)).map (·.name) :=
    List.mem_map_of_mem (List.mem_filter.2 ⟨hp, hrequired⟩)
  rw [requiredKeyword_of_mem hp hrequired, meetsAll_required] at h
  exact h.1 members rfl _ hname

/-- In the schema of a dictionary no property is named. -/
theorem declaredNames_dictionary {m : Model} (h : m.kind = .dictionary) :
    declaredNames (m.typeKeywords ++ m.annotations) = [] := by
  have hkeywords : ∀ keyword ∈ annotationKeywords, keyword ≠ "properties" := by decide
  have hlookup : (m.typeKeywords ++ m.annotations).lookup "properties" = none := by
    rw [List.lookup_eq_none_iff]
    intro entry hentry
    rw [bne_iff_ne]
    rcases List.mem_append.1 hentry with htype | hannotation
    · rw [typeKeywords, h] at htype
      have hkey : entry.1 ∈ ["type", "additionalProperties"] := List.mem_map_of_mem htype
      intro hname
      rw [← hname] at hkey
      exact absurd hkey (by decide)
    · exact (hkeywords _ (mem_annotationKeywords hannotation)).symm
  rw [declaredNames, hlookup]

/-! ## The whole -/

/-- The model is not of a type that no JSON value is of. -/
def HasJsonValues (m : Model) : Prop :=
  m.kind = .primitive → m.base ≠ "binary" ∧ m.base ≠ "void"

/-- What the keywords of the own type of a model accept is of that type, if that is so for the
references and for the parts of the model. -/
theorem has_ownType (hreferences : ∀ name value, S name value → T name value) {m : Model}
    (hself : m.IsOrderly) (hvalues : HasJsonValues m)
    (hparts : ∀ part ∈ m.parts, ∀ value, Accepts S part.jsonSchema value → part.type.Has T value)
    (haccepts : Accepts S m.ownSchema value) : m.ownType.Has T value := by
  have hproperties : ∀ p ∈ m.properties, ∀ value, Accepts S p.jsonSchema value →
      p.type.Has T value := fun p hp => hparts p (List.mem_append_right _ hp)
  have hsome : AcceptsAny S (m.properties.map jsonSchema) value →
      ∃ t ∈ m.properties.map type, t.Has T value := by
    rw [acceptsAny_iff]
    rintro ⟨schema, hschema, hvalue⟩
    obtain ⟨p, hp, rfl⟩ := List.mem_map.1 hschema
    exact ⟨p.type, List.mem_map_of_mem hp, hproperties p hp value hvalue⟩
  have hlink : ∀ value, Accepts S m.elementSchema value →
      ((m.link.map type).getD (.word .any)).Has T value := by
    intro value hvalue
    cases hm : m.link with
    | none => exact has_any
    | some link =>
        rw [elementSchema, hm] at hvalue
        exact hparts link (by simp [parts, hm]) value hvalue
  rw [accepts_ownSchema] at haccepts
  have hdeclared := declaredNames_dictionary (m := m)
  generalize m.typeKeywords ++ m.annotations = siblings at haccepts hdeclared
  unfold ownType
  unfold typeKeywords at haccepts
  cases hkind : m.kind <;> rw [hkind] at haccepts <;> dsimp only at haccepts ⊢
  case reference =>
    rw [meetsAll_ref] at haccepts
    rw [Ty.Has]
    exact hreferences _ _ haccepts.1
  case primitive => exact has_baseType (hvalues hkind).1 (hvalues hkind).2 haccepts
  case enumeration =>
    rw [meetsAll_append, meetsAll_enum] at haccepts
    exact has_enumeration (hself.isLiteral hkind) haccepts.2.1
  case array =>
    rw [meetsAll_type, meetsAll_items] at haccepts
    obtain ⟨items, rfl⟩ := eq_of_isOfType_array haccepts.1
    rw [Ty.Has]
    exact ⟨items, rfl, fun item hitem => hlink item (haccepts.2.1 items rfl item hitem)⟩
  case dictionary =>
    rw [meetsAll_type, meetsAll_additionalProperties, hdeclared hkind] at haccepts
    obtain ⟨members, rfl⟩ := eq_of_isOfType_object haccepts.1
    rw [Ty.Has]
    exact ⟨members, rfl, fun member hmember =>
      hlink member.2 (haccepts.2.1 members rfl member hmember List.not_mem_nil)⟩
  case interface =>
    have hnodup : ((m.properties.map fun p => (p.name, p.jsonSchema)).map (·.1)).Nodup := by
      rw [List.map_map]
      exact hself.nodup hkind
    rw [uniqueMembers_of_nodup hnodup, List.cons_append, List.cons_append, List.nil_append,
      meetsAll_type, meetsAll_properties] at haccepts
    obtain ⟨members, rfl⟩ := eq_of_isOfType_object haccepts.1
    have hmeets := meetsProperties_iff.1 (haccepts.2.1 members rfl)
    refine has_objectOf (lookup_of_meetsAll_requiredKeyword haccepts.2.2)
      fun p hp member hmember => hproperties p hp member ?_
    exact hmeets (p.name, p.jsonSchema) (List.mem_map.2 ⟨p, hp, rfl⟩) member hmember
  case oneOf =>
    rw [meetsAll_oneOf] at haccepts
    exact has_union (hsome (acceptsAny_of_acceptsOne haccepts.1))
  case anyOf =>
    rw [meetsAll_anyOf] at haccepts
    exact has_union (hsome haccepts.1)
  case allOf =>
    rw [meetsAll_allOf, acceptsEach_iff] at haccepts
    refine has_intersection (List.forall_mem_map.2 fun p hp => hproperties p hp value ?_)
    exact haccepts.1 _ (List.mem_map_of_mem hp)

/-- What the schema of a model accepts is of its type, if that is so for the references. -/
theorem has_of_accepts (hreferences : ∀ name value, S name value → T name value) {m : Model} :
    m.Orderly → m.Throughout HasJsonValues →
      ∀ value, Accepts S m.jsonSchema value → m.type.Has T value := by
  induction m using induction with
  | step m ih =>
      intro horderly hjson value haccepts
      obtain ⟨hself, hinside⟩ := throughout_iff.1 horderly
      obtain ⟨hvalues, hvaluesInside⟩ := throughout_iff.1 hjson
      rw [type_eq]
      refine has_nullableType (Or.imp_left (fun hown => ?_) (accepts_jsonSchema.1 haccepts))
      exact has_ownType hreferences hself hvalues
        (fun part hpart => ih part hpart (hinside part hpart) (hvaluesInside part hpart)) hown

/-- What the schema of a model accepts is of the type that its expression stands for, whatever the
references are, as long as that is so for them. -/
def IsSound (m : Model) : Prop :=
  ∃ type, Ty.read? m.expression = some type ∧
    ∀ S T : String → Json → Prop, (∀ name value, S name value → T name value) →
      ∀ value, Accepts S m.jsonSchema value → type.Has T value

theorem isSound_of_orderly {m : Model} (horderly : m.Orderly) (hjson : m.Throughout HasJsonValues)
    (hnames : m.MentionsTypes) : m.IsSound :=
  ⟨m.type, read?_expression horderly hnames,
    fun _ _ hreferences value => has_of_accepts hreferences horderly hjson value⟩

theorem hasJsonValues_redirect {m : Model} (target : String → String)
    (h : m.Throughout HasJsonValues) : (m.redirect target).Throughout HasJsonValues := by
  refine h.map (parts_redirect target) fun n hn => ?_
  intro hkind
  rw [kind_redirect] at hkind
  rw [base_redirect, if_neg (by rw [hkind]; decide)]
  exact hn hkind

/-- Whatever is built from a schema is sound, under any names that its references are given in the
end, if these are names of types and no keywords. -/
theorem isSound_of_builtFrom {s : Schema} (hs : s.HasDistinctNames) {m : Model}
    (h : BuiltFrom s m) (target : String → String) (hjson : m.Throughout HasJsonValues)
    (hnames : ∀ name ∈ m.references,
      isIdentifier (target name) = true ∧ target name ∉ typeWords) :
    (m.redirect target).IsSound := by
  refine isSound_of_orderly ((orderly_of_builtFrom hs h).redirect target)
    (hasJsonValues_redirect target hjson) ?_
  intro name hname
  rw [references_redirect] at hname
  obtain ⟨source, hsource, rfl⟩ := List.mem_map.1 hname
  exact hnames source hsource

/-- A pet has a name and perhaps an owner. -/
def ownedSchema : Schema where
  type := some (.single "object")
  required := ["name"]
  properties :=
    [("name", { type := some (.single "string") }),
      ("owner", { ref := some "#/components/schemas/Owner", nullable := some true })]

theorem hasDistinctNames_ownedSchema : ownedSchema.HasDistinctNames := by
  refine Schema.hasDistinctNames_iff.2 ⟨by decide, fun t ht => ?_⟩
  cases ht with
  | property name _ hmem =>
      simp only [ownedSchema, List.mem_cons, Prod.mk.injEq, List.not_mem_nil, or_false] at hmem
      rcases hmem with ⟨-, rfl⟩ | ⟨-, rfl⟩ <;>
        exact Schema.hasDistinctNames_of_leaf rfl rfl rfl rfl rfl rfl
  | items _ hitems => cases hitems
  | anyOf _ _ hms => cases hms
  | oneOf _ _ hms => cases hms
  | allOf _ _ hms => cases hms
  | additional _ hvalue => cases hvalue

theorem isSound_ownedSchema :
    ownedSchema.HasDistinctNames ∧
      (definition "Pet" "Pet" ownedSchema .schema).1.Throughout HasJsonValues ∧
      (∀ name ∈ (definition "Pet" "Pet" ownedSchema .schema).1.references,
        isIdentifier name = true ∧ name ∉ typeWords) ∧
      ((definition "Pet" "Pet" ownedSchema .schema).1.redirect id).IsSound := by
  have hjson : (definition "Pet" "Pet" ownedSchema .schema).1.Throughout HasJsonValues := by
    refine throughout_iff.2 ⟨fun _ => by decide,
      List.forall_mem_cons.2 ⟨?_, List.forall_mem_singleton.2 ?_⟩⟩
    · exact throughout_iff.2 ⟨fun _ => by decide, fun _ h => absurd h List.not_mem_nil⟩
    · exact throughout_iff.2 ⟨fun _ => by decide, fun _ h => absurd h List.not_mem_nil⟩
  have hnames : ∀ name ∈ (definition "Pet" "Pet" ownedSchema .schema).1.references,
      isIdentifier name = true ∧ name ∉ typeWords := by decide
  exact ⟨hasDistinctNames_ownedSchema, hjson, hnames,
    isSound_of_builtFrom hasDistinctNames_ownedSchema (.definition "Pet" "Pet" .schema) id hjson
      hnames⟩

/-- A reference whose name is a keyword: it is read as the keyword, which is the type of `null`
alone. -/
theorem not_isSound_null :
    ¬ (definition "Pet" "Pet"
      { ref := some "#/components/schemas/null", nullable := some true } .schema).1.IsSound := by
  rintro ⟨type, hread, hsound⟩
  have htype : some type = some (.word .null) := hread.symm
  obtain rfl := Option.some.inj htype
  let strings : String → Json → Prop := fun _ value => ∃ s, value = .string s
  have haccepts : Accepts strings (definition "Pet" "Pet"
      { ref := some "#/components/schemas/null", nullable := some true } .schema).1.jsonSchema
      (.string "Rex") := by
    rw [accepts_jsonSchema, accepts_ownSchema]
    refine .inl (meetsAll_ref.2 ⟨⟨"Rex", rfl⟩, ?_⟩)
    rw [meetsAll_nil]
    trivial
  have hnull := hsound strings strings (fun _ _ h => h) _ haccepts
  rw [Ty.Has] at hnull
  cases hnull

end TypedClient.Model
