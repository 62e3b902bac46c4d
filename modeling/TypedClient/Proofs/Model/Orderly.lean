import TypedClient.Proofs.Json.Value
import TypedClient.Proofs.Model.Embed

/-!
# Distinct names and literal values

A schema declares every property once, here and in all schemas inside it
(`Schema.HasDistinctNames`). Then so do the models that are built from it, whose enumerations hold
literals only: `orderly_of_builtFrom`.
-/

namespace TypedClient

namespace Schema

/-- `s.Within t` says that `t` is `s` itself or stands inside it, at any depth. -/
inductive Within : Schema → Schema → Prop
  | self (s) : Within s s
  | child (s t u) : s.Child t → Within t u → Within s u

/-- No schema inside declares a property twice. -/
def HasDistinctNames (s : Schema) : Prop :=
  ∀ t, s.Within t → (t.properties.map (·.1)).Nodup

theorem HasDistinctNames.nodup {s : Schema} (h : s.HasDistinctNames) :
    (s.properties.map (·.1)).Nodup := h s (.self s)

theorem HasDistinctNames.child {s t : Schema} (h : s.HasDistinctNames) (ht : s.Child t) :
    t.HasDistinctNames := fun u hu => h u (.child s t u ht hu)

theorem hasDistinctNames_iff {s : Schema} :
    s.HasDistinctNames ↔
      (s.properties.map (·.1)).Nodup ∧ ∀ t, s.Child t → t.HasDistinctNames := by
  refine ⟨fun h => ⟨h.nodup, fun t ht => h.child ht⟩, ?_⟩
  rintro ⟨hself, hchildren⟩ u (_ | ⟨_, t, _, ht, hu⟩)
  · exact hself
  · exact hchildren t ht u hu

/-- A schema that holds no schemas declares no property. -/
theorem hasDistinctNames_of_leaf {s : Schema} (hproperties : s.properties = [])
    (hitems : s.items = none) (hany : s.anyOf = none) (hone : s.oneOf = none)
    (hall : s.allOf = none) (hadditional : s.additional = none) : s.HasDistinctNames := by
  refine hasDistinctNames_iff.2 ⟨by simp [hproperties], fun t ht => ?_⟩
  cases ht <;> simp_all

theorem HasDistinctNames.unwrap {s : Schema} (h : s.HasDistinctNames) (n : Nat) :
    (s.unwrap n).HasDistinctNames := by
  induction n generalizing s with
  | zero => exact h
  | succ n ih =>
      cases hs : s.wrapped? with
      | none => rwa [unwrap_of_not_wrapped _ hs]
      | some inner =>
          rw [unwrap_succ_of_wrapped n hs]
          exact ih (h.child (child_of_wrapped hs))

theorem HasDistinctNames.ownSchema {s : Schema} (h : s.HasDistinctNames) :
    s.ownSchema.HasDistinctNames := by
  refine hasDistinctNames_iff.2 ⟨h.nodup, fun t ht => ?_⟩
  cases ht with
  | property name _ hmem => exact h.child (.property name t hmem)
  | items _ hitems => cases hitems
  | anyOf _ _ hms => cases hms
  | oneOf _ _ hms => cases hms
  | allOf _ _ hms => cases hms
  | additional _ hvalue => cases hvalue

/-- The schemas among the parts have distinct names. -/
theorem HasDistinctNames.part {shape : Shape} {n : Nat} {s t : Schema} {part : Part}
    (h : s.HasDistinctNames) (hpart : part ∈ partsOf shape (s.unwrap n))
    (ht : part.schema? = some t) : t.HasDistinctNames := by
  rcases child_of_mem_partsOf hpart ht with hchild | ⟨-, rfl⟩
  · exact (h.unwrap n).child hchild
  · exact (h.unwrap n).ownSchema

end Schema

namespace Model

/-- The properties of an interface have distinct names, and the values of an enumeration are
literals. -/
structure IsOrderly (m : Model) : Prop where
  nodup : m.kind = .interface → (m.properties.map (·.name)).Nodup
  isLiteral : m.kind = .enumeration → ∀ member ∈ m.members, member.value.IsLiteral

/-- A model is orderly, and so is everything inside it. -/
abbrev Orderly (m : Model) : Prop := m.Throughout IsOrderly

theorem Orderly.refreshImports {m : Model} (h : m.Orderly) : m.refreshImports.Orderly := by
  refine h.map parts_refreshImports fun n hn => ?_
  rw [refreshImports_eq]
  refine ⟨fun hkind => ?_, hn.isLiteral⟩
  have hnames : (n.properties.map Model.refreshImports).map (·.name) =
      n.properties.map (·.name) := by
    rw [List.map_map]
    exact List.map_congr_left fun p _ => name_refreshImports p
  rw [hnames]
  exact hn.nodup hkind

theorem Orderly.redirect {m : Model} (h : m.Orderly) (target : String → String) :
    (m.redirect target).Orderly := by
  refine h.map (parts_redirect target) fun n hn => ?_
  rw [redirect_eq]
  refine ⟨fun hkind => ?_, hn.isLiteral⟩
  have hnames : (n.properties.map (Model.redirect target)).map (·.name) =
      n.properties.map (·.name) := by
    rw [List.map_map]
    exact List.map_congr_left fun p _ => name_redirect target p
  rw [hnames]
  exact hn.nodup hkind

/-- The value of an enumeration member is a literal. -/
theorem isLiteral_of_memberOf? {value : EnumValue} {name : String} {literal : Json}
    (h : memberOf? value = some (name, literal)) : literal.IsLiteral := by
  cases value with
  | string s =>
      obtain ⟨-, rfl⟩ := Prod.mk.inj (Option.some.inj h)
      trivial
  | integer n =>
      obtain ⟨-, rfl⟩ := Prod.mk.inj (Option.some.inj h)
      trivial
  | float x =>
      obtain ⟨-, rfl⟩ := Prod.mk.inj (Option.some.inj h)
      exact Json.isLiteral_ofDouble x
  | bool b =>
      obtain ⟨-, rfl⟩ := Prod.mk.inj (Option.some.inj h)
      trivial
  | null => cases h

theorem isLiteral_of_mem_membersFrom {names descriptions : List String} {index : Nat}
    {seen : List EnumValue} {taken : List String} {values : List EnumValue} {member : Member}
    (h : member ∈ membersFrom names descriptions index seen taken values) :
    member.value.IsLiteral := by
  induction values generalizing index seen taken with
  | nil => cases h
  | cons value rest ih =>
      rw [membersFrom] at h
      split at h
      · exact ih h
      · rename_i hvalue
        dsimp only at h
        split at h
        · exact ih h
        · rcases List.mem_cons.1 h with rfl | h
          · exact isLiteral_of_memberOf? hvalue
          · exact ih h

theorem kindOf_eq_interface {shape : Shape} (h : kindOf shape = .interface) : shape = .object := by
  cases shape <;> first | rfl | cases h

@[simp]
theorem name_embed (scope name : String) (place : List String) (s : Schema) :
    (embed scope name place s).1.name = name := by
  by_cases h : s.outline.shape = .object
  · rw [embed_of_object _ _ _ h]
    rfl
  · rw [embed_of_not_object _ _ _ h]
    rfl

/-- The properties that are built from a schema have the names that it declares. -/
theorem names_content_object (scope : String) (place : List String) (n : Nat) (s : Schema) :
    (content scope place n .object s).properties.map (·.name) =
      (s.unwrap n).properties.map (·.1) := by
  rw [content_eq_unwrap, contentOfShape]
  dsimp only
  rw [contentOfProperties_eq, List.map_map]
  exact List.map_congr_left fun _ _ => name_embed _ _ _ _

/-! ## What is built -/

/-- The model and the definitions lifted beside it are orderly. -/
structure OrderlyBuild (built : Model × List Model) : Prop where
  model : built.1.Orderly
  lifted : ∀ m ∈ built.2, m.Orderly

/-- A reference or a primitive type has no parts, and nothing to be in order. -/
theorem orderly_of_leaf {m : Model} (hkind : m.kind = .reference ∨ m.kind = .primitive)
    (hparts : m.parts = []) : m.Orderly := by
  refine throughout_iff.2 ⟨⟨fun h => ?_, fun h => ?_⟩, fun part hpart => ?_⟩
  · simp [h] at hkind
  · simp [h] at hkind
  · rw [hparts] at hpart
    exact absurd hpart List.not_mem_nil

/-- What is said about a model beside its type makes no difference. -/
theorem Orderly.congr {m n : Model} (h : m.Orderly) (hkind : n.kind = m.kind)
    (hmembers : n.members = m.members) (hlink : n.link = m.link)
    (hproperties : n.properties = m.properties) : n.Orderly := by
  obtain ⟨hself, hparts⟩ := throughout_iff.1 h
  refine throughout_iff.2 ⟨⟨?_, ?_⟩, ?_⟩
  · rw [hkind, hproperties]
    exact hself.nodup
  · rw [hkind, hmembers]
    exact hself.isLiteral
  · rw [parts, hlink, hproperties]
    exact hparts

/-- A model is orderly if its content is. -/
theorem orderly_assemble (name : String) {s : Schema} {c : Content}
    (hnames : s.outline.shape = .object → (c.properties.map (·.name)).Nodup)
    (hparts : ∀ part ∈ c.parts, part.Orderly) : (assemble name s c).Orderly := by
  refine throughout_iff.2 ⟨⟨fun hkind => hnames (kindOf_eq_interface hkind), ?_⟩, hparts⟩
  intro _ member hmember
  simp only [assemble] at hmember
  split at hmember
  · exact isLiteral_of_mem_membersFrom hmember
  · cases hmember

/-- A content is orderly if every schema among the parts leads to orderly models. -/
theorem orderly_content {scope : String} {place : List String} {ps : List Schema.Part}
    {c : Content} (hbuilt : c.BuiltFrom scope place ps)
    (h : ∀ part ∈ ps, ∀ t, part.schema? = some t → ∀ name place,
      OrderlyBuild (embed scope name place t)) :
    (∀ part ∈ c.parts, part.Orderly) ∧ ∀ m ∈ c.lifted, m.Orderly := by
  refine hbuilt.forall (fun base => orderly_of_leaf (.inr rfl) rfl)
    (fun m isRequired hm => hm.congr rfl rfl rfl rfl) fun part hpart t ht name place => ?_
  obtain ⟨hmodel, hlifted⟩ := h part hpart t ht name place
  exact ⟨hmodel, hlifted⟩

/-- An inline schema leads to orderly models. -/
theorem orderlyBuild_embed (scope name : String) (place : List String) {s : Schema}
    (h : s.HasDistinctNames) : OrderlyBuild (embed scope name place s) := by
  induction s using Schema.induction_parts generalizing name place with
  | step s ih =>
      by_cases hs : s.outline.shape = .object
      · obtain ⟨hparts, hlifted⟩ := orderly_content
          (builtFrom_content scope place 2 .object s) fun part hpart t ht name place =>
            ih part (by simpa [Schema.parts, unwrapsOf, hs] using hpart) t ht name place
              (h.part hpart ht)
        have hnames : ((content scope place 2 .object s).properties.map (·.name)).Nodup := by
          rw [names_content_object]
          exact (h.unwrap 2).nodup
        rw [embed_of_object _ _ _ hs]
        refine ⟨orderly_of_leaf (.inl rfl) rfl, ?_⟩
        refine List.forall_mem_append.2 ⟨hlifted, List.forall_mem_singleton.2 ?_⟩
        exact Orderly.refreshImports ((orderly_assemble (provisionalName scope place)
          (fun _ => hnames) hparts).congr rfl rfl rfl rfl)
      · obtain ⟨hparts, hlifted⟩ := orderly_content
          (builtFrom_content scope place 1 s.outline.shape s) fun part hpart t ht name place =>
            ih part (by simpa [Schema.parts, unwrapsOf, hs] using hpart) t ht name place
              (h.part hpart ht)
        rw [embed_of_not_object _ _ _ hs]
        exact ⟨orderly_assemble name (fun hobject => absurd hobject hs) hparts, hlifted⟩

/-- The model of an inline schema, with what is lifted out of it. -/
theorem orderlyBuild_inline (scope name : String) (place : List String) {s : Schema}
    (h : s.HasDistinctNames) : OrderlyBuild (inline scope name place s) :=
  ⟨(orderlyBuild_embed scope name place h).model.refreshImports,
    (orderlyBuild_embed scope name place h).lifted⟩

/-- The model of a named schema, with what is lifted out of it. -/
theorem orderlyBuild_definition (scope name : String) (origin : Origin) {s : Schema}
    (h : s.HasDistinctNames) : OrderlyBuild (definition scope name s origin) := by
  obtain ⟨hparts, hlifted⟩ := orderly_content
    (builtFrom_content scope [name] 1 s.outline.shape s) fun part hpart t ht name place =>
      orderlyBuild_embed scope name place (h.part hpart ht)
  have hnames : s.outline.shape = .object →
      ((content scope [name] 1 s.outline.shape s).properties.map (·.name)).Nodup := by
    intro hs
    rw [hs, names_content_object]
    exact (h.unwrap 1).nodup
  exact ⟨Orderly.refreshImports ((orderly_assemble name hnames hparts).congr rfl rfl rfl rfl),
    hlifted⟩

/-- A model that is built from a schema, as a definition or where the schema stands, or lifted out
of it. -/
inductive BuiltFrom (s : Schema) : Model → Prop
  | definition (scope name : String) (origin : Origin) :
      BuiltFrom s (definition scope name s origin).1
  | ofDefinition {m : Model} (scope name : String) (origin : Origin) :
      m ∈ (Model.definition scope name s origin).2 → BuiltFrom s m
  | inline (scope name : String) (place : List String) : BuiltFrom s (inline scope name place s).1
  | ofInline {m : Model} (scope name : String) (place : List String) :
      m ∈ (Model.inline scope name place s).2 → BuiltFrom s m

/-- All that is built from a schema is orderly. -/
theorem orderly_of_builtFrom {s : Schema} (hs : s.HasDistinctNames) {m : Model}
    (h : BuiltFrom s m) : m.Orderly := by
  cases h with
  | definition scope name origin => exact (orderlyBuild_definition scope name origin hs).model
  | ofDefinition scope name origin hm =>
      exact (orderlyBuild_definition scope name origin hs).lifted m hm
  | inline scope name place => exact (orderlyBuild_inline scope name place hs).model
  | ofInline scope name place hm => exact (orderlyBuild_inline scope name place hs).lifted m hm

end Model

end TypedClient
