import TypedClient.Proofs.Model.WellFormed

/-!
# Schemas with something in them

An enumeration needs a value other than `null` and a composition a part (`Schema.HasContent`). This
is asked of a schema and of the inline schemas inside it, up to the objects, which become
definitions of their own (`Schema.Populated`). The models that are built are populated exactly if
their schemas are: `populated_embed_iff`, with `populated_definition_iff` and
`populated_liftedDefinition_iff` for the definitions.
-/

namespace TypedClient

namespace Schema

/-- The shapes of compositions. -/
def compositions : List Shape := [.oneOf, .anyOf, .allOf]

/-- A schema with the given parts has a value if it is an enumeration and a part if it is a
composition. -/
structure HasContent (s : Schema) (ps : List Part) : Prop where
  values : s.outline.shape = .enumeration → ∃ value ∈ s.unwrapped.enumValues, value ≠ .null
  parts : s.outline.shape ∈ compositions → ps ≠ []

/-- An inline schema has content, and so have the schemas inside it, up to the objects. -/
inductive Populated : Schema → Prop
  | object {s : Schema} : s.outline.shape = .object → Populated s
  | inline {s : Schema} : s.HasContent s.parts →
      (∀ part ∈ s.parts, ∀ t, part.schema? = some t → Populated t) → Populated s

/-- The schemas among the parts are populated. -/
def PartsPopulated (ps : List Part) : Prop :=
  ∀ part ∈ ps, ∀ t, part.schema? = some t → t.Populated

theorem populated_iff_of_not_object {s : Schema} (h : s.outline.shape ≠ .object) :
    s.Populated ↔ s.HasContent s.parts ∧ PartsPopulated s.parts := by
  constructor
  · rintro (hobject | ⟨hcontent, hparts⟩)
    · exact absurd hobject h
    · exact ⟨hcontent, hparts⟩
  · rintro ⟨hcontent, hparts⟩
    exact .inline hcontent hparts

end Schema

namespace Model

variable {scope : String} {place : List String}

/-! ## Enumerations -/

theorem memberOf?_eq_none_iff {value : EnumValue} : memberOf? value = none ↔ value = .null := by
  cases value <;> simp [memberOf?]

/-- An enumeration has members exactly if it has a value other than `null`. -/
theorem membersFrom_ne_nil_iff {names descriptions : List String} {index : Nat}
    {taken : List String} {values : List EnumValue} :
    membersFrom names descriptions index [] taken values ≠ [] ↔
      ∃ value ∈ values, value ≠ .null := by
  induction values generalizing index with
  | nil => simp [membersFrom]
  | cons value rest ih =>
      cases hmember : memberOf? value with
      | none =>
          have hnull : value = .null := memberOf?_eq_none_iff.1 hmember
          rw [membersFrom, hmember]
          simpa [hnull] using ih
      | some pair =>
          -- Nothing has been seen yet, so that the first value is no repetition.
          have hvalue : value ≠ .null := by
            intro hnull
            rw [memberOf?_eq_none_iff.2 hnull] at hmember
            cases hmember
          refine iff_of_true ?_ ⟨value, List.mem_cons_self, hvalue⟩
          rw [membersFrom, hmember]
          simp

/-! ## Contents -/

/-- A content stands where the parts of a model of the shape do. -/
def Content.Fits (c : Content) (shape : Shape) : Prop :=
  match shape with
  | .array | .dictionary => c.properties = []
  | .oneOf | .anyOf | .allOf | .object => c.link = none
  | .reference | .primitive | .enumeration => c.parts = []

theorem link_contentOfComposition (shape : Shape) (typeNames : List String) (format : Option String)
    (members : Option (List Schema)) :
    (contentOfComposition scope place shape typeNames format members).link = none := by
  cases members <;> rfl

theorem fits_content (n : Nat) (shape : Shape) (s : Schema) :
    (content scope place n shape s).Fits shape := by
  rw [content_eq_unwrap]
  generalize s.unwrap n = t
  unfold contentOfShape
  cases shape with
  | reference | primitive | enumeration => rfl
  | array => cases ht : t.items <;> simp [Content.Fits]
  | dictionary => rcases ht : t.additional with _ | _ | _ <;> simp [Content.Fits]
  | oneOf | anyOf => exact link_contentOfComposition _ _ _ _
  | allOf =>
      dsimp only
      split
      · exact link_contentOfComposition _ _ _ _
      · rfl
  | object => rfl

/-- The schemas of all parts stand in the schema of a model whose content fits. -/
theorem schemaParts_assemble {name : String} {s : Schema} {c : Content}
    (hfits : c.Fits s.outline.shape) : (assemble name s c).schemaParts = c.parts := by
  have hkind : (assemble name s c).kind = kindOf s.outline.shape := rfl
  unfold schemaParts
  rw [hkind]
  unfold Content.Fits at hfits
  cases hshape : s.outline.shape <;> rw [hshape] at hfits <;> dsimp only at hfits
  case reference | primitive | enumeration => exact hfits.symm
  case array | dictionary => simp [kindOf, Content.parts, hfits, assemble]
  case oneOf | anyOf | allOf | object => simp [kindOf, Content.parts, hfits, assemble]

/-- A model has content exactly if its schema has. -/
theorem hasContent_assemble_iff {name : String} {s : Schema} {c : Content} {ps : List Schema.Part}
    (hbuilt : c.BuiltFrom scope place ps) (hfits : c.Fits s.outline.shape) :
    (assemble name s c).HasContent ↔ s.HasContent ps := by
  have hkind : (assemble name s c).kind = kindOf s.outline.shape := rfl
  have henumeration : (assemble name s c).kind = .enumeration ↔ s.outline.shape = .enumeration := by
    rw [hkind]
    cases s.outline.shape <;> decide
  have hcomposition : (assemble name s c).kind ∈ compositions ↔
      s.outline.shape ∈ Schema.compositions := by
    rw [hkind]
    cases s.outline.shape <;> decide
  have hmembers : s.outline.shape = .enumeration →
      ((assemble name s c).members ≠ [] ↔ ∃ value ∈ s.unwrapped.enumValues, value ≠ .null) := by
    intro hshape
    simp only [assemble, hshape, if_pos]
    exact membersFrom_ne_nil_iff
  have hproperties : s.outline.shape ∈ Schema.compositions →
      ((assemble name s c).properties ≠ [] ↔ ps ≠ []) := by
    intro hshape
    have hlink : c.link = none := by
      unfold Content.Fits at hfits
      cases hs : s.outline.shape <;> simp_all [Schema.compositions]
    have hparts : c.properties = ps.map (ofPart scope place) := by
      rw [← hbuilt.parts_eq, Content.parts, hlink]
      rfl
    have hassemble : (assemble name s c).properties = c.properties := rfl
    rw [hassemble, hparts, ne_eq, List.map_eq_nil_iff]
  constructor
  · rintro ⟨h, h'⟩
    exact ⟨fun hshape => (hmembers hshape).1 (h (henumeration.2 hshape)),
      fun hshape => (hproperties hshape).1 (h' (hcomposition.2 hshape))⟩
  · rintro ⟨h, h'⟩
    refine ⟨fun hkind => ?_, fun hkind => ?_⟩
    · exact (hmembers (henumeration.1 hkind)).2 (h (henumeration.1 hkind))
    · exact (hproperties (hcomposition.1 hkind)).2 (h' (hcomposition.1 hkind))

/-- References and primitive types are populated as they stand. -/
theorem populated_of_leaf {m : Model} (h : m.kind = .reference ∨ m.kind = .primitive) :
    m.Populated := by
  refine .intro ⟨fun hkind => ?_, fun hkind => ?_⟩ fun part hpart => ?_
  · rcases h with h | h <;> rw [h] at hkind <;> cases hkind
  · rcases h with h | h <;> rw [h] at hkind <;> simp [compositions] at hkind
  · unfold schemaParts at hpart
    rcases h with h | h <;> rw [h] at hpart <;> cases hpart

/-- The models of the parts are populated exactly if their schemas are, where that is so for each
schema among them. -/
theorem populated_ofPart_iff {ps : List Schema.Part}
    (h : ∀ part ∈ ps, ∀ t, part.schema? = some t → ∀ name place,
      ((embed scope name place t).1.Populated ↔ t.Populated)) :
    (∀ part ∈ ps.map (ofPart scope place), part.Populated) ↔ Schema.PartsPopulated ps := by
  rw [List.forall_mem_map]
  refine forall₂_congr fun part hpart => ?_
  cases part with
  | plain base => exact iff_of_true (populated_of_leaf (.inr rfl)) fun t ht => nomatch ht
  | inner segment name isRequired s =>
      have hrequired : (ofPart scope place (.inner segment name isRequired s)).Populated ↔
          (embed scope name (place ++ [segment]) s).1.Populated := populated_congr rfl rfl rfl rfl
      rw [hrequired, h _ hpart s rfl]
      constructor
      · intro hs t ht
        obtain rfl := Option.some.inj ht
        exact hs
      · intro hall
        exact hall s rfl

theorem populated_assemble_iff {name : String} {s : Schema} {c : Content} {ps : List Schema.Part}
    (hbuilt : c.BuiltFrom scope place ps) (hfits : c.Fits s.outline.shape)
    (h : ∀ part ∈ ps, ∀ t, part.schema? = some t → ∀ name place,
      ((embed scope name place t).1.Populated ↔ t.Populated)) :
    (assemble name s c).Populated ↔ s.HasContent ps ∧ Schema.PartsPopulated ps := by
  rw [populated_iff, hasContent_assemble_iff hbuilt hfits, schemaParts_assemble hfits,
    hbuilt.parts_eq, populated_ofPart_iff h]

/-! ## What is built -/

/-- The model of an inline schema is populated exactly if the schema is. -/
theorem populated_embed_iff {name : String} {s : Schema} :
    (embed scope name place s).1.Populated ↔ s.Populated := by
  induction s using Schema.induction_parts generalizing name place with
  | step s ih =>
      by_cases hs : s.outline.shape = .object
      · -- An object is lifted, and a reference stands in its place.
        rw [embed_of_object _ _ _ hs]
        exact iff_of_true (populated_of_leaf (.inl rfl)) (.object hs)
      · have hbuilt := builtFrom_parts_of_not_object scope place hs
        rw [embed_of_not_object _ _ _ hs, Schema.populated_iff_of_not_object hs]
        exact populated_assemble_iff hbuilt (fits_content _ _ _) fun part hpart t ht name place =>
          ih part hpart t ht

/-- The definition of a named schema is populated exactly if the schema is, with its parts. -/
theorem populated_definition_iff {name : String} {s : Schema} {origin : Origin} :
    (definition scope name s origin).1.Populated ↔
      s.HasContent (Schema.partsOf s.outline.shape (s.unwrap 1)) ∧
        Schema.PartsPopulated (Schema.partsOf s.outline.shape (s.unwrap 1)) := by
  have hassemble : (definition scope name s origin).1.Populated ↔
      (assemble name s (content scope [name] 1 s.outline.shape s)).Populated :=
    populated_refreshImports.trans (populated_congr rfl rfl rfl rfl)
  rw [hassemble]
  exact populated_assemble_iff (builtFrom_content scope [name] 1 s.outline.shape s)
    (fits_content _ _ _) fun _ _ _ _ _ _ => populated_embed_iff

/-- The definition of an object is populated exactly if the parts of the object are. -/
theorem populated_liftedDefinition_iff {s : Schema} (h : s.outline.shape = .object) :
    (liftedDefinition scope place s).Populated ↔ Schema.PartsPopulated s.parts := by
  have hshape : s.unwrapped.outline.shape = .object := s.outline_unwrapped.1.trans h
  have hcontent : s.unwrapped.HasContent s.parts := by
    refine ⟨fun henumeration => ?_, fun hcomposition => ?_⟩
    · rw [hshape] at henumeration
      cases henumeration
    · rw [hshape] at hcomposition
      simp [Schema.compositions] at hcomposition
  have hbuilt := builtFrom_parts_of_object scope place h
  have hfits : (content scope place 2 .object s).Fits s.unwrapped.outline.shape := by
    rw [hshape]
    exact fits_content _ _ _
  have hassemble : (liftedDefinition scope place s).Populated ↔
      (assemble (provisionalName scope place) s.unwrapped
        (content scope place 2 .object s)).Populated :=
    populated_refreshImports.trans (populated_congr rfl rfl rfl rfl)
  rw [hassemble, populated_assemble_iff hbuilt hfits fun _ _ _ _ _ _ => populated_embed_iff]
  exact and_iff_right hcontent

end Model

end TypedClient
