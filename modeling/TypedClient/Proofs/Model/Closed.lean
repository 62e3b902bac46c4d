import TypedClient.Proofs.Model.Embed
import TypedClient.Proofs.Schema.References

/-!
# Everything that is mentioned is defined

A model and the definitions lifted out of its schema are closed if all names that they
mention are known or those of the lifted definitions. `closed_embed` says that this is what
every inline schema leads to, and `closed_definition` the same of a named one. The names of
the lifted definitions are all provisional.
-/

namespace TypedClient

namespace Model

variable {known : String → Prop}

/-- Every name that the model mentions is known or that of a definition. -/
def CoveredBy (known : String → Prop) (definitions : List Model) (m : Model) : Prop :=
  ∀ name ∈ m.references, known name ∨ name ∈ definitions.map (·.name)

theorem CoveredBy.mono {definitions more : List Model} {m : Model}
    (h : CoveredBy known definitions m) (hsub : definitions ⊆ more) :
    CoveredBy known more m := by
  intro name hname
  exact (h name hname).imp_right fun hmem => List.map_subset _ hsub hmem

/-- A model with the same references is covered as well. -/
theorem CoveredBy.congr {definitions : List Model} {m n : Model}
    (h : CoveredBy known definitions m) (heq : n.references = m.references) :
    CoveredBy known definitions n := by
  intro name hname
  exact h name (heq ▸ hname)

theorem CoveredBy.of_alike {definitions : List Model} {m n : Model}
    (h : CoveredBy known definitions m) (halike : Alike n m) : CoveredBy known definitions n :=
  h.congr halike.references_eq

/-- The model and the definitions lifted beside it mention only known names and each other. -/
structure Closed (known : String → Prop) (built : Model × List Model) : Prop where
  model : CoveredBy known built.2 built.1
  lifted : ∀ m ∈ built.2, CoveredBy known built.2 m
  provisional : ∀ m ∈ built.2, IsProvisionalName m.name

/-- A model with the same references is closed as well. -/
theorem Closed.congr {built : Model × List Model} {m : Model} (h : Closed known built)
    (heq : m.references = built.1.references) : Closed known (m, built.2) :=
  ⟨h.model.congr heq, h.lifted, h.provisional⟩

/-- A model that mentions known names is closed by itself. -/
theorem closed_of_known {m : Model} (h : ∀ name ∈ m.references, known name) :
    Closed known (m, []) :=
  ⟨fun name hname => .inl (h name hname), fun _ hm => absurd hm List.not_mem_nil,
    fun _ hm => absurd hm List.not_mem_nil⟩

/-- The parts of a content and its definitions are closed. -/
structure Content.Closed (known : String → Prop) (c : Content) : Prop where
  parts : ∀ part ∈ c.parts, CoveredBy known c.lifted part
  lifted : ∀ m ∈ c.lifted, CoveredBy known c.lifted m
  provisional : ∀ m ∈ c.lifted, IsProvisionalName m.name

/-- A content is closed if each part is closed with the definitions lifted out of it. -/
theorem Content.BuiltFrom.closed {scope : String} {place : List String} {ps : List Schema.Part}
    {c : Content} (hbuilt : c.BuiltFrom scope place ps)
    (h : ∀ part ∈ ps, Model.Closed known (ofPart scope place part, liftedOfPart scope place part)) :
    c.Closed known := by
  have hsub : ∀ part ∈ ps, liftedOfPart scope place part ⊆ c.lifted := by
    intro part hpart m hm
    rw [hbuilt.lifted_eq]
    exact List.mem_flatMap.2 ⟨part, hpart, hm⟩
  constructor
  · intro m hm
    rw [hbuilt.parts_eq] at hm
    obtain ⟨part, hpart, rfl⟩ := List.mem_map.1 hm
    exact (h part hpart).model.mono (hsub part hpart)
  · intro m hm
    rw [hbuilt.lifted_eq] at hm
    obtain ⟨part, hpart, hm⟩ := List.mem_flatMap.1 hm
    exact ((h part hpart).lifted m hm).mono (hsub part hpart)
  · intro m hm
    rw [hbuilt.lifted_eq] at hm
    obtain ⟨part, hpart, hm⟩ := List.mem_flatMap.1 hm
    exact (h part hpart).provisional m hm

theorem kindOf_eq_reference_iff {shape : Shape} :
    kindOf shape = .reference ↔ shape = .reference := by
  cases shape <;> simp [kindOf]

/-- A model mentions its type if the schema is a reference, and what its parts mention. -/
theorem references_assemble (name : String) (s : Schema) (c : Content) :
    (assemble name s c).references =
      (if s.outline.shape = .reference then [s.outline.base] else []) ++
        c.parts.flatMap references := by
  rw [references_eq, parts_assemble]
  simp [assemble, kindOf_eq_reference_iff]

/-- The model of a schema is covered if its content is closed. -/
theorem coveredBy_assemble {s : Schema} {c : Content} (name : String)
    (h : ∀ ref, s.Mentions ref → known (Pointer.typeName ref)) (hc : c.Closed known) :
    CoveredBy known c.lifted (assemble name s c) := by
  intro other hother
  rw [references_assemble, List.mem_append] at hother
  rcases hother with hother | hother
  · split at hother
    · rename_i hshape
      obtain ⟨ref, hmentions, hbase⟩ := Schema.exists_mentions_of_reference hshape
      rw [List.mem_singleton.1 hother, hbase]
      exact .inl (h ref hmentions)
    · cases hother
  · obtain ⟨part, hpart, hother⟩ := List.mem_flatMap.1 hother
    exact hc.parts part hpart other hother

/-- The names of lifted definitions are not final. -/
theorem isProvisionalName_provisionalName (scope : String) (place : List String) :
    IsProvisionalName (provisionalName scope place) := by
  simp [IsProvisionalName, provisionalName, provisionalMark]

@[simp]
theorem name_liftedDefinition (scope : String) (place : List String) (s : Schema) :
    (liftedDefinition scope place s).name = provisionalName scope place := by
  simp [liftedDefinition, asLifted, assemble]

@[simp]
theorem references_reference (name target : String) :
    (reference name target).references = [target] := by
  simp [references_eq, reference, parts]

@[simp]
theorem references_standIn (scope name : String) (place : List String) (s : Schema) :
    (standIn scope name place s).references = [provisionalName scope place] := by
  have halike : Alike (standIn scope name place s)
      (reference name (provisionalName scope place)) := ⟨rfl, rfl, rfl⟩
  rw [halike.references_eq, references_reference]

@[simp]
theorem references_primitive (name base : String) :
    (primitive name base).references = [] := by
  simp [references_eq, primitive, parts]

/-- Lifting a model out changes none of its references. -/
theorem references_asLifted (place : List String) (m : Model) :
    (asLifted place m).references = m.references := by
  have halike : Alike
      { m with isDefinition := true, isNullable := false, origin := .inline place } m :=
    ⟨rfl, rfl, rfl⟩
  rw [asLifted, references_refreshImports, halike.references_eq]

/-- The definition of an object is covered if its content is closed. -/
theorem coveredBy_liftedDefinition {scope : String} {place : List String} {s : Schema}
    (h : ∀ ref, s.Mentions ref → known (Pointer.typeName ref))
    (hc : (content scope place 2 .object s).Closed known) :
    CoveredBy known (content scope place 2 .object s).lifted (liftedDefinition scope place s) := by
  have hinner : ∀ ref, s.unwrapped.Mentions ref → known (Pointer.typeName ref) := by
    intro ref href
    rw [← Schema.unwrap_one] at href
    exact h ref (Schema.mentions_of_unwrap href)
  exact (coveredBy_assemble _ hinner hc).congr (references_asLifted place _)

/-- An object is closed if its content is: the reference names the last definition. -/
theorem closed_embed_of_object {scope name : String} {place : List String} {s : Schema}
    (hs : s.outline.shape = .object)
    (h : ∀ ref, s.Mentions ref → known (Pointer.typeName ref))
    (hc : (content scope place 2 .object s).Closed known) :
    Closed known (embed scope name place s) := by
  have hsub := List.subset_append_left (content scope place 2 .object s).lifted
    [liftedDefinition scope place s]
  have hown := coveredBy_liftedDefinition h hc
  rw [embed_of_object _ _ _ hs]
  constructor
  · intro other hother
    have heq : other = provisionalName scope place := by
      simpa using hother
    exact .inr (by simp [heq])
  · intro m hm
    rcases List.mem_append.1 hm with hm | hm
    · exact (hc.lifted m hm).mono hsub
    · rw [List.mem_singleton.1 hm]
      exact hown.mono hsub
  · intro m hm
    rcases List.mem_append.1 hm with hm | hm
    · exact hc.provisional m hm
    · rw [List.mem_singleton.1 hm, name_liftedDefinition]
      exact isProvisionalName_provisionalName scope place

/-- A part is closed if its schema leads to a closed model. -/
theorem closed_ofPart {scope : String} {place : List String} {part : Schema.Part}
    (h : ∀ t, part.schema? = some t → ∀ name place, Closed known (embed scope name place t)) :
    Closed known (ofPart scope place part, liftedOfPart scope place part) := by
  cases part with
  | inner segment name isRequired t =>
      have halike : Alike (ofPart scope place (.inner segment name isRequired t))
          (embed scope name (place ++ [segment]) t).1 := ⟨rfl, rfl, rfl⟩
      exact (h t rfl name (place ++ [segment])).congr halike.references_eq
  | plain base => exact closed_of_known (by simp [ofPart])

/-- A content is closed if every inline schema among the parts leads to a closed model. -/
theorem closed_content_of_parts {scope : String} {place : List String} {n : Nat} {shape : Shape}
    {s : Schema} (h : ∀ ref, s.Mentions ref → known (Pointer.typeName ref))
    (hparts : ∀ part ∈ Schema.partsOf shape (s.unwrap n), ∀ t, part.schema? = some t →
      ∀ name place, (∀ ref, t.Mentions ref → known (Pointer.typeName ref)) →
        Closed known (embed scope name place t)) :
    (content scope place n shape s).Closed known := by
  apply (builtFrom_content scope place n shape s).closed
  intro part hpart
  apply closed_ofPart
  intro t ht name place
  apply hparts part hpart t ht name place
  intro ref href
  exact h ref (Schema.mentions_of_mem_partsOf hpart ht href)

/-- Every inline schema whose references are known leads to a closed model. -/
theorem closed_embed (scope name : String) (place : List String) {s : Schema}
    (h : ∀ ref, s.Mentions ref → known (Pointer.typeName ref)) :
    Closed known (embed scope name place s) := by
  induction s using Schema.induction_parts generalizing name place with
  | step s ih =>
      have hcontent : (content scope place (unwrapsOf s.outline.shape) s.outline.shape s).Closed
          known := closed_content_of_parts h ih
      -- The content of an object goes into a definition, any other one stays in place.
      by_cases hs : s.outline.shape = .object
      · rw [hs] at hcontent
        exact closed_embed_of_object hs h hcontent
      · rw [embed_of_not_object _ _ _ hs]
        simp only [unwrapsOf, hs, if_false] at hcontent
        exact ⟨coveredBy_assemble name h hcontent, hcontent.lifted, hcontent.provisional⟩

/-- The content of a schema whose references are known is closed. -/
theorem closed_content (scope : String) (place : List String) (n : Nat) (shape : Shape)
    {s : Schema} (h : ∀ ref, s.Mentions ref → known (Pointer.typeName ref)) :
    (content scope place n shape s).Closed known :=
  closed_content_of_parts h fun _ _ _ _ name place => closed_embed scope name place

/-- The model of an inline schema is closed with what is lifted out of it. -/
theorem closed_inline (scope name : String) (place : List String) {s : Schema}
    (h : ∀ ref, s.Mentions ref → known (Pointer.typeName ref)) :
    Closed known (inline scope name place s) :=
  (closed_embed scope name place h).congr (references_refreshImports _)

/-- The model of a named schema is closed with what is lifted out of it. -/
theorem closed_definition (scope name : String) (origin : Origin) {s : Schema}
    (h : ∀ ref, s.Mentions ref → known (Pointer.typeName ref)) :
    Closed known (definition scope name s origin) := by
  have hcontent := closed_content scope [name] 1 s.outline.shape h
  have halike : Alike
      { assemble name s (content scope [name] 1 s.outline.shape s) with
        isDefinition := true
        origin := origin }
      (assemble name s (content scope [name] 1 s.outline.shape s)) := ⟨rfl, rfl, rfl⟩
  have hcovered := (coveredBy_assemble name h hcontent).of_alike halike
  exact ⟨hcovered.congr (references_refreshImports _), hcontent.lifted, hcontent.provisional⟩

@[simp]
theorem name_definition (scope name : String) (s : Schema) (origin : Origin) :
    (definition scope name s origin).1.name = name := by
  rw [definition, name_refreshImports]
  rfl

end Model

end TypedClient
