import TypedClient.Model.Build
import TypedClient.Proofs.Model.Parts
import TypedClient.Proofs.Schema.Parts

/-!
# What is built from an inline schema

`embed` is the step that is taken for every inline schema: the model left at its place and
the definitions lifted out of it. `content_eq` opens the recursion once, in terms of this
step, and `content_eq_unwrap` takes the wrappers off. `builtFrom_content` says that the
parts of a model and the definitions lifted out of it come about by the same step for each
part of the schema, and `embed_snd` that an object adds one definition of its own behind
them.
-/

namespace TypedClient

namespace Model

/-- The model left at the place of an inline schema, with its imports not yet set, and the
definitions lifted out of the schema. -/
def embed (scope name : String) (place : List String) (s : Schema) : Model × List Model :=
  settle scope name place s
    (content scope place (unwrapsOf s.outline.shape) s.outline.shape s)

/-- The model of a part. -/
def ofPart (scope : String) (place : List String) : Schema.Part → Model
  | .inner segment name isRequired s =>
    { (embed scope name (place ++ [segment]) s).1 with isRequired := isRequired }
  | .plain base => primitive "" base

/-- The definitions lifted out of a part. -/
def liftedOfPart (scope : String) (place : List String) : Schema.Part → List Model
  | .inner segment name _ s => (embed scope name (place ++ [segment]) s).2
  | .plain _ => []

/-- The parts of the models that a content goes into. -/
def Content.parts (c : Content) : List Model := c.link.toList ++ c.properties

/-- A content is built from the given parts of a schema. -/
structure Content.BuiltFrom (scope : String) (place : List String) (ps : List Schema.Part)
    (c : Content) : Prop where
  parts_eq : c.parts = ps.map (ofPart scope place)
  lifted_eq : c.lifted = ps.flatMap (liftedOfPart scope place)

/-- The reference that is left at the place of an object. -/
def standIn (scope name : String) (place : List String) (s : Schema) : Model :=
  { reference name (provisionalName scope place) with
    isNullable := s.outline.nullable
    description := s.unwrapped.description
    isReadOnly := s.unwrapped.readOnly
    deprecated := s.unwrapped.deprecated }

/-- The definition that is lifted out of the place of an object. -/
def liftedDefinition (scope : String) (place : List String) (s : Schema) : Model :=
  asLifted place
    (assemble (provisionalName scope place) s.unwrapped (content scope place 2 .object s))

/-- An object leaves a reference, and its definition follows those of its parts. -/
theorem embed_of_object (scope name : String) (place : List String) {s : Schema}
    (h : s.outline.shape = .object) :
    embed scope name place s =
      (standIn scope name place s,
        (content scope place 2 .object s).lifted ++ [liftedDefinition scope place s]) := by
  simp [embed, settle, h, unwrapsOf, standIn, liftedDefinition]

/-- Every other schema leaves its model. -/
theorem embed_of_not_object (scope name : String) (place : List String) {s : Schema}
    (h : s.outline.shape ≠ .object) :
    embed scope name place s =
      (assemble name s (content scope place 1 s.outline.shape s),
        (content scope place 1 s.outline.shape s).lifted) := by
  simp [embed, settle, h, unwrapsOf]

/-! ## Wrappers -/

/-- The content of the given shape, with no wrappers taken off. -/
def contentOfShape (scope : String) (place : List String) (shape : Shape) (s : Schema) : Content :=
  match shape with
  | .array =>
    match s.items with
    | some item =>
      let (m, lifted) := embed scope "" (place ++ ["Item"]) item
      { link := some m, lifted := lifted }
    | none => { link := some (primitive "" "any") }
  | .dictionary =>
    match s.additional with
    | some (.schema value) =>
      let (m, lifted) := embed scope "" (place ++ ["Value"]) value
      { link := some m, lifted := lifted }
    | _ => { link := some (primitive "" "any") }
  | .oneOf => contentOfComposition scope place .oneOf s.typeNames s.format s.oneOf
  | .anyOf => contentOfComposition scope place .anyOf s.typeNames s.format s.anyOf
  | .allOf =>
    let members := contentOfComposition scope place .allOf s.typeNames s.format s.allOf
    if s.properties.isEmpty then members
    else
      let spot := place ++ [Schema.memberSegment .allOf (Schema.memberCount s.allOf + 1)]
      let own := contentOfProperties scope spot s.required s.properties
      let (m, lifted) := ownPart scope spot own.1 own.2
      { properties := members.properties ++ [m], lifted := members.lifted ++ lifted }
  | .object =>
    let own := contentOfProperties scope place s.required s.properties
    { properties := own.1, lifted := own.2 }
  | _ => {}

/-- The content of a schema is that of its sole member beside `null`, or of its own shape. -/
theorem content_eq (scope : String) (place : List String) (n : Nat) (shape : Shape) (s : Schema) :
    content scope place n shape s =
      if n > 0 && (Schema.soleMember? s.anyOf).isSome then
        contentOfMembers scope place (n - 1) shape s.anyOf
      else if n > 0 && (Schema.soleMember? s.oneOf).isSome then
        contentOfMembers scope place (n - 1) shape s.oneOf
      else contentOfShape scope place shape s := by
  cases s
  rename_i items _ _ _ additional
  rw [content.eq_def]
  cases shape <;> cases items <;> rcases additional with _ | _ | _ <;> rfl

theorem contentOfFirst_eq (scope : String) (place : List String) (n : Nat) (shape : Shape)
    {ms rest : List Schema} {inner : Schema} (h : ms.filter (!·.isNullType) = inner :: rest) :
    contentOfFirst scope place n shape ms = content scope place n shape inner := by
  induction ms with
  | nil => cases h
  | cons s ms ih =>
      by_cases hnull : s.isNullType = true
      · simp only [hnull, Bool.not_true, Bool.false_eq_true, not_false_eq_true,
          List.filter_cons_of_neg] at h
        rw [contentOfFirst, if_pos hnull, ih h]
      · simp only [hnull, Bool.not_false, List.filter_cons_of_pos, List.cons.injEq] at h
        rw [contentOfFirst, if_neg hnull, h.1]

theorem contentOfMembers_of_soleMember (scope : String) (place : List String) (n : Nat)
    (shape : Shape) {members : Option (List Schema)} {inner : Schema}
    (h : Schema.soleMember? members = some inner) :
    contentOfMembers scope place n shape members = content scope place n shape inner := by
  obtain ⟨ms, rfl, hfilter⟩ := Schema.soleMember?_eq_some h
  exact contentOfFirst_eq scope place n shape hfilter

theorem content_succ_of_wrapped (scope : String) (place : List String) (n : Nat) (shape : Shape)
    {s inner : Schema} (h : s.wrapped? = some inner) :
    content scope place (n + 1) shape s = content scope place n shape inner := by
  rw [content_eq]
  cases hany : Schema.soleMember? s.anyOf with
  | some member =>
      obtain rfl : member = inner := by simpa [Schema.wrapped?, hany] using h
      simp [contentOfMembers_of_soleMember scope place n shape hany]
  | none =>
      have hone : Schema.soleMember? s.oneOf = some inner := by
        simpa [Schema.wrapped?, hany] using h
      simp [hone, contentOfMembers_of_soleMember scope place n shape hone]

theorem content_of_not_wrapped (scope : String) (place : List String) (n : Nat) (shape : Shape)
    {s : Schema} (h : s.wrapped? = none) :
    content scope place n shape s = contentOfShape scope place shape s := by
  obtain ⟨hany, hone⟩ : Schema.soleMember? s.anyOf = none ∧ Schema.soleMember? s.oneOf = none := by
    simpa [Schema.wrapped?] using h
  rw [content_eq, hany, hone]
  simp

/-- The content is that of the schema which is left when the wrappers are taken off. -/
theorem content_eq_unwrap (scope : String) (place : List String) (n : Nat) (shape : Shape)
    (s : Schema) :
    content scope place n shape s = contentOfShape scope place shape (s.unwrap n) := by
  induction n generalizing s with
  | zero =>
      rw [content_eq]
      simp
  | succ n ih =>
      cases h : s.wrapped? with
      | none => rw [content_of_not_wrapped _ _ _ _ h, Schema.unwrap_of_not_wrapped _ h]
      | some inner =>
          rw [content_succ_of_wrapped _ _ _ _ h, ih, Schema.unwrap_succ_of_wrapped n h]

/-! ## Parts -/

/-- The model that is left is not required until its property says so. -/
theorem isRequired_embed (scope name : String) (place : List String) (s : Schema) :
    (embed scope name place s).1.isRequired = false := by
  by_cases h : s.outline.shape = .object
  · rw [embed_of_object _ _ _ h]
    rfl
  · rw [embed_of_not_object _ _ _ h]
    rfl

/-- The model of a part that is not required is the model that is left. -/
theorem ofPart_inner_false (scope segment name : String) (place : List String) (s : Schema) :
    ofPart scope place (.inner segment name false s) =
      (embed scope name (place ++ [segment]) s).1 := by
  have hrequired := isRequired_embed scope name (place ++ [segment]) s
  simp only [ofPart]
  cases hm : (embed scope name (place ++ [segment]) s).1
  simp_all

/-- Properties are built one by one. -/
theorem contentOfProperties_eq (scope : String) (place required : List String)
    (properties : List (String × Schema)) :
    contentOfProperties scope place required properties =
      (properties.map fun (name, p) =>
        ofPart scope place (.inner name name (required.contains name) p),
       properties.flatMap fun (name, p) =>
        liftedOfPart scope place (.inner name name (required.contains name) p)) := by
  induction properties with
  | nil => rfl
  | cons property rest ih =>
      simp [contentOfProperties, ih, ofPart, liftedOfPart, embed]

/-- The members of a composition are built one by one. -/
theorem contentOfList_eq (scope : String) (place : List String) (shape : Shape) (number : Nat)
    (members : List Schema) :
    contentOfList scope place shape number members =
      ((Schema.numberedParts shape number members).map (ofPart scope place),
       (Schema.numberedParts shape number members).flatMap (liftedOfPart scope place)) := by
  induction members generalizing number with
  | nil => rfl
  | cons s rest ih =>
      by_cases hnull : s.isNullType = true
      · rw [contentOfList, if_pos hnull, ih]
        simp [Schema.numberedParts, hnull]
      · rw [contentOfList, if_neg hnull, ih]
        have hparts : Schema.numberedParts shape number (s :: rest) =
            .inner (Schema.memberSegment shape number) "" false s ::
              Schema.numberedParts shape (number + 1) rest := by
          simp [Schema.numberedParts, hnull, List.mapIdx_cons, Nat.add_assoc, Nat.add_comm 1]
        rw [hparts, List.map_cons, List.flatMap_cons, ofPart_inner_false]
        rfl

/-- The members of a composition, or the primitive types in their place. -/
theorem builtFrom_contentOfComposition (scope : String) (place : List String) (shape : Shape)
    (s : Schema) (members : Option (List Schema)) :
    (contentOfComposition scope place shape s.typeNames s.format members).BuiltFrom scope place
      (Schema.compositionParts shape s members) := by
  cases members with
  | none =>
      constructor
      · simp [contentOfComposition, Schema.compositionParts, Content.parts, ofPart]
      · simp [contentOfComposition, Schema.compositionParts, liftedOfPart]
  | some ms =>
      constructor <;>
        simp [contentOfComposition, Schema.compositionParts, Content.parts, contentOfList_eq]

/-- The properties of an object are built one by one. -/
theorem builtFrom_contentOfShape_object (scope : String) (place : List String) (s : Schema) :
    (contentOfShape scope place .object s).BuiltFrom scope place s.propertyParts := by
  rw [contentOfShape, contentOfProperties_eq]
  constructor
  · simp [Content.parts, Schema.propertyParts]
  · simp [Schema.propertyParts, List.flatMap_map]

/-- Properties alone make an object. -/
theorem outline_ownSchema {s : Schema} (h : s.properties.isEmpty = false) :
    s.ownSchema.outline = { shape := .object, base := "any" } := by
  rw [Schema.outline_of_not_wrapped rfl]
  simp [Schema.ownOutline, Schema.plainOutline, Schema.hasProperties, Schema.ownSchema,
    Schema.hasMembers, Schema.typeNames, Schema.isNullable, Schema.hasNullMember,
    Schema.allowsNullType, h]

/-- The properties beside the members of an `allOf` are built like an inline object that has no
other keywords. -/
theorem ownPart_eq_embed (scope : String) (place : List String) {s : Schema}
    (h : s.properties.isEmpty = false) :
    ownPart scope place (contentOfProperties scope place s.required s.properties).1
        (contentOfProperties scope place s.required s.properties).2 =
      embed scope "" place s.ownSchema := by
  have houtline := outline_ownSchema h
  rw [embed_of_object _ _ _ (by rw [houtline])]
  -- No keyword of the schema can make it a wrapper.
  have hcontent : content scope place 2 .object s.ownSchema =
      contentOfShape scope place .object s.ownSchema := content_of_not_wrapped _ _ _ _ rfl
  have hunwrapped : s.ownSchema.unwrapped = s.ownSchema := rfl
  simp only [ownPart, standIn, liftedDefinition, hcontent, contentOfShape, assemble,
    hunwrapped, houtline]
  rfl

/-- The model of a sole element, and the definitions lifted out of it. -/
theorem builtFrom_link (scope segment : String) (place : List String) (s : Schema) :
    Content.BuiltFrom scope place [.inner segment "" false s]
      { link := some (embed scope "" (place ++ [segment]) s).1
        lifted := (embed scope "" (place ++ [segment]) s).2 } := by
  constructor
  · simp [Content.parts, ofPart_inner_false]
  · simp [liftedOfPart]

theorem builtFrom_contentOfShape_array (scope : String) (place : List String) (s : Schema) :
    (contentOfShape scope place .array s).BuiltFrom scope place (Schema.partsOf .array s) := by
  rw [contentOfShape]
  cases hitems : s.items with
  | none => constructor <;> simp [Content.parts, Schema.partsOf, hitems, ofPart, liftedOfPart]
  | some item => simpa [Schema.partsOf, hitems] using builtFrom_link scope "Item" place item

theorem builtFrom_contentOfShape_dictionary (scope : String) (place : List String) (s : Schema) :
    (contentOfShape scope place .dictionary s).BuiltFrom scope place
      (Schema.partsOf .dictionary s) := by
  rw [contentOfShape]
  rcases hadditional : s.additional with _ | _ | value
  · constructor <;> simp [Content.parts, Schema.partsOf, hadditional, ofPart, liftedOfPart]
  · constructor <;> simp [Content.parts, Schema.partsOf, hadditional, ofPart, liftedOfPart]
  · simpa [Schema.partsOf, hadditional] using builtFrom_link scope "Value" place value

theorem builtFrom_contentOfShape_allOf (scope : String) (place : List String) (s : Schema) :
    (contentOfShape scope place .allOf s).BuiltFrom scope place (Schema.partsOf .allOf s) := by
  have hmembers := builtFrom_contentOfComposition scope place .allOf s s.allOf
  have hlink : (contentOfComposition scope place .allOf s.typeNames s.format s.allOf).link =
      none := by
    cases s.allOf <;> rfl
  rw [contentOfShape]
  cases hproperties : s.properties.isEmpty with
  | true => simpa [Schema.partsOf, Schema.ownParts, hproperties] using hmembers
  | false =>
      -- The properties beside the members are one more part, built like the schema that declares
      -- nothing but them.
      have hpartsOf : Schema.partsOf .allOf s = Schema.compositionParts .allOf s s.allOf ++
          [.inner (Schema.memberSegment .allOf (Schema.memberCount s.allOf + 1)) "" false
            s.ownSchema] := by
        simp [Schema.partsOf, Schema.ownParts, hproperties]
      have hparts := hmembers.parts_eq
      rw [Content.parts, hlink, Option.toList_none, List.nil_append] at hparts
      simp only [Bool.false_eq_true, if_false, ownPart_eq_embed scope _ hproperties, hpartsOf]
      constructor
      · simp [Content.parts, hparts, ofPart_inner_false]
      · simp [hmembers.lifted_eq, liftedOfPart]

/-- Whatever the shape, the content of a schema is built from the parts of the schema that is left
when the wrappers are taken off. -/
theorem builtFrom_content (scope : String) (place : List String) (n : Nat) (shape : Shape)
    (s : Schema) :
    (content scope place n shape s).BuiltFrom scope place
      (Schema.partsOf shape (s.unwrap n)) := by
  rw [content_eq_unwrap]
  cases shape with
  | array => exact builtFrom_contentOfShape_array scope place _
  | dictionary => exact builtFrom_contentOfShape_dictionary scope place _
  | oneOf => exact builtFrom_contentOfComposition scope place .oneOf _ _
  | anyOf => exact builtFrom_contentOfComposition scope place .anyOf _ _
  | allOf => exact builtFrom_contentOfShape_allOf scope place _
  | object => exact builtFrom_contentOfShape_object scope place _
  | reference | primitive | enumeration => constructor <;> rfl

/-- The content of an object that stands inside of a schema is built from the parts of the object. -/
theorem builtFrom_parts_of_object (scope : String) (place : List String) {s : Schema}
    (h : s.outline.shape = .object) :
    (content scope place 2 .object s).BuiltFrom scope place s.parts := by
  have hparts : s.parts = Schema.partsOf .object (s.unwrap 2) := by
    simp [Schema.parts, unwrapsOf, h]
  rw [hparts]
  exact builtFrom_content scope place 2 .object s

/-- So is that of any other inline schema. -/
theorem builtFrom_parts_of_not_object (scope : String) (place : List String) {s : Schema}
    (h : s.outline.shape ≠ .object) :
    (content scope place 1 s.outline.shape s).BuiltFrom scope place s.parts := by
  have hparts : s.parts = Schema.partsOf s.outline.shape (s.unwrap 1) := by
    simp [Schema.parts, unwrapsOf, h]
  rw [hparts]
  exact builtFrom_content scope place 1 s.outline.shape s

/-- What holds of the models of all schemas among the parts, and of the definitions that are lifted
out of them, holds of a content. -/
theorem Content.BuiltFrom.forall {P Q : Model → Prop} {scope : String} {place : List String}
    {ps : List Schema.Part} {c : Content} (hbuilt : c.BuiltFrom scope place ps)
    (hplain : ∀ base, P (primitive "" base))
    (hrequired : ∀ m isRequired, P m → P { m with isRequired := isRequired })
    (h : ∀ part ∈ ps, ∀ t, part.schema? = some t → ∀ name place,
      P (embed scope name place t).1 ∧ ∀ m ∈ (embed scope name place t).2, Q m) :
    (∀ part ∈ c.parts, P part) ∧ ∀ m ∈ c.lifted, Q m := by
  rw [hbuilt.parts_eq, hbuilt.lifted_eq]
  constructor
  · refine List.forall_mem_map.2 fun part hpart => ?_
    cases part with
    | inner segment name isRequired t => exact hrequired _ _ (h _ hpart t rfl name _).1
    | plain base => exact hplain base
  · intro m hm
    obtain ⟨part, hpart, hm⟩ := List.mem_flatMap.1 hm
    cases part with
    | inner segment name isRequired t => exact (h _ hpart t rfl name _).2 m hm
    | plain base => cases hm

/-- A model has the parts of its content. -/
theorem parts_assemble (name : String) (s : Schema) (c : Content) :
    (assemble name s c).parts = c.parts := rfl

/-- The definition of an object itself, where it is one. -/
def ownLifted (scope : String) (place : List String) (s : Schema) : List Model :=
  if s.outline.shape = .object then [liftedDefinition scope place s] else []

/-- What is lifted out of an inline schema: the definitions of its parts, and then its own. -/
theorem embed_snd (scope name : String) (place : List String) (s : Schema) :
    (embed scope name place s).2 =
      s.parts.flatMap (liftedOfPart scope place) ++ ownLifted scope place s := by
  by_cases h : s.outline.shape = .object
  · rw [embed_of_object _ _ _ h, (builtFrom_parts_of_object scope place h).lifted_eq, ownLifted,
      if_pos h]
  · rw [embed_of_not_object _ _ _ h, (builtFrom_parts_of_not_object scope place h).lifted_eq,
      ownLifted, if_neg h, List.append_nil]

/-- The name of the model makes no difference to what is lifted out. -/
theorem embed_snd_eq (scope name other : String) (place : List String) (s : Schema) :
    (embed scope name place s).2 = (embed scope other place s).2 := by
  rw [embed_snd, embed_snd]

/-- The parts of the definition that is lifted out of an object are built from its parts. -/
theorem parts_liftedDefinition (scope : String) (place : List String) {s : Schema}
    (h : s.outline.shape = .object) :
    (liftedDefinition scope place s).parts =
      (s.parts.map (ofPart scope place)).map refreshImports := by
  rw [← (builtFrom_parts_of_object scope place h).parts_eq]
  exact parts_refreshImports _

/-- The parts of the model of any other schema are built from its parts. -/
theorem parts_embed_of_not_object (scope name : String) (place : List String) {s : Schema}
    (h : s.outline.shape ≠ .object) :
    (embed scope name place s).1.parts = s.parts.map (ofPart scope place) := by
  rw [embed_of_not_object _ _ _ h, parts_assemble,
    (builtFrom_parts_of_not_object scope place h).parts_eq]

/-- The parts of a definition are built from those of the schema. -/
theorem parts_definition (scope name : String) (s : Schema) (origin : Origin) :
    (definition scope name s origin).1.parts =
      ((Schema.partsOf s.outline.shape (s.unwrap 1)).map (ofPart scope [name])).map
        refreshImports := by
  rw [← (builtFrom_content scope [name] 1 s.outline.shape s).parts_eq]
  exact parts_refreshImports _

/-- What is lifted out of a named schema: the definitions of its parts. -/
theorem definition_snd (scope name : String) (s : Schema) (origin : Origin) :
    (definition scope name s origin).2 =
      (Schema.partsOf s.outline.shape (s.unwrap 1)).flatMap (liftedOfPart scope [name]) :=
  (builtFrom_content scope [name] 1 s.outline.shape s).lifted_eq

end Model

end TypedClient
