import Mathlib.Data.List.Basic
import TypedClient.Model.Build
import TypedClient.Proofs.Schema.Unwrap

/-!
# The parts of a schema

`s.parts` lists what the parts of the model of an inline schema are built from, in the order
of the model's own parts: schemas that stand inside `s`, each with the segment which it adds
to the place, and primitive types for which there is no schema. They are children of what
the wrappers of `s` wrap (`child_of_mem_partsOf`), but for the properties beside an `allOf`.
`induction_parts` proves a property of every schema from the same property of the schemas
among its parts.
-/

namespace TypedClient

namespace Schema

/-- What one part of a model is built from. -/
inductive Part where
  /-- A schema, the segment that it adds to the place, and the name and the necessity of its
  model. -/
  | inner (segment name : String) (isRequired : Bool) (schema : Schema)
  /-- A primitive type. -/
  | plain (base : String)

/-- The schema of a part. -/
def Part.schema? : Part → Option Schema
  | .inner _ _ _ s => some s
  | .plain _ => none

/-- The number of members of a composition beside the schema of `null`. -/
def memberCount (members : Option (List Schema)) : Nat :=
  (members.map (·.countP (!·.isNullType))).getD 0

/-- The segment of the member of a composition with the given number. -/
def memberSegment (shape : Shape) (number : Nat) : String :=
  Model.memberLabel shape ++ Decimal.natText number

/-- The members of a composition, numbered from `start` on. -/
def numberedParts (shape : Shape) (start : Nat) (members : List Schema) : List Part :=
  (members.filter (!·.isNullType)).mapIdx fun index s =>
    .inner (memberSegment shape (start + index)) "" false s

/-- The members of a composition; without any, one primitive type for each type name. -/
def compositionParts (shape : Shape) (s : Schema) : Option (List Schema) → List Part
  | none => s.typeNames.map fun name => .plain (primitiveBase name s.format)
  | some members => numberedParts shape 1 members

/-- The schema of the properties that are declared beside the members of an `allOf`. -/
def ownSchema (s : Schema) : Schema := { properties := s.properties, required := s.required }

/-- The properties of a schema. -/
def propertyParts (s : Schema) : List Part :=
  s.properties.map fun (name, p) => .inner name name (s.required.contains name) p

/-- The part for the properties beside the members of an `allOf`. -/
def ownParts (s : Schema) : List Part :=
  if s.properties.isEmpty then []
  else [.inner (memberSegment .allOf (memberCount s.allOf + 1)) "" false s.ownSchema]

/-- What the parts of a model of the given shape are built from. -/
def partsOf (shape : Shape) (s : Schema) : List Part :=
  match shape with
  | .array => [(s.items.map (.inner "Item" "" false)).getD (.plain "any")]
  | .dictionary =>
    match s.additional with
    | some (.schema value) => [.inner "Value" "" false value]
    | _ => [.plain "any"]
  | .oneOf => compositionParts .oneOf s s.oneOf
  | .anyOf => compositionParts .anyOf s s.anyOf
  | .allOf => compositionParts .allOf s s.allOf ++ s.ownParts
  | .object => s.propertyParts
  | _ => []

/-- What the parts of the model of an inline schema are built from. -/
def parts (s : Schema) : List Part :=
  partsOf s.outline.shape (s.unwrap (Model.unwrapsOf s.outline.shape))

/-! ## Children -/

/-- `s.Child t` says that a keyword of `s` holds `t`. -/
inductive Child (s : Schema) : Schema → Prop
  | property (name p) : (name, p) ∈ s.properties → Child s p
  | items (item) : s.items = some item → Child s item
  | anyOf (ms m) : s.anyOf = some ms → m ∈ ms → Child s m
  | oneOf (ms m) : s.oneOf = some ms → m ∈ ms → Child s m
  | allOf (ms m) : s.allOf = some ms → m ∈ ms → Child s m
  | additional (value) : s.additional = some (.schema value) → Child s value

/-- What a wrapper wraps is a child. -/
theorem child_of_wrapped {s inner : Schema} (h : s.wrapped? = some inner) : s.Child inner := by
  have hmem : ∀ {members}, soleMember? members = some inner →
      ∃ ms, members = some ms ∧ inner ∈ ms := by
    intro members hsole
    obtain ⟨ms, hms, hfilter⟩ := soleMember?_eq_some hsole
    exact ⟨ms, hms, List.mem_of_mem_filter (hfilter ▸ List.mem_cons_self)⟩
  cases hany : soleMember? s.anyOf with
  | some member =>
      obtain rfl : member = inner := by simpa [wrapped?, hany] using h
      obtain ⟨ms, hms, hin⟩ := hmem hany
      exact .anyOf ms member hms hin
  | none =>
      obtain ⟨ms, hms, hin⟩ := hmem (by simpa [wrapped?, hany] using h)
      exact .oneOf ms inner hms hin

/-- The schema of a member of a composition is one of the members. -/
theorem mem_of_mem_compositionParts {shape : Shape} {s t : Schema} {part : Part}
    {members : Option (List Schema)} (h : part ∈ compositionParts shape s members)
    (ht : part.schema? = some t) : ∃ ms, members = some ms ∧ t ∈ ms := by
  cases members with
  | none =>
      obtain ⟨name, _, rfl⟩ := List.mem_map.1 h
      cases ht
  | some ms =>
      obtain ⟨index, hindex, rfl⟩ := List.mem_mapIdx.1 h
      obtain rfl := Option.some.inj ht
      exact ⟨ms, rfl, List.mem_of_mem_filter (List.getElem_mem hindex)⟩

/-- The schemas among the parts are children. The own properties of an `allOf` are set apart. -/
theorem child_of_mem_partsOf {shape : Shape} {s t : Schema} {part : Part}
    (h : part ∈ partsOf shape s) (ht : part.schema? = some t) :
    s.Child t ∨ shape = .allOf ∧ t = s.ownSchema := by
  unfold partsOf at h
  split at h
  · cases hitems : s.items with
    | none =>
        obtain rfl : part = .plain "any" := by simpa [hitems] using h
        cases ht
    | some item =>
        obtain rfl : part = .inner "Item" "" false item := by simpa [hitems] using h
        obtain rfl := Option.some.inj ht
        exact .inl (.items item hitems)
  · split at h
    · rename_i value hvalue
      obtain rfl := List.mem_singleton.1 h
      obtain rfl := Option.some.inj ht
      exact .inl (.additional value hvalue)
    · obtain rfl := List.mem_singleton.1 h
      cases ht
  · obtain ⟨ms, hms, hmem⟩ := mem_of_mem_compositionParts h ht
    exact .inl (.oneOf ms t hms hmem)
  · obtain ⟨ms, hms, hmem⟩ := mem_of_mem_compositionParts h ht
    exact .inl (.anyOf ms t hms hmem)
  · rcases List.mem_append.1 h with h | h
    · obtain ⟨ms, hms, hmem⟩ := mem_of_mem_compositionParts h ht
      exact .inl (.allOf ms t hms hmem)
    · unfold ownParts at h
      split at h
      · cases h
      · obtain rfl := List.mem_singleton.1 h
        exact .inr ⟨rfl, (Option.some.inj ht).symm⟩
  · obtain ⟨⟨name, p⟩, hp, rfl⟩ := List.mem_map.1 h
    obtain rfl := Option.some.inj ht
    exact .inl (.property name p hp)
  · cases h

/-! ## Induction over the parts -/

/-- The size of what a schema holds. The keywords that hold no schemas do not count, so that the
properties of a schema alone are no bigger than the schema. -/
noncomputable def weight (s : Schema) : Nat :=
  sizeOf s.properties + sizeOf s.items + sizeOf s.anyOf + sizeOf s.oneOf + sizeOf s.allOf +
    sizeOf s.additional

theorem weight_lt_sizeOf (s : Schema) : s.weight < sizeOf s := by
  cases s
  simp only [weight, mk.sizeOf_spec]
  omega

theorem sizeOf_lt_of_mem_members {members : Option (List Schema)} {ms : List Schema} {m : Schema}
    (h : members = some ms) (hm : m ∈ ms) : sizeOf m < sizeOf members := by
  have hsize := List.sizeOf_lt_of_mem hm
  rw [h, Option.some.sizeOf_spec]
  omega

/-- A child weighs less. -/
theorem weight_lt_of_child {s t : Schema} (h : s.Child t) : t.weight < s.weight := by
  have ht := t.weight_lt_sizeOf
  cases h with
  | property name _ hmem =>
      have hsize := List.sizeOf_lt_of_mem hmem
      simp only [Prod.mk.sizeOf_spec] at hsize
      unfold weight at *
      omega
  | items _ hitems =>
      have hsize : sizeOf s.items = 1 + sizeOf t := by rw [hitems, Option.some.sizeOf_spec]
      unfold weight at *
      omega
  | anyOf ms _ hms hmem | oneOf ms _ hms hmem | allOf ms _ hms hmem =>
      have hsize := sizeOf_lt_of_mem_members hms hmem
      unfold weight at *
      omega
  | additional _ hvalue =>
      have hsize : sizeOf s.additional = 1 + (1 + sizeOf t) := by
        rw [hvalue, Option.some.sizeOf_spec, Extra.schema.sizeOf_spec]
      unfold weight at *
      omega

/-- What a wrapper wraps weighs less. -/
theorem weight_lt_of_wrapped {s inner : Schema} (h : s.wrapped? = some inner) :
    inner.weight < s.weight :=
  weight_lt_of_child (child_of_wrapped h)

theorem weight_unwrap_le (n : Nat) (s : Schema) : (s.unwrap n).weight ≤ s.weight := by
  induction n generalizing s with
  | zero => exact Nat.le_refl _
  | succ n ih =>
      cases h : s.wrapped? with
      | none => exact Nat.le_of_eq (congrArg weight (unwrap_of_not_wrapped _ h))
      | some inner =>
          rw [unwrap_succ_of_wrapped n h]
          exact Nat.le_of_lt (Nat.lt_of_le_of_lt (ih inner) (weight_lt_of_wrapped h))

/-- The properties alone weigh no more than the schema. -/
theorem weight_ownSchema_le (s : Schema) : s.ownSchema.weight ≤ s.weight := by
  have hone : ∀ {α : Type} [SizeOf α] (o : Option α), 1 ≤ sizeOf o := by
    intro α _ o
    cases o <;> simp
  have hitems := hone s.items
  have hany := hone s.anyOf
  have honeOf := hone s.oneOf
  have hall := hone s.allOf
  have hadditional := hone s.additional
  simp only [weight, ownSchema, Option.none.sizeOf_spec]
  omega

theorem weight_ownSchema_lt {s : Schema} (h : hasMembers s.allOf = true) :
    s.ownSchema.weight < s.weight := by
  -- What makes the properties alone lighter is that the members are gone.
  have hle := weight_ownSchema_le { s with allOf := none }
  have hnone : ({ s with allOf := none } : Schema).weight < s.weight := by
    cases hall : s.allOf with
    | none => simp [hasMembers, hall] at h
    | some ms =>
        have hpos : 0 < sizeOf ms := by
          cases ms with
          | nil => simp
          | cons m ms =>
              rw [List.cons.sizeOf_spec]
              omega
        simp only [weight, hall, Option.none.sizeOf_spec, Option.some.sizeOf_spec]
        omega
  exact Nat.lt_of_le_of_lt hle hnone

/-- Only a schema with members of an `allOf` has its shape, wrappers apart. -/
theorem hasMembers_of_shape_allOf {s : Schema} (h : s.outline.shape = .allOf)
    (hs : s.wrapped? = none) : hasMembers s.allOf = true := by
  rw [outline_of_not_wrapped hs] at h
  by_contra hno
  simp only [ownOutline, plainOutline, arrayOutline, dictionaryOutline, withElement] at h
  split at h <;> grind

theorem weight_ownSchema_unwrap_lt {s : Schema} (h : s.outline.shape = .allOf) :
    (s.unwrap 1).ownSchema.weight < s.weight := by
  cases hs : s.wrapped? with
  | none =>
      rw [unwrap_of_not_wrapped 1 hs]
      exact weight_ownSchema_lt (hasMembers_of_shape_allOf h hs)
  | some inner =>
      rw [unwrap_succ_of_wrapped 0 hs, unwrap_zero]
      exact Nat.lt_of_le_of_lt (weight_ownSchema_le inner) (weight_lt_of_wrapped hs)

/-- The schemas among the parts of an inline schema weigh less than it. -/
theorem weight_lt_of_mem_parts {s t : Schema} {part : Part} (h : part ∈ s.parts)
    (ht : part.schema? = some t) : t.weight < s.weight := by
  rcases child_of_mem_partsOf h ht with hchild | ⟨hshape, rfl⟩
  · exact Nat.lt_of_lt_of_le (weight_lt_of_child hchild) (weight_unwrap_le _ s)
  · simpa [Model.unwrapsOf, hshape] using weight_ownSchema_unwrap_lt hshape

/-- A property of all schemas holds if it passes from the schemas among the parts to the whole. -/
theorem induction_parts {P : Schema → Prop}
    (step : ∀ s : Schema, (∀ part ∈ s.parts, ∀ t, part.schema? = some t → P t) → P s)
    (s : Schema) : P s := by
  induction hn : s.weight using Nat.strongRecOn generalizing s with
  | ind n ih =>
      apply step
      intro part hpart t ht
      exact ih t.weight (hn ▸ weight_lt_of_mem_parts hpart ht) t rfl

end Schema

end TypedClient
