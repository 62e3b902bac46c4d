import TypedClient.Proofs.Model.Orderly
import TypedClient.Proofs.Model.Wrapper

/-!
# Annotations beside a wrapper

A description, `deprecated` and `readOnly` can stand in a schema, and beside the wrapper that adds
`null` to it. A model takes them from the schema inside; a description and `deprecated` are looked
for beside the wrapper as well, but not where a reference is left at the place of an inline object
(`annotations_embed`). So what stands beside the wrapper alone survives unless an object is
wrapped, and `readOnly` does not survive at all: `annotations_kept_iff`.
-/

namespace TypedClient

/-- What a schema says about its values without restricting them. -/
structure Annotations where
  description : Option String := none
  deprecated : Bool := false
  readOnly : Bool := false
deriving DecidableEq, Repr

/-- A wrapper that carries annotations itself. -/
def Wrapper.annotated (w : Wrapper) (a : Annotations) (s : Schema) : Schema :=
  { w.around s with
    description := a.description
    deprecated := a.deprecated
    readOnly := a.readOnly }

namespace Wrapper

variable (w : Wrapper) (a : Annotations) {s : Schema}

theorem wrapped?_annotated (hs : s.isNullType = false) : (w.annotated a s).wrapped? = some s := by
  have hwrapped := w.wrapped?_around hs
  cases w <;> exact hwrapped

/-- Around the schema of `null` it is no wrapper. -/
theorem wrapped?_annotated_null (hs : s.isNullType = true) :
    (w.annotated a s).wrapped? = none := by
  have hnull : Schema.isNullType { type := some (.single "null") } = true := rfl
  cases w <;> simp [annotated, around, Schema.wrapped?, Schema.soleMember?, hs, hnull]

/-- Annotations change nothing about the shape, which is that of what is wrapped. -/
theorem shape_annotated (hs : s.isNullType = false) :
    (w.annotated a s).outline.shape = s.outline.shape := by
  rw [Schema.outline_of_wrapped (w.wrapped?_annotated a hs)]

theorem shape_annotated_null (hs : s.isNullType = true) :
    (w.annotated a s).outline.shape ≠ .object := by
  rw [Schema.outline_of_not_wrapped (w.wrapped?_annotated_null a hs)]
  cases w <;> simp [annotated, around, Schema.ownOutline, Schema.hasMembers]

end Wrapper

namespace Model

variable (scope name : String) (place : List String)

/-- The model of an inline schema has the annotations of what is wrapped, or of the schema itself if
that is no wrapper. A wrapper adds its description and `deprecated`, but not to a reference that is
left at the place of an object. -/
theorem annotations_embed (s : Schema) :
    (embed scope name place s).1.isReadOnly = s.unwrapped.readOnly ∧
      (embed scope name place s).1.description =
        (if s.outline.shape = .object then s.unwrapped.description
          else s.unwrapped.description.or s.description) ∧
      (embed scope name place s).1.deprecated =
        (if s.outline.shape = .object then s.unwrapped.deprecated
          else (s.unwrapped.deprecated || s.deprecated)) := by
  by_cases hobject : s.outline.shape = .object
  · rw [embed_of_object _ _ _ hobject, if_pos hobject, if_pos hobject]
    exact ⟨rfl, rfl, rfl⟩
  · rw [embed_of_not_object _ _ _ hobject, if_neg hobject, if_neg hobject]
    exact ⟨rfl, rfl, rfl⟩

/-- Whether the wrapper around a schema is looked at for a description and `deprecated`. -/
def ReadsWrapper (s : Schema) : Prop := s.isNullType = true ∨ s.outline.shape ≠ .object

variable (w : Wrapper) (a : Annotations) {s : Schema}

/-- An annotation that stands beside a wrapper alone is one of the model, or it is lost. -/
theorem annotations_embed_annotated :
    (∀ text, a.description = some text → s.description = none →
        ((embed scope name place (w.annotated a s)).1.description = some text ↔ ReadsWrapper s)) ∧
      (a.deprecated = true → s.deprecated = false →
        ((embed scope name place (w.annotated a s)).1.deprecated = true ↔ ReadsWrapper s)) ∧
      (a.readOnly = true → s.readOnly = false →
        ((embed scope name place (w.annotated a s)).1.isReadOnly = true ↔ s.isNullType = true)) := by
  obtain ⟨hreadOnly, hdescription, hdeprecated⟩ :=
    annotations_embed scope name place (w.annotated a s)
  have hdescription' : (w.annotated a s).description = a.description := rfl
  have hdeprecated' : (w.annotated a s).deprecated = a.deprecated := rfl
  have hreadOnly' : (w.annotated a s).readOnly = a.readOnly := rfl
  rw [hreadOnly, hdescription, hdeprecated]
  cases hs : s.isNullType with
  | true =>
      have hself : (w.annotated a s).unwrapped = w.annotated a s := by
        rw [Schema.unwrapped, w.wrapped?_annotated_null a hs, Option.getD_none]
      have hshape := w.shape_annotated_null a hs
      simp_all [ReadsWrapper]
  | false =>
      have hinner : (w.annotated a s).unwrapped = s := by
        rw [Schema.unwrapped, w.wrapped?_annotated a hs, Option.getD_some]
      have hshape := w.shape_annotated a hs
      rw [hinner, hshape, hdescription', hdeprecated']
      by_cases hobject : s.outline.shape = .object <;> simp_all [ReadsWrapper]

/-- In the model of a property, a description and `deprecated` that stand beside the wrapper alone
survive exactly unless an object is wrapped. `readOnly` there survives only around the schema of
`null`, where nothing is wrapped. -/
theorem annotations_kept_iff (required : List String) {properties : List (String × Schema)}
    {index : Nat} (h : properties[index]? = some (name, w.annotated a s)) :
    ∃ p, (contentOfProperties scope place required properties).1[index]? = some p ∧
      p.name = name ∧
      (∀ text, a.description = some text → s.description = none →
        (p.description = some text ↔ ReadsWrapper s)) ∧
      (a.deprecated = true → s.deprecated = false → (p.deprecated = true ↔ ReadsWrapper s)) ∧
      (a.readOnly = true → s.readOnly = false →
        (p.isReadOnly = true ↔ s.isNullType = true)) := by
  refine ⟨ofPart scope place (.inner name name (required.contains name) (w.annotated a s)), ?_,
    name_embed _ _ _ _, annotations_embed_annotated scope name (place ++ [name]) w a⟩
  rw [contentOfProperties_eq, List.getElem?_map, h]
  rfl

/-- A pet with an owner, or none, about whom a few things are said beside the wrapper. -/
def ownedPet (owner : Schema) : Schema where
  type := some (.single "object")
  properties :=
    [("name", { type := some (.single "string") }),
      ("owner", Wrapper.anyOf.annotated ⟨some "Who feeds it", true, true⟩ owner)]

theorem annotations_kept_iff_ownedPet :
    (ownedPet { ref := some "#/components/schemas/Owner" }).properties[1]? =
        some ("owner", Wrapper.anyOf.annotated ⟨some "Who feeds it", true, true⟩
          { ref := some "#/components/schemas/Owner" }) ∧
      ∃ p, (contentOfProperties "schemas" ["Pet"] []
          (ownedPet { ref := some "#/components/schemas/Owner" }).properties).1[1]? = some p ∧
        p.description = some "Who feeds it" ∧ p.deprecated = true ∧ ¬ p.isReadOnly = true := by
  have hproperty : (ownedPet { ref := some "#/components/schemas/Owner" }).properties[1]? =
      some ("owner", Wrapper.anyOf.annotated ⟨some "Who feeds it", true, true⟩
        { ref := some "#/components/schemas/Owner" }) := rfl
  obtain ⟨p, hp, -, hdescription, hdeprecated, hreadOnly⟩ :=
    annotations_kept_iff "schemas" "owner" ["Pet"] .anyOf _ [] hproperty
  have hreads : ReadsWrapper { ref := some "#/components/schemas/Owner" } := .inr (by decide)
  exact ⟨hproperty, p, hp, (hdescription _ rfl rfl).2 hreads, (hdeprecated rfl rfl).2 hreads,
    fun h => absurd ((hreadOnly rfl rfl).1 h) (by decide)⟩

/-- Around an object nothing of it is left, and around a text all but `readOnly`. -/
theorem annotations_lost_ownedPet :
    ((definition "schemas" "Pet"
        (ownedPet { properties := [("name", { type := some (.single "string") })] })
        .schema).1.properties.map fun p => (p.description, p.deprecated, p.isReadOnly)) =
      [(none, false, false), (none, false, false)] ∧
    ((definition "schemas" "Pet" (ownedPet { type := some (.single "string") })
        .schema).1.properties.map fun p => (p.description, p.deprecated, p.isReadOnly)) =
      [(none, false, false), (some "Who feeds it", true, false)] := by
  decide +kernel

end Model

end TypedClient
