import TypedClient.Json.Basic

/-!
# References of JSON Schemas

A JSON Schema refers to what stands under `$ref` in it or in a schema inside it (`Refers`). What an
object refers to is known member by member (`refersOnlyTo_object`), and most keywords hold neither
a reference nor a schema (`memberRefersOnlyTo_of_not_mem`).
-/

namespace TypedClient.Json

/-- The keywords whose value is a schema. -/
def schemaKeywords : List String :=
  ["items", "additionalItems", "contains", "additionalProperties", "propertyNames",
    "unevaluatedItems", "unevaluatedProperties", "contentSchema", "not", "if", "then", "else"]

/-- The keywords whose value is a list of schemas. -/
def schemaListKeywords : List String := ["oneOf", "anyOf", "allOf", "prefixItems", "items"]

/-- The keywords whose value is an object of schemas. -/
def schemaMapKeywords : List String :=
  ["properties", "patternProperties", "dependentSchemas", "$defs", "definitions"]

/-- `Holds keyword value inner` says that a schema stands in the value of a keyword. -/
inductive Holds : String → Json → Json → Prop
  | single {keyword : String} (inner : Json) :
      keyword ∈ schemaKeywords → Holds keyword inner inner
  | listed {keyword : String} {items : List Json} {inner : Json} :
      keyword ∈ schemaListKeywords → inner ∈ items → Holds keyword (.array items) inner
  | named {keyword : String} {members : List (String × Json)} {name : String} {inner : Json} :
      keyword ∈ schemaMapKeywords → (name, inner) ∈ members → Holds keyword (.object members) inner

/-- `schema.Refers target` says that the target stands under `$ref` in a schema, at any depth. -/
inductive Refers : Json → Json → Prop
  | here {members : List (String × Json)} {target : Json} :
      ("$ref", target) ∈ members → Refers (.object members) target
  | inside {members : List (String × Json)} {keyword : String} {value inner target : Json} :
      (keyword, value) ∈ members → Holds keyword value inner → Refers inner target →
      Refers (.object members) target

/-- A schema refers to nothing but what satisfies a condition. -/
def RefersOnlyTo (P : Json → Prop) (schema : Json) : Prop := ∀ target, schema.Refers target → P target

/-- A member of a schema refers to nothing but what satisfies a condition. -/
def MemberRefersOnlyTo (P : Json → Prop) (member : String × Json) : Prop :=
  (member.1 = "$ref" → P member.2) ∧
    ∀ inner, Holds member.1 member.2 inner → inner.RefersOnlyTo P

variable {P : Json → Prop}

theorem refersOnlyTo_object {members : List (String × Json)} :
    (object members).RefersOnlyTo P ↔ ∀ member ∈ members, MemberRefersOnlyTo P member := by
  constructor
  · rintro h ⟨keyword, value⟩ hmem
    refine ⟨fun href => ?_, fun inner hholds target hinner => h target (.inside hmem hholds hinner)⟩
    obtain rfl : keyword = "$ref" := href
    exact h value (.here hmem)
  · intro h target hrefers
    cases hrefers with
    | here hmem => exact (h _ hmem).1 rfl
    | inside hmem hholds hinner => exact (h _ hmem).2 _ hholds target hinner

/-- The keywords that can lead to a reference. -/
def referringKeywords : List String :=
  "$ref" :: (schemaKeywords ++ schemaListKeywords ++ schemaMapKeywords)

theorem Holds.mem_referringKeywords {keyword : String} {value inner : Json}
    (h : Holds keyword value inner) : keyword ∈ referringKeywords := by
  refine List.mem_cons_of_mem _ ?_
  cases h with
  | single _ hkeyword => exact List.mem_append_left _ (List.mem_append_left _ hkeyword)
  | listed hkeyword _ => exact List.mem_append_left _ (List.mem_append_right _ hkeyword)
  | named hkeyword _ => exact List.mem_append_right _ hkeyword

/-- Other keywords refer to nothing. -/
theorem memberRefersOnlyTo_of_not_mem {member : String × Json}
    (h : member.1 ∉ referringKeywords) : MemberRefersOnlyTo P member :=
  ⟨fun href => absurd (href ▸ List.mem_cons_self) h,
    fun _ hholds => absurd hholds.mem_referringKeywords h⟩

/-! ## Members that hold schemas -/

variable {keyword : String}

theorem memberRefersOnlyTo_schema {members : List (String × Json)}
    (hkeyword : keyword ∉ "$ref" :: schemaMapKeywords) (h : (object members).RefersOnlyTo P) :
    MemberRefersOnlyTo P (keyword, .object members) := by
  refine ⟨fun href => absurd (href ▸ List.mem_cons_self) hkeyword, fun inner hholds => ?_⟩
  cases hholds with
  | single _ _ => exact h
  | named hmap _ => exact absurd (List.mem_cons_of_mem _ hmap) hkeyword

theorem memberRefersOnlyTo_list {items : List Json}
    (hkeyword : keyword ∉ "$ref" :: schemaKeywords) (h : ∀ item ∈ items, item.RefersOnlyTo P) :
    MemberRefersOnlyTo P (keyword, .array items) := by
  refine ⟨fun href => absurd (href ▸ List.mem_cons_self) hkeyword, fun inner hholds => ?_⟩
  cases hholds with
  | single _ hsingle => exact absurd (List.mem_cons_of_mem _ hsingle) hkeyword
  | listed _ hinner => exact h inner hinner

theorem memberRefersOnlyTo_map {members : List (String × Json)}
    (hkeyword : keyword ∉ "$ref" :: schemaKeywords)
    (h : ∀ member ∈ members, member.2.RefersOnlyTo P) :
    MemberRefersOnlyTo P (keyword, .object members) := by
  refine ⟨fun href => absurd (href ▸ List.mem_cons_self) hkeyword, fun inner hholds => ?_⟩
  cases hholds with
  | single _ hsingle => exact absurd (List.mem_cons_of_mem _ hsingle) hkeyword
  | named _ hinner => exact h _ hinner

end TypedClient.Json
