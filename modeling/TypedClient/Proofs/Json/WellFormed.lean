import TypedClient.Proofs.Json.Value

/-!
# JSON Schemas that can be compiled

A compiler of JSON Schemas refuses an empty list of alternatives and a list of required properties
that is empty, repeats a name or names a property which is not described beside it. `WellFormed`
says this of every object inside a value; `wellFormed_object` and `wellFormed_array` take a value
apart. An object whose members are no lists has nothing to be refused for.
-/

namespace TypedClient.Json

/-- `value.Inside inner` says that `inner` is the value itself or stands inside it, at any depth. -/
inductive Inside : Json → Json → Prop
  | self (value : Json) : Inside value value
  | item {items : List Json} {item inner : Json} :
      item ∈ items → Inside item inner → Inside (.array items) inner
  | member {members : List (String × Json)} {key : String} {value inner : Json} :
      (key, value) ∈ members → Inside value inner → Inside (.object members) inner

/-- The keywords that list alternatives. -/
def alternativeKeywords : List String := ["enum", "oneOf", "anyOf", "allOf"]

/-- The members of an object are no reason to refuse it. -/
structure KeywordsWellFormed (members : List (String × Json)) : Prop where
  alternatives : ∀ keyword ∈ alternativeKeywords, (keyword, .array []) ∉ members
  required : ∀ names, ("required", .array names) ∈ members → names ≠ [] ∧ names.Nodup ∧
    ∃ properties, ("properties", .object properties) ∈ members ∧
      ∀ name ∈ names, ∃ key ∈ properties.map (·.1), name = .string key

/-- No object inside, at any depth, is refused. -/
def WellFormed (value : Json) : Prop :=
  ∀ members, value.Inside (.object members) → KeywordsWellFormed members

theorem wellFormed_object {members : List (String × Json)} :
    (object members).WellFormed ↔
      KeywordsWellFormed members ∧ ∀ member ∈ members, member.2.WellFormed := by
  constructor
  · intro h
    exact ⟨h members (.self _), fun member hmember inner hinner => h inner (.member hmember hinner)⟩
  · rintro ⟨hself, hmembers⟩ inner (_ | _ | ⟨hmember, hinner⟩)
    · exact hself
    · exact hmembers _ hmember inner hinner

theorem wellFormed_array {items : List Json} :
    (array items).WellFormed ↔ ∀ item ∈ items, item.WellFormed := by
  constructor
  · intro h item hitem inner hinner
    exact h inner (.item hitem hinner)
  · rintro h inner (_ | ⟨hitem, hinner⟩ | _)
    exact h _ hitem inner hinner

/-- There is no object inside a literal. -/
theorem IsLiteral.wellFormed {value : Json} (h : value.IsLiteral) : value.WellFormed := by
  rintro members (_ | ⟨hitem, -⟩ | ⟨hmember, -⟩)
  · exact h.elim
  · exact h.elim
  · exact h.elim

/-! ## Keywords -/

/-- The keywords that are looked at. -/
def checkedKeywords : List String := "required" :: "properties" :: alternativeKeywords

variable {members others : List (String × Json)}

/-- Members under other keys make no difference. -/
theorem keywordsWellFormed_append_iff (h : ∀ member ∈ others, member.1 ∉ checkedKeywords) :
    KeywordsWellFormed (members ++ others) ↔ KeywordsWellFormed members := by
  have hmem : ∀ {keyword value}, keyword ∈ checkedKeywords →
      ((keyword, value) ∈ members ++ others ↔ (keyword, value) ∈ members) := by
    intro keyword value hkeyword
    rw [List.mem_append, or_iff_left]
    exact fun hother => h _ hother hkeyword
  have halternative : ∀ keyword ∈ alternativeKeywords, keyword ∈ checkedKeywords :=
    fun _ hkeyword => List.mem_cons_of_mem _ (List.mem_cons_of_mem _ hkeyword)
  have hrequired : "required" ∈ checkedKeywords := by decide
  have hproperties : "properties" ∈ checkedKeywords := by decide
  constructor
  · intro hall
    refine ⟨fun keyword hkeyword => ?_, fun names hnames => ?_⟩
    · rw [← hmem (halternative keyword hkeyword)]
      exact hall.alternatives keyword hkeyword
    · simpa only [hmem hproperties] using hall.required names ((hmem hrequired).2 hnames)
  · intro hown
    refine ⟨fun keyword hkeyword => ?_, fun names hnames => ?_⟩
    · rw [hmem (halternative keyword hkeyword)]
      exact hown.alternatives keyword hkeyword
    · simpa only [hmem hproperties] using hown.required names ((hmem hrequired).1 hnames)

/-- Where no member is a list, nothing is refused. -/
theorem keywordsWellFormed_of_no_array (h : ∀ member ∈ members, ∀ items, member.2 ≠ .array items) :
    KeywordsWellFormed members :=
  ⟨fun _ _ hmember => h _ hmember [] rfl, fun names hnames => absurd rfl (h _ hnames names)⟩

/-- A single list is refused exactly if it is an empty list of alternatives. -/
theorem keywordsWellFormed_alternatives_iff {keyword : String} {items : List Json}
    (hkeyword : keyword ∈ alternativeKeywords)
    (h : ∀ member ∈ members, ∀ items, member.2 ≠ .array items) :
    KeywordsWellFormed (members ++ [(keyword, .array items)]) ↔ items ≠ [] := by
  constructor
  · rintro hall rfl
    exact hall.alternatives keyword hkeyword (List.mem_append_right _ (List.mem_singleton_self _))
  · intro hitems
    -- The only list among the members is the one under the keyword.
    have hlist : ∀ {key values}, (key, array values) ∈ members ++ [(keyword, .array items)] →
        key = keyword ∧ values = items := by
      intro key values hmem
      rcases List.mem_append.1 hmem with hmem | hmem
      · exact absurd rfl (h _ hmem values)
      · simpa using hmem
    refine ⟨fun other _ hmem => hitems (hlist hmem).2.symm, fun names hmem => ?_⟩
    have hrequired : "required" ∉ alternativeKeywords := by decide
    exact absurd ((hlist hmem).1 ▸ hkeyword) hrequired

end TypedClient.Json
