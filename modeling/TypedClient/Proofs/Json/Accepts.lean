import TypedClient.Proofs.Json.Value

/-!
# What a JSON Schema accepts

`Accepts references schema value` reads a schema as JSON Schema does: every keyword that is there
has to be met. Only keywords that give the type count here; those that restrict it further, and
those that say nothing about it, are passed over. What a `$ref` accepts is given by `references`.

`Requires` says where a schema names a required property: in its own list, in the list of the schema
that stands beside `null`, or in that of a definition which a member of an `allOf` refers to. In all
three places the schema rejects the objects that lack the property: `Requires.isSome_lookup`.

Read `meetsAll_append` and `acceptsAny_iff` first: keywords are met one by one, and a composition
asks for some or for all of its members.
-/

namespace TypedClient.Json

/-- Whether a value is of the type of a name. -/
def IsOfType (type : String) : Json → Prop
  | .null => type = "null"
  | .bool _ => type = "boolean"
  | .number n => type = "number" ∨ (type = "integer" ∧ ∃ k : ℤ, n.value = k)
  | .string _ => type = "string"
  | .array _ => type = "array"
  | .object _ => type = "object"

/-- The names that the keyword `properties` lists beside others. -/
def declaredNames (siblings : List (String × Json)) : List String :=
  match siblings.lookup "properties" with
  | some (.object properties) => properties.map (·.1)
  | _ => []

mutual

/-- A schema accepts a value. -/
def Accepts (references : String → Json → Prop) : Json → Json → Prop
  | .object keywords, value => MeetsAll references keywords keywords value
  | .bool accepts, _ => accepts = true
  | _, _ => False

/-- A value meets keywords that stand beside others. -/
def MeetsAll (references : String → Json → Prop) (siblings : List (String × Json)) :
    List (String × Json) → Json → Prop
  | [], _ => True
  | (keyword, operand) :: rest, value =>
    (if keyword = "$ref" then ∀ name, operand = .string name → references name value
    else if keyword = "type" then ∀ type, operand = .string type → IsOfType type value
    else if keyword = "enum" then
      ∀ items, operand = .array items → ∃ item ∈ items, Same item value
    else if keyword = "items" then
      ∀ items, value = .array items → ∀ item ∈ items, Accepts references operand item
    else if keyword = "additionalProperties" then
      ∀ members, value = .object members → ∀ member ∈ members,
        member.1 ∉ declaredNames siblings → Accepts references operand member.2
    else if keyword = "properties" then
      match operand with
      | .object properties => ∀ members, value = .object members →
          MeetsProperties references properties members
      | _ => True
    else if keyword = "required" then
      ∀ names, operand = .array names → ∀ members, value = .object members →
        ∀ name, .string name ∈ names → (members.lookup name).isSome
    else if keyword = "oneOf" then
      match operand with
      | .array schemas => AcceptsOne references schemas value
      | _ => True
    else if keyword = "anyOf" then
      match operand with
      | .array schemas => AcceptsAny references schemas value
      | _ => True
    else if keyword = "allOf" then
      match operand with
      | .array schemas => AcceptsEach references schemas value
      | _ => True
    else True) ∧ MeetsAll references siblings rest value

/-- The members of an object are accepted by the schemas for their keys. -/
def MeetsProperties (references : String → Json → Prop) :
    List (String × Json) → List (String × Json) → Prop
  | [], _ => True
  | (key, schema) :: rest, members =>
    (∀ member, members.lookup key = some member → Accepts references schema member) ∧
      MeetsProperties references rest members

/-- Exactly one schema accepts a value. -/
def AcceptsOne (references : String → Json → Prop) : List Json → Json → Prop
  | [], _ => False
  | schema :: rest, value =>
    (Accepts references schema value ∧ ¬ AcceptsAny references rest value) ∨
      (¬ Accepts references schema value ∧ AcceptsOne references rest value)

/-- Some schema accepts a value. -/
def AcceptsAny (references : String → Json → Prop) : List Json → Json → Prop
  | [], _ => False
  | schema :: rest, value => Accepts references schema value ∨ AcceptsAny references rest value

/-- All schemas accept a value. -/
def AcceptsEach (references : String → Json → Prop) : List Json → Json → Prop
  | [], _ => True
  | schema :: rest, value => Accepts references schema value ∧ AcceptsEach references rest value

end

variable {references : String → Json → Prop} {siblings : List (String × Json)} {value : Json}

theorem meetsAll_append {keywords others : List (String × Json)} :
    MeetsAll references siblings (keywords ++ others) value ↔
      MeetsAll references siblings keywords value ∧ MeetsAll references siblings others value := by
  induction keywords with
  | nil => simp [MeetsAll]
  | cons entry rest ih =>
      obtain ⟨keyword, operand⟩ := entry
      cases operand <;> simp only [List.cons_append, MeetsAll, ih, and_assoc]

/-- Every single keyword of a schema is met. -/
theorem meetsAll_of_mem {keywords : List (String × Json)} {entry : String × Json}
    (h : MeetsAll references siblings keywords value) (hentry : entry ∈ keywords) :
    MeetsAll references siblings [entry] value := by
  obtain ⟨before, after, rfl⟩ := List.append_of_mem hentry
  rw [meetsAll_append, ← List.singleton_append, meetsAll_append] at h
  exact h.2.1

theorem acceptsAny_iff {schemas : List Json} :
    AcceptsAny references schemas value ↔ ∃ schema ∈ schemas, Accepts references schema value := by
  induction schemas with
  | nil => simp [AcceptsAny]
  | cons schema rest ih => simp [AcceptsAny, ih]

theorem acceptsEach_iff {schemas : List Json} :
    AcceptsEach references schemas value ↔ ∀ schema ∈ schemas, Accepts references schema value := by
  induction schemas with
  | nil => simp [AcceptsEach]
  | cons schema rest ih => simp [AcceptsEach, ih]

/-- What exactly one schema accepts, some schema accepts. -/
theorem acceptsAny_of_acceptsOne {schemas : List Json} (h : AcceptsOne references schemas value) :
    AcceptsAny references schemas value := by
  induction schemas with
  | nil =>
      rw [AcceptsOne] at h
      exact h.elim
  | cons schema rest ih =>
      rw [AcceptsOne] at h
      rw [AcceptsAny]
      rcases h with ⟨haccepts, -⟩ | ⟨-, hrest⟩
      · exact .inl haccepts
      · exact .inr (ih hrest)

theorem meetsProperties_iff {properties members : List (String × Json)} :
    MeetsProperties references properties members ↔
      ∀ property ∈ properties, ∀ member, members.lookup property.1 = some member →
        Accepts references property.2 member := by
  induction properties with
  | nil => simp [MeetsProperties]
  | cons property rest ih =>
      obtain ⟨key, schema⟩ := property
      rw [MeetsProperties, ih, List.forall_mem_cons]

@[simp]
theorem accepts_object {keywords : List (String × Json)} :
    Accepts references (.object keywords) value ↔
      MeetsAll references keywords keywords value := by
  rw [Accepts]

/-! ## The keywords one by one -/

/-- The keywords that give the type. -/
def typeKeywords : List String :=
  ["$ref", "type", "enum", "items", "additionalProperties", "properties", "required", "oneOf",
    "anyOf", "allOf"]

/-- Other keywords are met by everything. -/
theorem meetsAll_of_not_mem {keywords : List (String × Json)}
    (h : ∀ entry ∈ keywords, entry.1 ∉ typeKeywords) :
    MeetsAll references siblings keywords value := by
  induction keywords with
  | nil => simp [MeetsAll]
  | cons entry rest ih =>
      obtain ⟨keyword, operand⟩ := entry
      have hkeyword := h (keyword, operand) List.mem_cons_self
      have hrest := ih fun other hother => h other (List.mem_cons_of_mem _ hother)
      simp only [typeKeywords, List.mem_cons, List.not_mem_nil, or_false, not_or] at hkeyword
      cases operand <;> simp [MeetsAll, hkeyword, hrest]

variable {rest : List (String × Json)}

@[simp]
theorem meetsAll_nil : MeetsAll references siblings [] value ↔ True := by rw [MeetsAll]

@[simp]
theorem meetsAll_ref {name : String} :
    MeetsAll references siblings (("$ref", .string name) :: rest) value ↔
      references name value ∧ MeetsAll references siblings rest value := by
  simp [MeetsAll]

@[simp]
theorem meetsAll_type {type : String} :
    MeetsAll references siblings (("type", .string type) :: rest) value ↔
      IsOfType type value ∧ MeetsAll references siblings rest value := by
  simp [MeetsAll]

@[simp]
theorem meetsAll_enum {items : List Json} :
    MeetsAll references siblings (("enum", .array items) :: rest) value ↔
      (∃ item ∈ items, Same item value) ∧ MeetsAll references siblings rest value := by
  simp [MeetsAll]

@[simp]
theorem meetsAll_items {schema : Json} :
    MeetsAll references siblings (("items", schema) :: rest) value ↔
      (∀ items, value = .array items → ∀ item ∈ items, Accepts references schema item) ∧
        MeetsAll references siblings rest value := by
  cases schema <;> simp [MeetsAll]

@[simp]
theorem meetsAll_additionalProperties {schema : Json} :
    MeetsAll references siblings (("additionalProperties", schema) :: rest) value ↔
      (∀ members, value = .object members → ∀ member ∈ members,
          member.1 ∉ declaredNames siblings → Accepts references schema member.2) ∧
        MeetsAll references siblings rest value := by
  cases schema <;> simp [MeetsAll]

@[simp]
theorem meetsAll_properties {properties : List (String × Json)} :
    MeetsAll references siblings (("properties", .object properties) :: rest) value ↔
      (∀ members, value = .object members → MeetsProperties references properties members) ∧
        MeetsAll references siblings rest value := by
  simp [MeetsAll]

@[simp]
theorem meetsAll_required {names : List String} :
    MeetsAll references siblings (("required", Json.strings names) :: rest) value ↔
      (∀ members, value = .object members → ∀ name ∈ names, (members.lookup name).isSome) ∧
        MeetsAll references siblings rest value := by
  simp [MeetsAll, Json.strings]

@[simp]
theorem meetsAll_oneOf {schemas : List Json} :
    MeetsAll references siblings (("oneOf", .array schemas) :: rest) value ↔
      AcceptsOne references schemas value ∧ MeetsAll references siblings rest value := by
  simp [MeetsAll]

@[simp]
theorem meetsAll_anyOf {schemas : List Json} :
    MeetsAll references siblings (("anyOf", .array schemas) :: rest) value ↔
      AcceptsAny references schemas value ∧ MeetsAll references siblings rest value := by
  simp [MeetsAll]

@[simp]
theorem meetsAll_allOf {schemas : List Json} :
    MeetsAll references siblings (("allOf", .array schemas) :: rest) value ↔
      AcceptsEach references schemas value ∧ MeetsAll references siblings rest value := by
  simp [MeetsAll]

/-! ## Required properties -/

/-- `schema.Requires defined name` says that a property is required by the schema, or by a
definition that is a member of it. `defined target definition` says which definition a reference
leads to. -/
inductive Requires (defined : String → Json → Prop) : Json → String → Prop
  | listed {members : List (String × Json)} {names : List Json} {name : String} :
      ("required", .array names) ∈ members → .string name ∈ names →
      Requires defined (.object members) name
  | besideNull {members : List (String × Json)} {schema : Json} {name : String} :
      ("anyOf", .array [schema, .object [("type", .string "null")]]) ∈ members →
      Requires defined schema name → Requires defined (.object members) name
  | ofMember {members keywords : List (String × Json)} {schemas : List Json}
      {target name : String} {definition : Json} :
      ("allOf", .array schemas) ∈ members → .object keywords ∈ schemas →
      ("$ref", .string target) ∈ keywords → defined target definition →
      Requires defined definition name → Requires defined (.object members) name

variable {defined : String → Json → Prop}

/-- More members do not make a property optional. -/
theorem Requires.append {members : List (String × Json)} {name : String}
    (h : Requires defined (.object members) name) (others : List (String × Json)) :
    Requires defined (.object (members ++ others)) name := by
  cases h with
  | listed hnames hname => exact .listed (List.mem_append_left _ hnames) hname
  | besideNull hany hschema => exact .besideNull (List.mem_append_left _ hany) hschema
  | ofMember hall hmember href hdefined hdefinition =>
      exact .ofMember (List.mem_append_left _ hall) hmember href hdefined hdefinition

/-- Objects that lack a required property are rejected, if no reference accepts more than its
definition. -/
theorem Requires.isSome_lookup {schema : Json} {name : String} (h : Requires defined schema name)
    (hdefined : ∀ target definition, defined target definition →
      ∀ value, references target value → Accepts references definition value)
    {members : List (String × Json)} (haccepts : Accepts references schema (.object members)) :
    (members.lookup name).isSome := by
  induction h with
  | listed hnames hname =>
      have hmeets := meetsAll_of_mem (accepts_object.1 haccepts) hnames
      simp only [MeetsAll] at hmeets
      exact hmeets.1 _ rfl members rfl _ hname
  | besideNull hany _ ih =>
      have hmeets := meetsAll_of_mem (accepts_object.1 haccepts) hany
      rw [meetsAll_anyOf, acceptsAny_iff] at hmeets
      obtain ⟨⟨schema, hschema, haccepts⟩, -⟩ := hmeets
      rcases List.mem_pair.1 hschema with rfl | rfl
      · exact ih haccepts
      · -- An object is not `null`.
        simp [IsOfType] at haccepts
  | ofMember hall hmember href hleads _ ih =>
      have hmeets := meetsAll_of_mem (accepts_object.1 haccepts) hall
      rw [meetsAll_allOf, acceptsEach_iff] at hmeets
      have hreference := meetsAll_of_mem (accepts_object.1 (hmeets.1 _ hmember)) href
      rw [meetsAll_ref] at hreference
      exact ih (hdefined _ _ hleads _ hreference.1)

end TypedClient.Json
