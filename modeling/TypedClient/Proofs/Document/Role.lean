import TypedClient.Document.Decode

/-!
# The objects of a document

A value of a document has a role: it is the document itself, a path item, a schema and so on, or
else nothing is read from it. `Role.member?` and `Role.item?` say which roles the values inside a
value have, and `Role.isExtensible` in which objects a document may add members of its own, under
keys that start with `x-`. `Inserts key value site` relates two trees of which the second has one
such member more, in an object of the role `site`.
-/

namespace TypedClient.Document

/-- What a value of a document stands for. -/
inductive Role where
  /-- A value that nothing is read from. -/
  | unread
  | document
  | info
  | server
  | serverVariable
  | paths
  | pathItem
  | operation
  | parameter
  | requestBody
  | mediaType
  | responses
  | response
  | header
  | components
  | schema
  | list (item : Role)
  | map (value : Role)
  /-- A component, or a reference in its place. -/
  | orRef (component : Role)
deriving DecidableEq, Repr

namespace Role

/-- The role of what a keyword of a schema holds. -/
def ofKeyword? : Schema.Keyword → Option Role
  | .properties => some (.map .schema)
  | .items => some .schema
  | .additional => some .schema
  | .anyOf => some (.list .schema)
  | .oneOf => some (.list .schema)
  | .allOf => some (.list .schema)
  | _ => none

/-- The members that a record has, in order, with the roles of their values. Plain values, such as
texts, and values that are taken over as they are have none. -/
def fields : Role → List (String × Option Role)
  | .document =>
    [("openapi", none), ("info", some .info), ("servers", some (.list .server)),
      ("paths", some .paths), ("components", some .components)]
  | .info => [("title", none), ("version", none)]
  | .server => [("url", none), ("variables", some (.map .serverVariable))]
  | .serverVariable => [("default", none)]
  | .operation =>
    [("operationId", none), ("summary", none), ("description", none), ("tags", none),
      ("deprecated", none), ("parameters", some (.list (.orRef .parameter))),
      ("requestBody", some (.orRef .requestBody)), ("responses", some .responses)]
  | .parameter =>
    [("name", none), ("in", none), ("description", none), ("required", none),
      ("deprecated", none), ("schema", some .schema), ("content", some (.map .mediaType))]
  | .requestBody =>
    [("description", none), ("required", none), ("content", some (.map .mediaType))]
  | .mediaType => [("schema", some .schema)]
  | .response =>
    [("description", none), ("content", some (.map .mediaType)),
      ("headers", some (.map (.orRef .header)))]
  | .header => [("description", none), ("schema", some .schema)]
  | .components =>
    [("schemas", some (.map .schema)), ("responses", some (.map (.orRef .response))),
      ("parameters", some (.map (.orRef .parameter))),
      ("requestBodies", some (.map (.orRef .requestBody)))]
  | .schema => Schema.Keyword.table.map fun (name, keyword) => (name, ofKeyword? keyword)
  | _ => []

/-- The role of a member of a path item. -/
def ofPathItemKey (key : String) : Role :=
  if key = "parameters" then .list (.orRef .parameter)
  else if (Method.ofKey? key).isSome then .operation
  else .unread

/-- The role of the value of a member. -/
def member? : Role → String → Option Role
  | .unread, _ => some .unread
  | .paths, _ => some .pathItem
  | .pathItem, key => some (ofPathItemKey key)
  | .responses, _ => some (.orRef .response)
  | .map role, _ => some role
  | .list _, _ => none
  | .orRef _, _ => none
  | role, key => (role.fields.lookup key).getD (some .unread)

/-- The role of an item. A record may stand as the array of its fields. -/
def item? : Role → Nat → Option Role
  | .unread, _ => some .unread
  | .list role, _ => some role
  | role, index => (role.fields[index]?).bind (·.2)

/-- Whether a document may add members of its own to an object. The members of a map are data. -/
def isExtensible : Role → Bool
  | .list _ => false
  | .map _ => false
  | .orRef _ => false
  | _ => true

/-- A role that has fields is that of a record. -/
structure IsRecord (role : Role) : Prop where
  member?_eq : ∀ key, role.member? key = (role.fields.lookup key).getD (some .unread)
  item?_eq : ∀ index, role.item? index = (role.fields[index]?).bind (·.2)
  ne_orRef : ∀ component, role ≠ .orRef component

theorem isRecord_of_fields_ne_nil {role : Role} (h : role.fields ≠ []) : role.IsRecord := by
  cases role with
  | unread | paths | pathItem | responses | list | map | orRef => exact absurd rfl h
  | _ => exact ⟨fun _ => rfl, fun _ => rfl, nofun⟩

end Role

/-- A key under which a document may add a member of its own. The two keywords of this form that
schemas have are excluded. -/
structure IsExtensionKey (key : String) : Prop where
  starts : ['x', '-'] <+: key.toList
  ne_memberNames : key ≠ "x-enum-varnames"
  ne_memberDescriptions : key ≠ "x-enum-descriptions"

namespace IsExtensionKey

variable {key : String}

/-- Texts that do not start like such a key are none. -/
theorem ne_of_not_starts (h : IsExtensionKey key) {name : String}
    (hname : ['x', '-'].isPrefixOf name.toList = false) : key ≠ name := by
  rintro rfl
  rw [List.isPrefixOf_iff_prefix.2 h.starts] at hname
  cases hname

/-- No record has a field under such a key. -/
theorem not_mem_fields (h : IsExtensionKey key) (role : Role) :
    key ∉ role.fields.map (·.1) := by
  have hall : ∀ name ∈ role.fields.map (·.1),
      name = "x-enum-varnames" ∨ name = "x-enum-descriptions" ∨
        ['x', '-'].isPrefixOf name.toList = false := by
    cases role with
    | unread | paths | pathItem | responses | list | map | orRef => nofun
    | _ => decide
  intro hmem
  rcases hall key hmem with hname | hname | hname
  · exact h.ne_memberNames hname
  · exact h.ne_memberDescriptions hname
  · exact h.ne_of_not_starts hname rfl

end IsExtensionKey

/-- `Inserts key value site role v v'` says that `v'` is the value `v` of the given role with one
member more: in an object inside, of the role `site`, the member `key` with the given value. -/
inductive Inserts (key : String) (value : Json) (site : Role) : Role → Json → Json → Prop
  | here (before after : List (String × Json)) : site.isExtensible = true →
      Inserts key value site site (.object (before ++ after))
        (.object (before ++ (key, value) :: after))
  | member {role inner : Role} {v v' : Json} (name : String) (before after : List (String × Json)) :
      role.member? name = some inner → Inserts key value site inner v v' →
      Inserts key value site role (.object (before ++ (name, v) :: after))
        (.object (before ++ (name, v') :: after))
  | item {role inner : Role} {v v' : Json} (before after : List Json) :
      role.item? before.length = some inner → Inserts key value site inner v v' →
      Inserts key value site role (.array (before ++ v :: after)) (.array (before ++ v' :: after))
  | orRef {component : Role} {v v' : Json} : Inserts key value site component v v' →
      Inserts key value site (.orRef component) v v'

/-- Both values are objects, or both are arrays. -/
theorem Inserts.containers {key : String} {value : Json} {site role : Role} {v v' : Json}
    (h : Inserts key value site role v v') :
    (∃ ms ms', v = .object ms ∧ v' = .object ms') ∨ ∃ xs xs', v = .array xs ∧ v' = .array xs' := by
  induction h with
  | here before after hsite => exact .inl ⟨_, _, rfl, rfl⟩
  | member name before after hrole hinner ih => exact .inl ⟨_, _, rfl, rfl⟩
  | item before after hrole hinner ih => exact .inr ⟨_, _, rfl, rfl⟩
  | orRef hinner ih => exact ih

end TypedClient.Document
