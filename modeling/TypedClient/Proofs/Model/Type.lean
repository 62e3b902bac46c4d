import TypedClient.Proofs.Model.Expression
import TypedClient.Proofs.Model.Orderly
import TypedClient.Proofs.Script.TypeReader

/-!
# The type of a model

`Model.type` is the type that the expression of a model stands for: if the model is orderly and what
it mentions are names of types, it is what is read from the expression (`read?_expression`).
-/

namespace TypedClient

namespace Model

open Script

/-- The type of a literal. -/
def literalType : Json → Ty
  | .string s => .string s
  | .number n => .numeral n.text
  | .bool b => .flag b
  | .null => .word .null
  | _ => .word .any

/-- The type for the base of a primitive model. -/
def baseType (base : String) : Ty :=
  if base = "integer" ∨ base = "number" then .word .number
  else if base = "binary" then .name "Blob"
  else if base = "string" then .word .string
  else if base = "boolean" then .word .boolean
  else if base = "null" then .word .null
  else if base = "void" then .word .void
  else .word .any

/-- Several types put together; one is taken as it is. -/
def joinedType (compose : List Ty → Ty) : List Ty → Ty
  | [] => .word .any
  | [type] => type
  | types => compose types

/-- An object type; without properties, the objects. -/
def objectOf : List (PropertyHead × Ty) → Ty
  | [] => .record (.word .any)
  | properties => .object properties

/-- The type holds `null` already, and says so by its keyword. -/
def isNullWord : Ty → Bool
  | .word .null | .word .any => true
  | _ => false

/-- Adds `null` to a type that does not have it. -/
def nullableType (nullable : Bool) (type : Ty) : Ty :=
  if nullable && !isNullWord type then .union [type, .word .null] else type

/-- What stands before the type of a property. -/
def head (m : Model) : PropertyHead := ⟨m.isReadOnly, m.name, m.isRequired⟩

mutual

/-- The type that the expression of a model stands for. -/
def type : Model → Ty
  | { kind, base, isNullable, members, link, properties, .. } =>
    nullableType isNullable (match kind with
      | .reference => .name base
      | .primitive => baseType base
      | .enumeration =>
        if members.isEmpty then baseType base
        else joinedType .union (members.map fun m => literalType m.value)
      | .array => .array (linkType link)
      | .dictionary => .record (linkType link)
      | .interface => objectOf (propertyTypes properties)
      | .oneOf => joinedType .union (types properties)
      | .anyOf => joinedType .union (types properties)
      | .allOf => joinedType .intersection (types properties))

/-- The type of the elements of an array or a dictionary. -/
def linkType : Option Model → Ty
  | none => .word .any
  | some m => type m

/-- The types of some models. -/
def types : List Model → List Ty
  | [] => []
  | m :: rest => type m :: types rest

/-- The properties of an object type. -/
def propertyTypes : List Model → List (PropertyHead × Ty)
  | [] => []
  | m :: rest => (m.head, type m) :: propertyTypes rest

end

/-! ## The type in terms of the parts -/

theorem types_eq (ms : List Model) : types ms = ms.map type := by
  induction ms with
  | nil => rfl
  | cons m ms ih => simp [types, ih]

theorem propertyTypes_eq (ms : List Model) :
    propertyTypes ms = ms.map fun m => (m.head, m.type) := by
  induction ms with
  | nil => rfl
  | cons m ms ih => simp [propertyTypes, ih]

theorem linkType_eq (link : Option Model) : linkType link = (link.map type).getD (.word .any) := by
  cases link <;> rfl

/-- The type of a model before `null` is added. -/
def ownType (m : Model) : Ty :=
  match m.kind with
  | .reference => .name m.base
  | .primitive => baseType m.base
  | .enumeration =>
    if m.members.isEmpty then baseType m.base
    else joinedType .union (m.members.map fun member => literalType member.value)
  | .array => .array ((m.link.map type).getD (.word .any))
  | .dictionary => .record ((m.link.map type).getD (.word .any))
  | .interface => objectOf (m.properties.map fun p => (p.head, p.type))
  | .oneOf => joinedType .union (m.properties.map type)
  | .anyOf => joinedType .union (m.properties.map type)
  | .allOf => joinedType .intersection (m.properties.map type)

theorem type_eq (m : Model) : m.type = nullableType m.isNullable m.ownType := by
  obtain ⟨_, kind⟩ := m
  cases kind <;> simp only [type, ownType, linkType_eq, propertyTypes_eq, types_eq]

/-! ## Expressions and their types -/

/-- A text is the expression of a type. -/
structure Writes (text : String) (type : Ty) : Prop where
  text_eq : type.text = text
  wellFormed : type.WellFormed

theorem writes_literal {value : Json} (h : value.IsLiteral) :
    Writes (literal value) (literalType value) := by
  cases value with
  | null => exact ⟨rfl, trivial⟩
  | bool b => exact ⟨rfl, trivial⟩
  | number n => exact ⟨rfl, Json.Number.isNumeral_text h⟩
  | string s => exact ⟨rfl, trivial⟩
  | array _ => exact h.elim
  | object _ => exact h.elim

theorem writes_baseType (base : String) : Writes (primitiveType base) (baseType base) := by
  have hblob : isIdentifier "Blob" = true ∧ "Blob" ∉ typeWords := by decide
  unfold primitiveType baseType
  split
  · exact ⟨rfl, trivial⟩
  · split
    · exact ⟨rfl, hblob⟩
    · split
      · rename_i hbase
        simp only [List.mem_cons, List.not_mem_nil, or_false] at hbase
        rcases hbase with rfl | rfl | rfl | rfl | rfl <;> exact ⟨rfl, trivial⟩
      · rename_i hbase
        simp only [List.mem_cons, List.not_mem_nil, or_false, not_or] at hbase
        obtain ⟨hstring, hboolean, hnull, hvoid, -⟩ := hbase
        rw [if_neg hstring, if_neg hboolean, if_neg hnull, if_neg hvoid]
        exact ⟨rfl, trivial⟩

/-- The texts of some things are the expressions of their types. -/
theorem texts_map {α : Type} {items : List α} {text : α → String} {type : α → Ty}
    (h : ∀ item ∈ items, Writes (text item) (type item)) :
    Ty.texts (items.map type) = items.map text := by
  rw [Ty.texts_eq, List.map_map]
  exact List.map_congr_left fun item hitem => (h item hitem).text_eq

theorem writes_joinedType {separator : String} (compose : List Ty → Ty)
    (htext : ∀ types,
      (compose types).text = "(" ++ Json.joinWith separator (Ty.texts types) ++ ")")
    (hwellFormed : ∀ types, 2 ≤ types.length → (∀ type ∈ types, type.WellFormed) →
      (compose types).WellFormed)
    {α : Type} {items : List α} {text : α → String} {type : α → Ty}
    (h : ∀ item ∈ items, Writes (text item) (type item)) :
    Writes (joinTypes separator (items.map text)) (joinedType compose (items.map type)) := by
  match items with
  | [] => exact ⟨rfl, trivial⟩
  | [item] => exact h item List.mem_cons_self
  | first :: next :: others =>
      refine ⟨?_, hwellFormed _ (by simp) (List.forall_mem_map.2 fun item hitem =>
        (h item hitem).wellFormed)⟩
      change (compose ((first :: next :: others).map type)).text = _
      rw [htext, texts_map h]
      rfl

theorem writes_union {α : Type} {items : List α} {text : α → String} {type : α → Ty}
    (h : ∀ item ∈ items, Writes (text item) (type item)) :
    Writes (joinTypes " | " (items.map text)) (joinedType .union (items.map type)) :=
  writes_joinedType .union (fun _ => rfl)
    (fun _ hlength htypes => ⟨hlength, Ty.wellFormedAll_iff.2 htypes⟩) h

theorem writes_intersection {α : Type} {items : List α} {text : α → String} {type : α → Ty}
    (h : ∀ item ∈ items, Writes (text item) (type item)) :
    Writes (joinTypes " & " (items.map text)) (joinedType .intersection (items.map type)) :=
  writes_joinedType .intersection (fun _ => rfl)
    (fun _ hlength htypes => ⟨hlength, Ty.wellFormedAll_iff.2 htypes⟩) h

theorem writes_objectOf {properties : List Model}
    (h : ∀ p ∈ properties, Writes p.expression p.type) :
    Writes (objectOfLines (properties.map fun p =>
        propertyLine p.isReadOnly p.isRequired p.name p.expression))
      (objectOf (properties.map fun p => (p.head, p.type))) := by
  cases properties with
  | nil => exact ⟨rfl, trivial⟩
  | cons first others =>
      have hlines : Ty.lines ((first :: others).map fun p => (p.head, p.type)) =
          (first :: others).map fun p =>
            propertyLine p.isReadOnly p.isRequired p.name p.expression := by
        rw [Ty.lines_eq, List.map_map]
        refine List.map_congr_left fun p hp => ?_
        simp only [Function.comp_apply, (h p hp).text_eq]
        rfl
      refine ⟨?_, List.cons_ne_nil _ _, Ty.wellFormedLines_iff.2 ?_⟩
      · change (Ty.object ((first :: others).map fun p => (p.head, p.type))).text = _
        rw [Ty.text_object, hlines]
        rfl
      · exact List.forall_mem_map.2 fun p hp => (h p hp).wellFormed

/-- A well-formed type is written `null` or `any` only if it is that keyword. -/
theorem isNullWord_iff {text : String} {type : Ty} (h : Writes text type) :
    isNullWord type = true ↔ text = "null" ∨ text = "any" := by
  constructor
  · intro hword
    unfold isNullWord at hword
    split at hword
    · exact .inl h.text_eq.symm
    · exact .inr h.text_eq.symm
    · cases hword
  · have hread := Ty.read?_text h.wellFormed
    rw [h.text_eq] at hread
    rintro (rfl | rfl)
    · have hnull : Ty.read? "null" = some (.word .null) := 
        Ty.read?_text (show (Ty.word .null).WellFormed from trivial)
      rw [Option.some.inj (hread.symm.trans hnull)]
      rfl
    · have hany : Ty.read? "any" = some (.word .any) := 
        Ty.read?_text (show (Ty.word .any).WellFormed from trivial)
      rw [Option.some.inj (hread.symm.trans hany)]
      rfl

theorem writes_nullableType {text : String} {type : Ty} (h : Writes text type) (nullable : Bool) :
    Writes (withNull nullable text) (nullableType nullable type) := by
  have hword : isNullWord type = !(text != "null" && text != "any") := by
    rw [Bool.eq_iff_iff, isNullWord_iff h]
    simp only [Bool.not_and, bne, Bool.not_not, Bool.or_eq_true, beq_iff_eq]
  unfold withNull nullableType
  rw [hword, Bool.not_not, ← Bool.and_assoc]
  split
  · refine ⟨?_, le_rfl, h.wellFormed, trivial, trivial⟩
    have hend : " | " ++ ("null" ++ ")") = " | null)" := rfl
    change "(" ++ (type.text ++ " | " ++ "null") ++ ")" = "(" ++ text ++ " | null)"
    rw [h.text_eq, String.append_assoc, String.append_assoc, String.append_assoc, hend,
      String.append_assoc]
  · exact h

/-- What a model mentions are names of types, and no keywords. -/
def MentionsTypes (m : Model) : Prop :=
  ∀ name ∈ m.references, isIdentifier name = true ∧ name ∉ typeWords

theorem MentionsTypes.part {m part : Model} (h : m.MentionsTypes) (hpart : part ∈ m.parts) :
    part.MentionsTypes :=
  fun name hname => h name (mem_references_of_mem_parts hpart hname)

/-- The expression of a model is that of its type. -/
theorem writes_expression {m : Model} :
    m.Orderly → m.MentionsTypes → Writes m.expression m.type := by
  induction m using induction with
  | step m ih =>
      intro horderly h
      obtain ⟨hself, hinside⟩ := throughout_iff.1 horderly
      have hparts : ∀ part ∈ m.parts, Writes part.expression part.type :=
        fun part hpart => ih part hpart (hinside part hpart) (h.part hpart)
      have hproperties : ∀ p ∈ m.properties, Writes p.expression p.type :=
        fun p hp => hparts p (List.mem_append_right _ hp)
      have hlink : Writes ((m.link.map expression).getD "any")
          ((m.link.map type).getD (.word .any)) := by
        cases hm : m.link with
        | none => exact ⟨rfl, trivial⟩
        | some link => exact hparts link (by simp [parts, hm])
      rw [expression_eq, type_eq]
      refine writes_nullableType ?_ _
      unfold ownType
      cases hkind : m.kind with
      | reference => exact ⟨rfl, h _ (base_mem_references hkind)⟩
      | primitive => exact writes_baseType m.base
      | enumeration =>
          dsimp only
          unfold unionOfValues
          split
          · exact writes_baseType m.base
          · exact writes_union fun member hmember =>
              writes_literal (hself.isLiteral hkind member hmember)
      | array =>
          exact ⟨by rw [Ty.text_array, hlink.text_eq], hlink.wellFormed⟩
      | dictionary =>
          exact ⟨by rw [Ty.text_record, hlink.text_eq], hlink.wellFormed⟩
      | interface => exact writes_objectOf hproperties
      | oneOf => exact writes_union hproperties
      | anyOf => exact writes_union hproperties
      | allOf => exact writes_intersection hproperties

/-- The type is what is read from the expression. -/
theorem read?_expression {m : Model} (horderly : m.Orderly) (h : m.MentionsTypes) :
    Ty.read? m.expression = some m.type := by
  obtain ⟨htext, hwellFormed⟩ := writes_expression horderly h
  rw [← htext, Ty.read?_text hwellFormed]

end Model

end TypedClient
