import TypedClient.Proofs.Json.Value
import TypedClient.Script.Literal

/-!
# Types

The types that the generated code is written with: keywords, names, literals, arrays, records,
object types, unions and intersections. `Ty.text` is how a type is written, and `Ty.Has` says which
JSON values are of a type: `type.Has references value`, where the values of a name are given by
`references`.
-/

namespace TypedClient.Script

/-- The types that have a keyword. -/
inductive TypeWord where
  | any
  | number
  | string
  | boolean
  | null
  | void
deriving DecidableEq, Repr

/-- What stands before the type of a property. -/
structure PropertyHead where
  isReadOnly : Bool
  key : String
  isRequired : Bool
deriving DecidableEq, Repr

/-- A type. -/
inductive Ty where
  | word (word : TypeWord)
  | name (name : String)
  | string (value : String)
  | numeral (text : String)
  | flag (value : Bool)
  | array (item : Ty)
  | record (value : Ty)
  | object (properties : List (PropertyHead × Ty))
  | union (members : List Ty)
  | intersection (members : List Ty)
deriving Repr

namespace TypeWord

/-- The keyword. -/
def text : TypeWord → String
  | any => "any"
  | number => "number"
  | string => "string"
  | boolean => "boolean"
  | null => "null"
  | void => "void"

/-- All types that have a keyword. -/
def all : List TypeWord := [any, number, string, boolean, null, void]

/-- The values of a type that has a keyword. -/
def Has : TypeWord → Json → Prop
  | any, _ => True
  | number, value => ∃ n, value = .number n
  | string, value => ∃ s, value = .string s
  | boolean, value => ∃ b, value = .bool b
  | null, value => value = .null
  | void, _ => False

end TypeWord

/-- How the line of a property starts. -/
def PropertyHead.text (head : PropertyHead) : String :=
  (if head.isReadOnly then "readonly " else "") ++ propertyKey head.key ++
    (if head.isRequired then "" else "?") ++ ": "

namespace Ty

mutual

/-- A type as it is written. -/
def text : Ty → String
  | .word w => w.text
  | .name n => n
  | .string s => quoted s
  | .numeral t => t
  | .flag b => if b then "true" else "false"
  | .array item => "Array<" ++ text item ++ ">"
  | .record value => "Record<string, " ++ text value ++ ">"
  | .object properties => "\x7b\n" ++ Text.concat (lines properties) ++ "\x7d"
  | .union members => "(" ++ Json.joinWith " | " (texts members) ++ ")"
  | .intersection members => "(" ++ Json.joinWith " & " (texts members) ++ ")"

/-- The lines of an object type. -/
def lines : List (PropertyHead × Ty) → List String
  | [] => []
  | (head, type) :: rest => (head.text ++ text type ++ ";\n") :: lines rest

/-- The texts of some types. -/
def texts : List Ty → List String
  | [] => []
  | type :: rest => text type :: texts rest

end

mutual

/-- The values of a type. An object may have more members than its type says. -/
def Has (references : String → Json → Prop) : Ty → Json → Prop
  | .word w, value => w.Has value
  | .name n, value => references n value
  | .string s, value => value = .string s
  | .numeral t, value => ∃ n k : Json.Number,
      n.ReadsAs (Decimal.numeralValue t.toList) ∧ n.value = k.value ∧ value = .number k
  | .flag b, value => value = .bool b
  | .array item, value => ∃ items, value = .array items ∧ ∀ x ∈ items, Has references item x
  | .record type, value =>
    ∃ members, value = .object members ∧ ∀ member ∈ members, Has references type member.2
  | .object properties, value =>
    ∃ members, value = .object members ∧ HasProperties references properties members
  | .union types, value => HasSome references types value
  | .intersection types, value => HasEach references types value

/-- The members of an object are of the types of its properties, and the required ones are there. -/
def HasProperties (references : String → Json → Prop) :
    List (PropertyHead × Ty) → List (String × Json) → Prop
  | [], _ => True
  | (head, type) :: rest, members =>
    ((head.isRequired = true → (members.lookup head.key).isSome) ∧
      ∀ member, members.lookup head.key = some member → Has references type member) ∧
      HasProperties references rest members

/-- A value is of some of the types. -/
def HasSome (references : String → Json → Prop) : List Ty → Json → Prop
  | [], _ => False
  | type :: rest, value => Has references type value ∨ HasSome references rest value

/-- A value is of all types. -/
def HasEach (references : String → Json → Prop) : List Ty → Json → Prop
  | [], _ => True
  | type :: rest, value => Has references type value ∧ HasEach references rest value

end

/-- A property of all types holds if it passes from the types inside one to the whole. -/
theorem induction {P : Ty → Prop} (word : ∀ w, P (.word w)) (name : ∀ n, P (.name n))
    (string : ∀ s, P (.string s)) (numeral : ∀ t, P (.numeral t)) (flag : ∀ b, P (.flag b))
    (array : ∀ item, P item → P (.array item)) (record : ∀ value, P value → P (.record value))
    (object : ∀ properties : List (PropertyHead × Ty),
      (∀ property ∈ properties, P property.2) → P (.object properties))
    (union : ∀ members : List Ty, (∀ member ∈ members, P member) → P (.union members))
    (intersection : ∀ members : List Ty,
      (∀ member ∈ members, P member) → P (.intersection members))
    (type : Ty) : P type :=
  Ty.rec word name string numeral flag array record object union intersection
    (fun _ h => absurd h List.not_mem_nil)
    (fun _ _ hproperty hrest => List.forall_mem_cons.2 ⟨hproperty, hrest⟩)
    (fun _ h => absurd h List.not_mem_nil)
    (fun _ _ hmember hrest => List.forall_mem_cons.2 ⟨hmember, hrest⟩)
    (fun _ _ h => h) type

variable {references : String → Json → Prop} {value : Json}

theorem hasSome_iff {types : List Ty} :
    HasSome references types value ↔ ∃ type ∈ types, Has references type value := by
  induction types with
  | nil => simp [HasSome]
  | cons type rest ih => simp [HasSome, ih]

theorem hasEach_iff {types : List Ty} :
    HasEach references types value ↔ ∀ type ∈ types, Has references type value := by
  induction types with
  | nil => simp [HasEach]
  | cons type rest ih => simp [HasEach, ih]

theorem hasProperties_iff {properties : List (PropertyHead × Ty)}
    {members : List (String × Json)} :
    HasProperties references properties members ↔
      ∀ property ∈ properties,
        (property.1.isRequired = true → (members.lookup property.1.key).isSome) ∧
          ∀ member, members.lookup property.1.key = some member →
            Has references property.2 member := by
  induction properties with
  | nil => simp [HasProperties]
  | cons property rest ih =>
      obtain ⟨head, type⟩ := property
      rw [HasProperties, ih, List.forall_mem_cons]

theorem text_array (item : Ty) : (array item).text = "Array<" ++ item.text ++ ">" := rfl

theorem text_record (value : Ty) :
    (record value).text = "Record<string, " ++ value.text ++ ">" := rfl

theorem text_object (properties : List (PropertyHead × Ty)) :
    (object properties).text = "\x7b\n" ++ Text.concat (lines properties) ++ "\x7d" := rfl

theorem texts_eq (types : List Ty) : texts types = types.map text := by
  induction types with
  | nil => rfl
  | cons type rest ih => simp [texts, ih]

theorem lines_eq (properties : List (PropertyHead × Ty)) :
    lines properties = properties.map fun property =>
      property.1.text ++ property.2.text ++ ";\n" := by
  induction properties with
  | nil => rfl
  | cons property rest ih => simp [lines, ih]

end Ty

end TypedClient.Script
