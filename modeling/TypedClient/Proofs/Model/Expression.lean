import TypedClient.Model.Expression
import TypedClient.Proofs.Model.Parts
import TypedClient.Proofs.Script.Literal

/-!
# Type expressions

A type expression is made of names, literals, property names and punctuation. What all of these have,
and what passes on from the parts of a type to the whole, every type has (`IsCompositional`). In this
way the type of a model can be written wherever the code is calm, if the definitions that it mentions
have names: `isCalmType_expression`.
-/

namespace TypedClient.Model

open Script Script.Lexer

/-! ## The expression in terms of the parts -/

theorem expressions_eq (ms : List Model) : expressions ms = ms.map expression := by
  induction ms with
  | nil => rfl
  | cons m ms ih => simp [expressions, ih]

theorem propertyLines_eq (ms : List Model) :
    propertyLines ms =
      ms.map fun m => propertyLine m.isReadOnly m.isRequired m.name m.expression := by
  induction ms with
  | nil => rfl
  | cons m ms ih => simp [propertyLines, ih]

theorem linkExpression_eq (link : Option Model) :
    linkExpression link = (link.map expression).getD "any" := by
  cases link <;> rfl

/-- A type for its kind, before `null` is added. -/
theorem expression_eq (m : Model) :
    m.expression = withNull m.isNullable (match m.kind with
      | .reference => m.base
      | .primitive => primitiveType m.base
      | .enumeration => unionOfValues m.base m.members
      | .array => "Array<" ++ (m.link.map expression).getD "any" ++ ">"
      | .dictionary => "Record<string, " ++ (m.link.map expression).getD "any" ++ ">"
      | .interface => objectOfLines (m.properties.map fun p =>
          propertyLine p.isReadOnly p.isRequired p.name p.expression)
      | .oneOf => joinTypes " | " (m.properties.map expression)
      | .anyOf => joinTypes " | " (m.properties.map expression)
      | .allOf => joinTypes " & " (m.properties.map expression)) := by
  obtain ⟨_, kind⟩ := m
  cases kind <;> simp only [expression, linkExpression_eq, propertyLines_eq, expressions_eq]

/-! ## From the parts to the whole -/

/-- A property of texts which the types of the language have, and which passes on from the types of
the parts to those that are put together. -/
structure IsCompositional (P : String → Prop) : Prop where
  primitive : ∀ base, P (primitiveType base)
  withNull : ∀ type nullable, P type → P (withNull nullable type)
  joinTypes : ∀ operator ∈ [" | ", " & "], ∀ types, (∀ type ∈ types, P type) →
    P (joinTypes operator types)
  array : ∀ type, P type → P ("Array<" ++ type ++ ">")
  record : ∀ type, P type → P ("Record<string, " ++ type ++ ">")
  object : ∀ properties : List Model, (∀ p ∈ properties, P p.expression) →
    P (objectOfLines (properties.map fun p =>
      propertyLine p.isReadOnly p.isRequired p.name p.expression))

theorem IsCompositional.unionOfValues {P : String → Prop} (h : IsCompositional P) (base : String)
    {members : List Member} (hliterals : ∀ member ∈ members, P (Script.literal member.value)) :
    P (unionOfValues base members) := by
  unfold Model.unionOfValues
  split
  · exact h.primitive base
  · exact h.joinTypes _ (by simp) _ (List.forall_mem_map.2 hliterals)

/-- The literals and the names of definitions in the type of a model are all that it takes. -/
theorem IsCompositional.expression {P : String → Prop} (h : IsCompositional P) {m : Model}
    (hreferences : ∀ name ∈ m.references, P name)
    (hliterals : m.Throughout fun n => n.kind = .enumeration →
      ∀ member ∈ n.members, P (Script.literal member.value)) : P m.expression := by
  induction m using induction with
  | step m ih =>
      obtain ⟨hown, hinner⟩ := throughout_iff.1 hliterals
      have hparts : ∀ part ∈ m.parts, P part.expression := fun part hpart =>
        ih part hpart (fun name hname => hreferences name (mem_references_of_mem_parts hpart hname))
          (hinner part hpart)
      have hlink : P ((m.link.map Model.expression).getD "any") := by
        cases hm : m.link with
        | none => exact h.primitive "any"
        | some link => exact hparts link (by simp [parts, hm])
      have hproperties : ∀ p ∈ m.properties, P p.expression :=
        fun p hp => hparts p (List.mem_append_right _ hp)
      have hjoin : ∀ operator ∈ [" | ", " & "],
          P (Model.joinTypes operator (m.properties.map Model.expression)) :=
        fun operator hoperator =>
          h.joinTypes operator hoperator _ (List.forall_mem_map.2 hproperties)
      rw [expression_eq]
      refine h.withNull _ _ ?_
      -- Only a reference writes a name; everything else is put together from the parts.
      cases hkind : m.kind with
      | reference => exact hreferences m.base (base_mem_references hkind)
      | primitive => exact h.primitive m.base
      | enumeration => exact h.unionOfValues m.base (hown hkind)
      | array => exact h.array _ hlink
      | dictionary => exact h.record _ hlink
      | interface => exact h.object _ hproperties
      | oneOf => exact hjoin " | " (by simp)
      | anyOf => exact hjoin " | " (by simp)
      | allOf => exact hjoin " & " (by simp)

/-! ## Calm types -/

/-- A text can be written as a type wherever the code is calm. -/
def IsCalmType (type : String) : Prop := Passes Calm InCode type.toList

theorem isCalmType_of_isHarmless {type : String} (h : type.toList.all isHarmless = true) :
    IsCalmType type :=
  (passes_inCode (List.all_eq_true.1 h)).mono (fun _ => Calm.inCode) fun _ => id

theorem isCalmType_any : IsCalmType "any" := isCalmType_of_isHarmless (by decide)

/-- A type between punctuation. -/
theorem IsCalmType.around {type before after : String} (h : IsCalmType type)
    (hbefore : isSettling before.toList = true)
    (hafter : isSettling after.toList = true) :
    IsCalmType (before ++ type ++ after) := by
  rw [IsCalmType, String.toList_append, String.toList_append]
  have hopen := (passes_settling hbefore).mono (fun _ => Calm.inCode) fun _ => id
  exact (hopen.append h).append ((passes_settling hafter).mono (fun _ => id) fun _ => Calm.inCode)

theorem IsCalmType.parenthesize {type after : String} (h : IsCalmType type)
    (hafter : isSettling after.toList = true) :
    IsCalmType ("(" ++ type ++ after) := by
  have hparen : "(".toList = ['('] := by decide
  rw [IsCalmType, String.toList_append, String.toList_append, hparen]
  exact (passes_parenthesis.append h).append
    ((passes_settling hafter).mono (fun _ => id) fun _ => Calm.inCode)

theorem isCalmType_withNull {type : String} (h : IsCalmType type) (nullable : Bool) :
    IsCalmType (withNull nullable type) := by
  unfold withNull
  split
  · rw [String.append_assoc]
    exact h.parenthesize (by decide)
  · exact h

theorem isCalmType_primitiveType (base : String) : IsCalmType (primitiveType base) := by
  have hall : ∀ type ∈ ["number", "Blob", "string", "boolean", "null", "void", "any"],
      type.toList.all isHarmless = true := by decide
  have hmem : primitiveType base ∈
      ["number", "Blob", "string", "boolean", "null", "void", "any"] := by
    unfold primitiveType
    split
    · simp
    · split
      · simp
      · split
        · rename_i hbase
          simp only [List.mem_cons] at hbase ⊢
          tauto
        · simp
  exact isCalmType_of_isHarmless (hall _ hmem)

theorem isCalmType_joinTypes {operator : String}
    (hoperator : isSettling operator.toList = true) {types : List String}
    (h : ∀ type ∈ types, IsCalmType type) : IsCalmType (joinTypes operator types) := by
  unfold joinTypes
  split
  · exact isCalmType_any
  · exact h _ List.mem_cons_self
  · have hjoined : IsCalmType (Json.joinWith operator types) :=
      passes_joinWith (fun _ => Calm.inCode) (passes_settling hoperator) h
    exact hjoined.parenthesize (by decide)

/-- A property is written on a line of its own. -/
theorem passes_propertyLine {type : String} (h : IsCalmType type) (readOnly required : Bool)
    (name : String) : Passes Calm Calm (propertyLine readOnly required name type).toList := by
  have hreadOnly : Passes Calm Calm (if readOnly then "readonly " else "").toList := by
    cases readOnly with
    | false => exact .nil fun _ => id
    | true =>
        have hword : "readonly ".toList = ['r', 'e', 'a', 'd', 'o', 'n', 'l', 'y', ' '] := by decide
        rintro _ ⟨b, hb, rfl⟩
        have hletter : ({ mode := .code b } : Lexer).step 'r' =
          { mode := .code (b.letter 'r') } := rfl
        rw [if_pos rfl, hword, read_cons_of_found?_eq_none rfl, hletter,
          Before.letter_of_isCalm hb]
        exact ⟨⟨.word ['y', 'l', 'n', 'o', 'd', 'a', 'e', 'r'] true, by decide, rfl⟩, rfl⟩
  have hcolon : Passes InCode Calm ((if required then "" else "?") ++ ": ").toList := by
    cases required <;> exact passes_settling (by decide)
  have hend : Passes InCode Calm ";\n".toList := passes_settling (by decide)
  have hline : (propertyLine readOnly required name type).toList =
      (if readOnly then "readonly " else "").toList ++ (propertyKey name).toList ++
        ((if required then "" else "?") ++ ": ").toList ++ type.toList ++ ";\n".toList := by
    simp only [propertyLine, String.toList_append, List.append_assoc]
  rw [hline]
  exact (((hreadOnly.append (passes_propertyKey name)).append hcolon).append h).append hend

theorem isCalmType_objectOfLines {lines : List String}
    (h : ∀ line ∈ lines, Passes Calm Calm line.toList) : IsCalmType (objectOfLines lines) := by
  unfold objectOfLines
  split
  · exact isCalmType_of_isHarmless (by decide)
  · have hlines : IsCalmType (Text.concat lines) := by
      have hcalm : Passes Calm Calm (Text.concat lines).toList := by
        clear * - h
        induction lines with
        | nil => exact .nil fun _ => id
        | cons line rest ih =>
            rw [Text.concat, List.foldr_cons, String.toList_append]
            exact (h line List.mem_cons_self).append
              (ih fun other hother => h other (List.mem_cons_of_mem _ hother))
      exact hcalm.mono (fun _ => id) fun _ => Calm.inCode
    exact hlines.around (by decide) (by decide)

theorem isCompositional_isCalmType : IsCompositional IsCalmType where
  primitive := isCalmType_primitiveType
  withNull _ nullable h := isCalmType_withNull h nullable
  joinTypes operator hoperator _ h := by
    have hsettling : ∀ operator ∈ [" | ", " & "], isSettling operator.toList = true := by decide
    exact isCalmType_joinTypes (hsettling operator hoperator) h
  array _ h := h.around (by decide) (by decide)
  record _ h := h.around (by decide) (by decide)
  object _ h := isCalmType_objectOfLines (List.forall_mem_map.2 fun p hp =>
    passes_propertyLine (h p hp) _ _ _)

/-- A type whose definitions have names can be written wherever the code is calm. -/
theorem isCalmType_expression {m : Model}
    (h : ∀ name ∈ m.references, ∀ c ∈ name.toList, Naming.isNameChar c = true) :
    IsCalmType m.expression :=
  isCompositional_isCalmType.expression
    (fun name hname => (passes_name (h name hname)).mono (fun _ => Calm.inCode) fun _ => id)
    fun _ _ _ member _ => passes_literal member.value

end TypedClient.Model
