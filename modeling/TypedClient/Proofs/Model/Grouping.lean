import TypedClient.Proofs.Model.Expression
import TypedClient.Proofs.Script.Grouping

/-!
# Types keep their grouping

Whatever a model is built of, its type is primary: unions and intersections stand in brackets, and
literals and property names are quoted where they hold something else than a name. So the type can
be a member of a union or an intersection, an element, a value or a property of another one, and no
operator is taken for that of its surroundings (`expression_keeps_grouping`).
-/

namespace TypedClient.Model

open Script

/-! ## Parts of types -/

section

variable {type operator : String} {types lines : List String}

theorem isPrimary_withNull (h : IsPrimary type.toList) (nullable : Bool) :
    IsPrimary (withNull nullable type).toList := by
  unfold withNull
  split
  · have hnull : IsMatched " | null".toList := isMatched_of_isLevel (by decide)
    have htext : ("(" ++ type ++ " | null)").toList =
        '(' :: (type.toList ++ " | null".toList) ++ [')'] := by
      simp [String.toList_append]
    rw [htext]
    exact isPrimary_bracketed rfl (h.isMatched.append hnull)
  · exact h

theorem isPrimary_primitiveType (base : String) : IsPrimary (primitiveType base).toList := by
  unfold primitiveType
  split
  · exact isPrimary_of_isAtomic (by decide)
  · split
    · exact isPrimary_of_isAtomic (by decide)
    · split
      · rename_i hbase
        have hall : ∀ type ∈ ["string", "boolean", "null", "void", "any"],
            type.toList.all isAtomic = true := by decide
        exact isPrimary_of_isAtomic (hall base hbase)
      · exact isPrimary_of_isAtomic (by decide)

/-- Several types are joined in brackets, and a single one is primary itself. -/
theorem isPrimary_joinTypes (hoperator : operator.toList.all isLevel = true)
    (h : ∀ type ∈ types, IsPrimary type.toList) :
    IsPrimary (joinTypes operator types).toList := by
  unfold joinTypes
  split
  · exact isPrimary_of_isAtomic (by decide)
  · exact h _ List.mem_cons_self
  · have hjoined : IsMatched (Json.joinWith operator types).toList :=
      .joinWith (isMatched_of_isLevel hoperator) fun type htype => (h type htype).isMatched
    rw [String.toList_append, String.toList_append]
    exact isPrimary_bracketed rfl hjoined

theorem isMatched_propertyLine (h : IsMatched type.toList) (readOnly required : Bool)
    (name : String) : IsMatched (propertyLine readOnly required name type).toList := by
  have hreadOnly : IsMatched (if readOnly then "readonly " else "").toList := by
    cases readOnly <;> exact isMatched_of_isLevel (by decide)
  have hmark : IsMatched (if required then "" else "?").toList := by
    cases required <;> exact isMatched_of_isLevel (by decide)
  have hcolon : IsMatched ": ".toList := isMatched_of_isLevel (by decide)
  have hend : IsMatched ";\n".toList := isMatched_of_isLevel (by decide)
  have hkey := (isPrimary_propertyKey name).isMatched
  simp only [propertyLine, String.toList_append]
  exact ((((hreadOnly.append hkey).append hmark).append hcolon).append h).append hend

/-- A type between the brackets of a generic one. -/
theorem isPrimary_generic {before : String} {name inner : List Char}
    (hbefore : before.toList = name ++ '<' :: inner) (hname : name.all isAtomic = true)
    (hinner : inner.all isLevel = true) (h : IsMatched type.toList) :
    IsPrimary (before ++ type ++ ">").toList := by
  have htext : (before ++ type ++ ">").toList =
      name ++ ('<' :: (inner ++ type.toList) ++ ['>']) := by
    simp [String.toList_append, hbefore]
  rw [htext]
  exact (isPrimary_of_isAtomic hname).append
    (isPrimary_bracketed rfl ((isMatched_of_isLevel hinner).append h))

theorem isPrimary_array (h : IsMatched type.toList) :
    IsPrimary ("Array<" ++ type ++ ">").toList := by
  have hbefore : "Array<".toList = "Array".toList ++ '<' :: [] := by decide
  exact isPrimary_generic hbefore (by decide) rfl h

theorem isPrimary_record (h : IsMatched type.toList) :
    IsPrimary ("Record<string, " ++ type ++ ">").toList := by
  have hbefore : "Record<string, ".toList = "Record".toList ++ '<' :: "string, ".toList := by
    decide
  exact isPrimary_generic hbefore (by decide) (by decide) h

theorem isPrimary_objectOfLines (h : ∀ line ∈ lines, IsMatched line.toList) :
    IsPrimary (objectOfLines lines).toList := by
  unfold objectOfLines
  split
  · have hany : IsMatched "any".toList := isMatched_of_isLevel (by decide)
    have htext : "Record<string, any>" = "Record<string, " ++ "any" ++ ">" := by decide
    rw [htext]
    exact isPrimary_record hany
  · have hlines : IsMatched (Text.concat lines).toList := by
      clear * - h
      induction lines with
      | nil => rfl
      | cons line rest ih =>
          rw [Text.concat, List.foldr_cons, String.toList_append]
          exact (h line List.mem_cons_self).append
            (ih fun other hother => h other (List.mem_cons_of_mem _ hother))
    have hfeed : IsMatched ['\n'] := isMatched_of_isLevel (by decide)
    have htext : ("\x7b\n" ++ Text.concat lines ++ "\x7d").toList =
        '\x7b' :: (['\n'] ++ (Text.concat lines).toList) ++ ['\x7d'] := by
      simp [String.toList_append]
    rw [htext]
    exact isPrimary_bracketed rfl (hfeed.append hlines)

end

/-! ## Types -/

/-- The values of an enumeration are strings, numbers and booleans. -/
def HasScalarMembers (m : Model) : Prop :=
  m.kind = .enumeration → ∀ member ∈ m.members, member.value.IsScalar

theorem isCompositional_isPrimary : IsCompositional fun type => IsPrimary type.toList where
  primitive := isPrimary_primitiveType
  withNull _ nullable h := isPrimary_withNull h nullable
  joinTypes operator hoperator _ h := by
    have hlevel : ∀ operator ∈ [" | ", " & "], operator.toList.all isLevel = true := by decide
    exact isPrimary_joinTypes (hlevel operator hoperator) h
  array _ h := isPrimary_array h.isMatched
  record _ h := isPrimary_record h.isMatched
  object _ h := isPrimary_objectOfLines (List.forall_mem_map.2 fun p hp =>
    isMatched_propertyLine (h p hp).isMatched _ _ _)

theorem isPrimary_expression {m : Model}
    (hreferences : ∀ name ∈ m.references, isIdentifier name = true)
    (hvalues : m.Throughout HasScalarMembers) : IsPrimary m.expression.toList :=
  isCompositional_isPrimary.expression
    (fun name hname => isPrimary_identifier (hreferences name hname))
    fun n hwithin hkind member hmember => isPrimary_literal (hvalues n hwithin hkind member hmember)

/-- If the names that a model refers to are identifiers and the values of its enumerations are
strings, numbers and booleans, then the brackets of its type match, and no union or intersection
stands outside of them. Wherever the type is written, in whatever brackets and before whatever
text, it belongs to one operand of every bracket around it. -/
theorem expression_keeps_grouping (m : Model)
    (hreferences : ∀ name ∈ m.references, isIdentifier name = true)
    (hvalues : m.Throughout HasScalarMembers) :
    Grouping.read {} m.expression.toList = some {} ∧
      (∀ c ∈ Grouping.outside {} m.expression.toList, c ≠ '|' ∧ c ≠ '&') ∧
      ∀ operator ∈ ['|', '&'], ∀ base floor, floor <:+ base → ∀ rest,
        Grouping.operands operator floor { awaited := base } (m.expression.toList ++ rest) =
          (Grouping.operands operator floor { awaited := base } rest).modifyHead
            (m.expression.toList ++ ·) := by
  have hprimary := isPrimary_expression hreferences hvalues
  refine ⟨hprimary.isMatched, fun c hc => ?_, ?_⟩
  · simpa [isOperator] using hprimary.outside c hc
  · intro operator hoperator base floor hfloor rest
    refine hprimary.operands_append ?_ hfloor rest
    simpa [isOperator] using hoperator

/-- A list of references, literals and objects, with operators and brackets in quotes. -/
def mixedList : Model where
  name := "tags"
  kind := .array
  base := "any"
  isNullable := true
  link := some
    { name := "", kind := .oneOf, base := "any"
      properties :=
        [{ name := "", kind := .allOf, base := "any", properties := [.reference "" "Tag"] },
          { name := "", kind := .enumeration, base := "string"
            members := [⟨"A", .string "a | b)", none⟩, ⟨"B", .string "it's", none⟩] },
          { name := "", kind := .interface, base := "any", isNullable := true
            properties := [.reference "x-&" "Owner", .primitive "size" "number"] }] }

theorem mixedList_keeps_grouping :
    ((∀ name ∈ mixedList.references, isIdentifier name = true) ∧
      mixedList.Throughout HasScalarMembers) ∧
    Grouping.read {} mixedList.expression.toList = some {} ∧
      (∀ c ∈ Grouping.outside {} mixedList.expression.toList, c ≠ '|' ∧ c ≠ '&') ∧
      ∀ operator ∈ ['|', '&'], ∀ base floor, floor <:+ base → ∀ rest,
        Grouping.operands operator floor { awaited := base } (mixedList.expression.toList ++ rest) =
          (Grouping.operands operator floor { awaited := base } rest).modifyHead
            (mixedList.expression.toList ++ ·) := by
  have hreferences : ∀ name ∈ mixedList.references, isIdentifier name = true := by decide
  have hvalues : mixedList.Throughout HasScalarMembers := by
    have hother : ∀ {m : Model}, m.kind ≠ .enumeration →
        (∀ part ∈ m.parts, part.Throughout HasScalarMembers) → m.Throughout HasScalarMembers :=
      fun hkind hparts => throughout_iff.2 ⟨fun h => absurd h hkind, hparts⟩
    have hstrings : ∀ member ∈ [Member.mk "A" (.string "a | b)") none,
        Member.mk "B" (.string "it's") none], member.value.IsScalar := by
      simp [Json.IsScalar]
    have hempty : ∀ part ∈ ([] : List Model), part.Throughout HasScalarMembers :=
      fun _ h => absurd h List.not_mem_nil
    refine hother (by decide) (List.forall_mem_singleton.2 (hother (by decide) ?_))
    refine List.forall_mem_cons.2 ⟨?_, List.forall_mem_cons.2 ⟨?_, List.forall_mem_singleton.2 ?_⟩⟩
    · exact hother (by decide) (List.forall_mem_singleton.2 (hother (by decide) hempty))
    · exact throughout_iff.2 ⟨fun _ => hstrings, hempty⟩
    · exact hother (by decide) (List.forall_mem_cons.2
        ⟨hother (by decide) hempty, List.forall_mem_singleton.2 (hother (by decide) hempty)⟩)
  exact ⟨⟨hreferences, hvalues⟩, expression_keeps_grouping mixedList hreferences hvalues⟩

end TypedClient.Model
