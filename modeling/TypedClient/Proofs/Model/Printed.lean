import TypedClient.Proofs.Model.Expression
import TypedClient.Proofs.Model.Lifting

/-!
# The names that a type mentions

A type mentions a name if it is written differently as soon as the references with this name lead
elsewhere (`IsMentioned`). References are listed wherever they stand, but only the parts that its
kind shows are written in the type of a model. Where a model shows all of its parts, both come to
the same: `isMentioned_typeTexts_iff`. To see it, a mark is put behind the name, and every reference
adds one mark to the type (`marks_expression_redirect`).
-/

namespace TypedClient

namespace Model

variable {m : Model} {name : String}

/-- A name is mentioned in something that is written with references: it is written differently if
the references with this name, and no others, are redirected. -/
def IsMentioned {α : Type} (write : (String → String) → α) (name : String) : Prop :=
  ∃ target : String → String, (∀ other, other ≠ name → target other = other) ∧
    write target ≠ write id

/-- The texts in which the type of a model is written: its expression and, for an interface, the
expressions of its properties. -/
def typeTexts (m : Model) : List String :=
  m.expression :: if m.kind = .interface then m.properties.map expression else []

/-- The kind of a model shows all of its parts, and so do the parts. -/
abbrev ShowsAll (m : Model) : Prop := m.Throughout fun n => n.schemaParts = n.parts

theorem IsFlat.showsAll (h : m.IsFlat) : m.ShowsAll :=
  throughout_iff.2 ⟨h.shows, fun part hpart n hwithin => (h.inner part hpart n hwithin).shows⟩

/-! ## Marks -/

/-- A mark behind one name. -/
def marked (name other : String) : String := if other = name then other ++ "$" else other

/-- How many marks there are in a text. -/
def marks (text : String) : Nat := text.toList.count '$'

@[simp]
theorem marks_append (text rest : String) : marks (text ++ rest) = marks text + marks rest := by
  simp [marks]

theorem marks_marked (name other : String) :
    marks (marked name other) = marks other + [other].count name := by
  have hmark : marks "$" = 1 := by decide
  unfold marked
  by_cases h : other = name
  · rw [if_pos h, marks_append, hmark, h, List.count_singleton_self]
  · rw [if_neg h, List.count_singleton, if_neg (by simpa using h), Nat.add_zero]

theorem marks_joinWith {operator : String} (hoperator : marks operator = 0) (texts : List String) :
    marks (Json.joinWith operator texts) = (texts.map marks).sum := by
  induction texts with
  | nil => rfl
  | cons text rest ih =>
      cases rest with
      | nil => simp [Json.joinWith]
      | cons next others =>
          have htext : Json.joinWith operator (text :: next :: others) =
              text ++ operator ++ Json.joinWith operator (next :: others) := rfl
          rw [htext, marks_append, marks_append, hoperator, Nat.add_zero, ih]
          exact List.sum_cons.symm

theorem marks_concat (texts : List String) : marks (Text.concat texts) = (texts.map marks).sum := by
  induction texts with
  | nil => rfl
  | cons text rest ih =>
      rw [Text.concat, List.foldr_cons, marks_append, List.map_cons, List.sum_cons, ← ih]
      rfl

theorem marks_withNull (nullable : Bool) (type : String) :
    marks (withNull nullable type) = marks type := by
  have hopen : marks "(" = 0 := by decide
  have hclose : marks " | null)" = 0 := by decide
  unfold withNull
  split
  · simp [hopen, hclose]
  · rfl

theorem marks_joinTypes {operator : String} (hoperator : marks operator = 0) (types : List String) :
    marks (joinTypes operator types) = (types.map marks).sum := by
  have hany : marks "any" = 0 := by decide
  have hopen : marks "(" = 0 := by decide
  have hclose : marks ")" = 0 := by decide
  unfold joinTypes
  split
  · exact hany
  · simp
  · simp [hopen, hclose, marks_joinWith hoperator]

theorem marks_objectOfLines (lines : List String) :
    marks (objectOfLines lines) = (lines.map marks).sum := by
  have hrecord : marks "Record<string, any>" = 0 := by decide
  have hopen : marks "\x7b\n" = 0 := by decide
  have hclose : marks "\x7d" = 0 := by decide
  unfold objectOfLines
  split
  · exact hrecord
  · simp [hopen, hclose, marks_concat]

theorem marks_propertyLine (readOnly required : Bool) (name type : String) :
    marks (propertyLine readOnly required name type) =
      marks (Script.propertyKey name) + marks type := by
  have hreadOnly : marks (if readOnly then "readonly " else "") = 0 := by
    cases readOnly <;> decide
  have hrequired : marks (if required then "" else "?") = 0 := by
    cases required <;> decide
  have hcolon : marks ": " = 0 := by decide
  have hend : marks ";\n" = 0 := by decide
  simp [propertyLine, hreadOnly, hrequired, hcolon, hend]

/-- The marks that a type has beside those of the types of its parts. -/
def ownMarks (m : Model) : Nat :=
  match m.kind with
  | .reference => marks m.base
  | .primitive => marks (primitiveType m.base)
  | .enumeration => marks (unionOfValues m.base m.members)
  | .interface => (m.properties.map fun p => marks (Script.propertyKey p.name)).sum
  | .array | .dictionary | .oneOf | .anyOf | .allOf => 0

/-- The marks of a type are its own and those of the types of the parts that its kind shows. -/
theorem marks_expression (m : Model) :
    marks m.expression = m.ownMarks + (m.schemaParts.map fun p => marks p.expression).sum := by
  have harray : marks "Array<" = 0 := by decide
  have hrecord : marks "Record<string, " = 0 := by decide
  have hclose : marks ">" = 0 := by decide
  have hany : marks "any" = 0 := by decide
  have hor : marks " | " = 0 := by decide
  have hand : marks " & " = 0 := by decide
  have hlink : marks ((m.link.map expression).getD "any") =
      (m.link.toList.map fun p => marks p.expression).sum := by
    cases m.link <;> simp [hany]
  rw [expression_eq, marks_withNull, ownMarks, schemaParts]
  cases m.kind with
  | reference => simp
  | primitive => simp
  | enumeration => simp
  | array => simp [harray, hclose, hlink]
  | dictionary => simp [hrecord, hclose, hlink]
  | interface => simp [marks_objectOfLines, Function.comp_def, marks_propertyLine, List.sum_map_add]
  | oneOf => simp [marks_joinTypes hor, Function.comp_def]
  | anyOf => simp [marks_joinTypes hor, Function.comp_def]
  | allOf => simp [marks_joinTypes hand, Function.comp_def]

theorem ownMarks_redirect (name : String) (m : Model) :
    (m.redirect (marked name)).ownMarks =
      m.ownMarks + (if m.kind = .reference then [m.base] else []).count name := by
  rw [redirect_eq, ownMarks, ownMarks]
  cases hkind : m.kind with
  | reference => simp [marks_marked]
  | interface => simp [Function.comp_def]
  | primitive => simp
  | enumeration => simp
  | array => simp
  | dictionary => simp
  | oneOf => simp
  | anyOf => simp
  | allOf => simp

/-- Every reference is written once: a mark behind a name adds as many marks to the type as the
model has references with the name. -/
theorem marks_expression_redirect (name : String) (h : m.ShowsAll) :
    marks (m.redirect (marked name)).expression = marks m.expression + m.references.count name := by
  induction m using induction with
  | step m ih =>
      obtain ⟨hself, hparts⟩ := throughout_iff.1 h
      have hsum : (m.parts.map fun p => marks (p.redirect (marked name)).expression).sum =
          (m.parts.map fun p => marks p.expression).sum +
            (m.parts.map fun p => p.references.count name).sum := by
        rw [← List.sum_map_add]
        exact congrArg List.sum (List.map_congr_left fun p hp => ih p hp (hparts p hp))
      have hreferences : m.references.count name =
          (if m.kind = .reference then [m.base] else []).count name +
            (m.parts.map fun p => p.references.count name).sum := by
        rw [references_eq, List.count_append, List.count_flatMap]
        rfl
      rw [marks_expression, ownMarks_redirect, schemaParts_redirect, List.map_map, hself,
        marks_expression m, hself, hreferences]
      simp only [Function.comp_def, hsum]
      omega

/-! ## What is mentioned -/

/-- The type of a model that shows all of its parts mentions exactly the names of the references
that stand in it, at any depth. -/
theorem isMentioned_typeTexts_iff (h : m.ShowsAll) :
    IsMentioned (fun target => (m.redirect target).typeTexts) name ↔ name ∈ m.references := by
  constructor
  · rintro ⟨target, hothers, hchanged⟩
    by_contra hname
    have hself : m.redirect target = m :=
      redirect_eq_self fun other hother => hothers other fun heq => hname (heq ▸ hother)
    have hsame : (m.redirect target).typeTexts = (m.redirect id).typeTexts := by
      rw [hself, redirect_id]
    exact hchanged hsame
  · intro hname
    refine ⟨marked name, fun other hother => if_neg hother, fun hsame => ?_⟩
    have hexpression : (m.redirect (marked name)).expression = (m.redirect id).expression :=
      (List.cons.inj hsame).1
    have hmarks := marks_expression_redirect name h
    have hcount : 0 < m.references.count name := List.count_pos_iff.2 hname
    rw [hexpression, redirect_id] at hmarks
    omega

end Model

end TypedClient
