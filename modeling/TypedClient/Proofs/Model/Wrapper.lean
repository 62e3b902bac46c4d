import TypedClient.Proofs.Model.Embed

/-!
# Models of wrappers that only add `null`

`w.around s` wraps a schema. The outline of a wrapper looks through everything that it wraps,
its model through one wrapper, or two for an inline object. So a wrapper is transparent as
long as no further one is left below (`around_transparent`): the model is that of the wrapped
schema, except that it accepts `null`. One more wrapper, and the outline still tells the kind
of the innermost schema while the parts are read off a schema that has none
(`definition_around_around`).
-/

namespace TypedClient

/-- The compositions in which a schema can be wrapped. -/
inductive Wrapper where
  | anyOf
  | oneOf
deriving DecidableEq, Repr

namespace Wrapper

/-- The schema that adds `null` to another one. -/
def around (w : Wrapper) (s : Schema) : Schema :=
  let null : Schema := { type := some (.single "null") }
  match w with
  | .anyOf => { anyOf := some [s, null] }
  | .oneOf => { oneOf := some [s, null] }

variable (w : Wrapper) {s : Schema}

@[simp]
theorem isNullType_around : (w.around s).isNullType = false := by cases w <;> rfl

/-- A wrapper wraps the schema that it is put around. -/
theorem wrapped?_around (hs : s.isNullType = false) : (w.around s).wrapped? = some s := by
  have hnull : Schema.isNullType { type := some (.single "null") } = true := rfl
  cases w <;> simp [around, Schema.wrapped?, Schema.soleMember?, hs, hnull]

/-- The outline sees only what is wrapped. -/
theorem outline_around (hs : s.isNullType = false) :
    (w.around s).outline = { s.outline with nullable := true } :=
  Schema.outline_of_wrapped (w.wrapped?_around hs)

theorem unwrapped_around (hs : s.isNullType = false) : (w.around s).unwrapped = s := by
  simp [Schema.unwrapped, w.wrapped?_around hs]

end Wrapper

/-- After `n` wrappers have been taken off, none is left to take off: then a wrapper more makes
no difference. References and primitive types have no parts to look for. -/
def Schema.WithinReach (n : Nat) (s : Schema) : Prop :=
  (s.unwrap n).wrapped? = none ∨ s.outline.shape = .reference ∨ s.outline.shape = .primitive

theorem Schema.unwrap_succ_of_not_wrapped {n : Nat} {s : Schema}
    (h : (s.unwrap n).wrapped? = none) : s.unwrap (n + 1) = s.unwrap n := by
  induction n generalizing s with
  | zero => exact unwrap_of_not_wrapped 1 h
  | succ n ih =>
      cases hs : s.wrapped? with
      | none => rw [unwrap_of_not_wrapped _ hs, unwrap_of_not_wrapped _ hs]
      | some inner =>
          rw [unwrap_succ_of_wrapped _ hs] at h ⊢
          rw [unwrap_succ_of_wrapped _ hs, ih h]

namespace Model

/-- Two models describe the same type, but perhaps for `null`. -/
structure SameType (m m' : Model) : Prop where
  kind_eq : m.kind = m'.kind
  base_eq : m.base = m'.base
  link_eq : m.link = m'.link
  members_eq : m.members = m'.members
  properties_eq : m.properties = m'.properties

/-- Two definitions have the same name and describe the same type. -/
structure SameDefinition (m m' : Model) : Prop extends SameType m m' where
  name_eq : m.name = m'.name
  isNullable_eq : m.isNullable = m'.isNullable

/-- What is built from a wrapper and from the schema that it wraps: the same type, which accepts
`null`, and the same lifted definitions. -/
structure Transparent (wrapper inner : Model × List Model) : Prop where
  sameType : SameType wrapper.1 inner.1
  isNullable : wrapper.1.isNullable = true
  lifted : List.Forall₂ SameDefinition wrapper.2 inner.2

/-- The same build, with a model that accepts `null`. -/
def nullable (built : Model × List Model) : Model × List Model :=
  ({ built.1 with isNullable := true }, built.2)

theorem isNullable_refreshImports (m : Model) : m.refreshImports.isNullable = m.isNullable := by
  rw [refreshImports_eq]

theorem SameType.refreshImports {m m' : Model} (h : SameType m m') :
    SameType m.refreshImports m'.refreshImports := by
  rw [refreshImports_eq, refreshImports_eq]
  exact ⟨h.kind_eq, h.base_eq, by rw [h.link_eq], h.members_eq, by rw [h.properties_eq]⟩

theorem SameDefinition.refl (m : Model) : SameDefinition m m :=
  ⟨⟨rfl, rfl, rfl, rfl, rfl⟩, rfl, rfl⟩

variable (scope name : String) (place : List String) (w : Wrapper) {s : Schema}

/-- One wrapper is taken off for every wrapper that was put around. -/
theorem content_around (n : Nat) (shape : Shape) (hs : s.isNullType = false) :
    content scope place (n + 1) shape (w.around s) = content scope place n shape s :=
  content_succ_of_wrapped scope place n shape (w.wrapped?_around hs)

/-- Within reach, it does not matter whether one more wrapper would be taken off. -/
theorem content_of_withinReach {n : Nat} (h : s.WithinReach n) :
    content scope place n s.outline.shape s = content scope place (n + 1) s.outline.shape s := by
  rw [content_eq_unwrap, content_eq_unwrap]
  rcases h with h | h | h
  · rw [Schema.unwrap_succ_of_not_wrapped h]
  · rw [h]
    rfl
  · rw [h]
    rfl

/-- The members of an enumeration are those of the wrapped schema. -/
theorem members_of_withinReach (h : s.WithinReach 0) (hshape : s.outline.shape = .enumeration) :
    membersOf s = membersOf s.unwrapped := by
  rcases h with h | h | h
  · rw [Schema.unwrap_zero] at h
    simp [Schema.unwrapped, h]
  · cases hshape.symm.trans h
  · cases hshape.symm.trans h

/-- A model that is assembled from the same content describes the same type. -/
theorem sameType_assemble (h : s.WithinReach 0) (hs : s.isNullType = false) (c : Content) :
    SameType (assemble name (w.around s) c) (assemble name s c) := by
  have houtline := w.outline_around hs
  refine ⟨?_, ?_, rfl, ?_, rfl⟩
  · simp [assemble, houtline]
  · simp [assemble, houtline]
  · simp only [assemble, houtline, w.unwrapped_around hs]
    split
    · exact members_of_withinReach h (by assumption)
    · rfl

/-- The definition of an object is the same with a wrapper around it. -/
theorem sameDefinition_liftedDefinition (h : s.WithinReach 1) (hs : s.isNullType = false)
    (hshape : s.outline.shape = .object) :
    SameDefinition (liftedDefinition scope place (w.around s)) (liftedDefinition scope place s) := by
  have hcontent : content scope place 2 .object (w.around s) = content scope place 2 .object s := by
    rw [content_around _ _ _ _ _ hs, ← hshape, content_of_withinReach _ _ h]
  have houtline := s.outline_unwrapped
  simp only [liftedDefinition, hcontent, w.unwrapped_around hs, asLifted]
  refine ⟨SameType.refreshImports ⟨?_, ?_, rfl, ?_, rfl⟩, ?_, ?_⟩
  · simp [assemble, houtline]
  · simp [assemble, houtline]
  · simp [assemble, houtline, hshape]
  · simp [assemble]
  · simp [assemble, isNullable_refreshImports]

/-- A wrapper is transparent for an inline schema within reach. -/
theorem transparent_embed (h : s.WithinReach (unwrapsOf s.outline.shape - 1))
    (hs : s.isNullType = false) :
    Transparent (embed scope name place (w.around s)) (embed scope name place s) := by
  have houtline := w.outline_around hs
  by_cases hshape : s.outline.shape = .object
  · have hreach : s.WithinReach 1 := by simpa [unwrapsOf, hshape] using h
    have hcontent : content scope place 2 .object (w.around s) =
        content scope place 2 .object s := by
      rw [content_around _ _ _ _ _ hs, ← hshape, content_of_withinReach _ _ hreach]
    rw [embed_of_object _ _ _ (by rw [houtline, hshape]), embed_of_object _ _ _ hshape, hcontent]
    refine ⟨⟨rfl, rfl, rfl, rfl, rfl⟩, by simp [standIn, houtline], ?_⟩
    exact List.rel_append (List.forall₂_same.2 fun m _ => .refl m)
      (.cons (sameDefinition_liftedDefinition scope place w hreach hs hshape) .nil)
  · have hreach : s.WithinReach 0 := by simpa [unwrapsOf, hshape] using h
    have hcontent : content scope place 1 s.outline.shape (w.around s) =
        content scope place 1 s.outline.shape s := by
      rw [content_around _ _ _ _ _ hs, content_of_withinReach _ _ hreach]
    rw [embed_of_not_object _ _ _ (by rw [houtline]; exact hshape),
      embed_of_not_object _ _ _ hshape, houtline, hcontent]
    exact ⟨sameType_assemble name w hreach hs _, by simp [assemble, houtline],
      List.forall₂_same.2 fun m _ => .refl m⟩

/-! ## Around a schema that is no wrapper -/

theorem unwrapped_of_not_wrapped (h : s.wrapped? = none) : s.unwrapped = s := by
  simp [Schema.unwrapped, h]

/-- The description and the deprecation of a schema that is no wrapper are its own. -/
theorem assemble_around (h : s.wrapped? = none) (hs : s.isNullType = false) (c : Content) :
    assemble name (w.around s) c = { assemble name s c with isNullable := true } := by
  have hdescription : (w.around s).description = none := by cases w <;> rfl
  have hdeprecated : (w.around s).deprecated = false := by cases w <;> rfl
  simp [assemble, w.outline_around hs, w.unwrapped_around hs, unwrapped_of_not_wrapped h,
    hdescription, hdeprecated]

theorem refreshImports_nullable (m : Model) :
    refreshImports { m with isNullable := true } = { m.refreshImports with isNullable := true } := by
  cases m
  simp [refreshImports_eq, importsOf, references_eq, parts]

/-- Around a schema that is no wrapper, nothing changes but that `null` is accepted. -/
theorem embed_around (h : s.wrapped? = none) (hs : s.isNullType = false) :
    embed scope name place (w.around s) = nullable (embed scope name place s) := by
  have houtline := w.outline_around hs
  have hcontent (n : Nat) : content scope place (n + 1) s.outline.shape (w.around s) =
      content scope place (n + 1) s.outline.shape s := by
    rw [content_around _ _ _ _ _ hs, content_of_not_wrapped _ _ _ _ h,
      content_of_not_wrapped _ _ _ _ h]
  by_cases hshape : s.outline.shape = .object
  · have hlifted : liftedDefinition scope place (w.around s) = liftedDefinition scope place s := by
      rw [liftedDefinition, liftedDefinition, ← hshape, hcontent, w.unwrapped_around hs,
        unwrapped_of_not_wrapped h]
    rw [embed_of_object _ _ _ (by rw [houtline, hshape]), embed_of_object _ _ _ hshape, ← hshape,
      hcontent, hlifted]
    simp [nullable, standIn, houtline, w.unwrapped_around hs, unwrapped_of_not_wrapped h]
  · rw [embed_of_not_object _ _ _ (by rw [houtline]; exact hshape),
      embed_of_not_object _ _ _ hshape, houtline, hcontent, assemble_around _ _ h hs]
    rfl

/-! ## Inline and named schemas -/

theorem transparent_inline (h : s.WithinReach (unwrapsOf s.outline.shape - 1))
    (hs : s.isNullType = false) :
    Transparent (inline scope name place (w.around s)) (inline scope name place s) := by
  have hembed := transparent_embed scope name place w h hs
  exact ⟨hembed.sameType.refreshImports, (isNullable_refreshImports _).trans hembed.isNullable,
    hembed.lifted⟩

theorem inline_around (h : s.wrapped? = none) (hs : s.isNullType = false) :
    inline scope name place (w.around s) = nullable (inline scope name place s) := by
  have hembed := embed_around scope name place w h hs
  calc inline scope name place (w.around s)
      = ((embed scope name place (w.around s)).1.refreshImports,
          (embed scope name place (w.around s)).2) := rfl
    _ = nullable (inline scope name place s) := by
        rw [hembed, nullable, refreshImports_nullable]
        rfl

variable (origin : Origin)

theorem transparent_definition (h : s.WithinReach 0) (hs : s.isNullType = false) :
    Transparent (definition scope name (w.around s) origin) (definition scope name s origin) := by
  have houtline := w.outline_around hs
  have hcontent : content scope [name] 1 s.outline.shape (w.around s) =
      content scope [name] 1 s.outline.shape s := by
    rw [content_around _ _ _ _ _ hs, content_of_withinReach _ _ h]
  have htype := sameType_assemble name w h hs (content scope [name] 1 s.outline.shape s)
  simp only [definition, houtline, hcontent]
  exact ⟨SameType.refreshImports ⟨htype.kind_eq, htype.base_eq, rfl, htype.members_eq, rfl⟩,
    by simp [refreshImports_eq, assemble, houtline], List.forall₂_same.2 fun m _ => .refl m⟩

theorem definition_around (h : s.wrapped? = none) (hs : s.isNullType = false) :
    definition scope name (w.around s) origin = nullable (definition scope name s origin) := by
  have hcontent : content scope [name] 1 s.outline.shape (w.around s) =
      content scope [name] 1 s.outline.shape s := by
    rw [content_around _ _ _ _ _ hs, content_of_not_wrapped _ _ _ _ h,
      content_of_not_wrapped _ _ _ _ h]
  rw [definition, w.outline_around hs, hcontent, assemble_around _ _ h hs, definition, nullable]
  exact Prod.ext (refreshImports_nullable
    { assemble name s (content scope [name] 1 s.outline.shape s) with
      isDefinition := true, origin := origin }) rfl

/-- A wrapper is seen through by the outline whatever it is put around; the models of inline and
named schemas do the same unless one wrapper more is below, and equal those of the wrapped schema
if that is no wrapper itself. -/
theorem around_transparent (hs : s.isNullType = false) :
    (w.around s).outline = { s.outline with nullable := true } ∧
      (s.WithinReach (unwrapsOf s.outline.shape - 1) →
        Transparent (inline scope name place (w.around s)) (inline scope name place s)) ∧
      (s.WithinReach 0 →
        Transparent (definition scope name (w.around s) origin) (definition scope name s origin)) ∧
      (s.wrapped? = none →
        inline scope name place (w.around s) = nullable (inline scope name place s) ∧
          definition scope name (w.around s) origin = nullable (definition scope name s origin)) :=
  ⟨w.outline_around hs, fun h => transparent_inline scope name place w h hs,
    fun h => transparent_definition scope name w origin h hs,
    fun h => ⟨inline_around scope name place w h hs, definition_around scope name w origin h hs⟩⟩

/-- A pet: its name, and a list of its friends. -/
def petSchema : Schema where
  type := some (.single "object")
  properties :=
    [("name", { type := some (.single "string") }),
      ("friends", { type := some (.single "array"), items := some { type := some (.single "string") } })]

theorem around_transparent_petSchema :
    petSchema.isNullType = false ∧ petSchema.wrapped? = none ∧
      inline "schemas" "owner" ["House", "owner"] (Wrapper.oneOf.around petSchema) =
        nullable (inline "schemas" "owner" ["House", "owner"] petSchema) ∧
      Transparent (definition "schemas" "Pet" (Wrapper.oneOf.around petSchema) .schema)
        (definition "schemas" "Pet" petSchema .schema) ∧
      Transparent
        (inline "schemas" "owner" ["House", "owner"]
          (Wrapper.oneOf.around (Wrapper.anyOf.around petSchema)))
        (inline "schemas" "owner" ["House", "owner"] (Wrapper.anyOf.around petSchema)) := by
  have hpet : petSchema.isNullType = false := rfl
  have hwrapped : petSchema.wrapped? = none := rfl
  -- The definition of an inline object is looked for below two wrappers.
  have hreach : (Wrapper.anyOf.around petSchema).WithinReach
      (unwrapsOf (Wrapper.anyOf.around petSchema).outline.shape - 1) := .inl rfl
  have hinline := (around_transparent "schemas" "owner" ["House", "owner"] .oneOf .schema
    hpet).2.2.2 hwrapped
  have hdefinition := (around_transparent "schemas" "Pet" [] .oneOf .schema hpet).2.2.1
    (.inl hwrapped)
  have hdeeper := (around_transparent "schemas" "owner" ["House", "owner"] .oneOf .schema
    (Wrapper.isNullType_around .anyOf (s := petSchema))).2.1 hreach
  exact ⟨hpet, hwrapped, hinline.1, hdefinition, hdeeper⟩

/-! ## Out of reach -/

/-- A wrapper has no elements, properties or values of its own. -/
theorem contentOfShape_around (shape : Shape) (t : Schema) :
    (shape = .array ∨ shape = .dictionary →
        (contentOfShape scope place shape (w.around t)).link = some (primitive "" "any")) ∧
      (shape = .object ∨ shape = .allOf →
        (contentOfShape scope place shape (w.around t)).properties = []) := by
  constructor
  · rintro (rfl | rfl) <;> cases w <;> rfl
  · rintro (rfl | rfl) <;> cases w <;> rfl

/-- A named wrapper around a wrapper has the kind of the schema inside, but has lost what belongs to
it: the values of an enumeration, the elements of an array or a dictionary, the properties of an
object and the members of an `allOf`. -/
theorem definition_around_around (outer : Wrapper) {t : Schema} (ht : t.isNullType = false) :
    let m := (definition scope name (outer.around (w.around t)) origin).1
    m.kind = kindOf t.outline.shape ∧ m.members = [] ∧
      (t.outline.shape = .array ∨ t.outline.shape = .dictionary →
        m.link = some (primitive "" "any").refreshImports) ∧
      (t.outline.shape = .object ∨ t.outline.shape = .allOf → m.properties = []) := by
  have hinner := w.isNullType_around (s := t)
  have hshape : (outer.around (w.around t)).outline.shape = t.outline.shape := by
    rw [outer.outline_around hinner, w.outline_around ht]
  have hcontent : content scope [name] 1 t.outline.shape (outer.around (w.around t)) =
      contentOfShape scope [name] t.outline.shape (w.around t) := by
    rw [content_around _ _ _ _ _ hinner, content_eq_unwrap, Schema.unwrap_zero]
  have hmembers : membersOf (w.around t) = [] := by cases w <;> rfl
  obtain ⟨hlink, hproperties⟩ := contentOfShape_around scope [name] w t.outline.shape t
  simp only [definition, hshape, hcontent, refreshImports_eq, assemble, outer.unwrapped_around hinner,
    hmembers, ite_self, true_and]
  exact ⟨fun h => by rw [hlink h]; simp [refreshImports_eq], fun h => by rw [hproperties h]; rfl⟩

/-- A list of texts, or `null`. -/
def maybeTexts : Schema :=
  Wrapper.anyOf.around
    { type := some (.single "array"), items := some { type := some (.single "string") } }

theorem not_transparent_maybeTexts :
    maybeTexts.isNullType = false ∧
      ¬ Transparent (definition "schemas" "P" (Wrapper.anyOf.around maybeTexts) .schema)
        (definition "schemas" "P" maybeTexts .schema) := by
  refine ⟨rfl, fun h => ?_⟩
  have hbase := congrArg (Option.map base) h.sameType.link_eq
  exact absurd hbase (by decide)

end Model

end TypedClient
