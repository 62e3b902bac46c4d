import TypedClient.Proofs.Model.Closed
import TypedClient.Proofs.Model.Populated

/-!
# Lifting out loses nothing

An inline object is lifted out of its schema and leaves a reference in its place. So no object is
left inside of another model, and the references that are not final yet are those to the lifted
definitions, one to each (`lifting_exact`).
-/

namespace TypedClient.Model

variable {scope name : String} {place : List String} {m n : Model}

/-! ## Objects -/

/-- A model that may stand inside of another one: it is no object, and its kind shows all of its
parts. -/
structure IsInner (m : Model) : Prop where
  kind_ne : m.kind ≠ .interface
  shows : m.schemaParts = m.parts

/-- A model whose kind shows all of its parts, with no object inside. -/
structure IsFlat (m : Model) : Prop where
  shows : m.schemaParts = m.parts
  inner : ∀ part ∈ m.parts, part.Throughout IsInner

theorem IsInner.refreshImports (h : m.IsInner) : m.refreshImports.IsInner where
  kind_ne := by
    rw [kind_refreshImports]
    exact h.kind_ne
  shows := by rw [schemaParts_refreshImports, parts_refreshImports, h.shows]

theorem IsInner.redirect (h : m.IsInner) (target : String → String) :
    (m.redirect target).IsInner where
  kind_ne := by
    rw [kind_redirect]
    exact h.kind_ne
  shows := by rw [schemaParts_redirect, parts_redirect, h.shows]

theorem IsFlat.refreshImports (h : m.IsFlat) : m.refreshImports.IsFlat where
  shows := by rw [schemaParts_refreshImports, parts_refreshImports, h.shows]
  inner := by
    rw [parts_refreshImports]
    exact List.forall_mem_map.2 fun part hpart =>
      (h.inner part hpart).map parts_refreshImports fun _ => IsInner.refreshImports

theorem IsFlat.redirect (h : m.IsFlat) (target : String → String) :
    (m.redirect target).IsFlat where
  shows := by rw [schemaParts_redirect, parts_redirect, h.shows]
  inner := by
    rw [parts_redirect]
    exact List.forall_mem_map.2 fun part hpart =>
      (h.inner part hpart).map (parts_redirect target) fun _ hinner => hinner.redirect target

/-- What is said about a model beside its type makes no difference. -/
theorem IsFlat.congr (h : m.IsFlat) (hkind : n.kind = m.kind) (hlink : n.link = m.link)
    (hproperties : n.properties = m.properties) : n.IsFlat := by
  have hparts : n.parts = m.parts := by simp only [parts, hlink, hproperties]
  have hschema : n.schemaParts = m.schemaParts := by
    simp only [schemaParts, hkind, hlink, hproperties]
  constructor
  · rw [hschema, hparts]
    exact h.shows
  · rw [hparts]
    exact h.inner

theorem throughout_isInner_iff : m.Throughout IsInner ↔ m.kind ≠ .interface ∧ m.IsFlat := by
  rw [throughout_iff]
  constructor
  · rintro ⟨⟨hkind, hshows⟩, hparts⟩
    exact ⟨hkind, hshows, hparts⟩
  · rintro ⟨hkind, hshows, hparts⟩
    exact ⟨⟨hkind, hshows⟩, hparts⟩

/-- A definition that is lifted out. -/
structure IsLifted (m : Model) : Prop where
  isDefinition : m.isDefinition = true
  isFlat : m.IsFlat

theorem kindOf_ne_interface {shape : Shape} (h : shape ≠ .object) : kindOf shape ≠ .interface :=
  fun hkind => h (kindOf_eq_interface hkind)

theorem isFlat_assemble {s : Schema} {c : Content} (hfits : c.Fits s.outline.shape)
    (hparts : ∀ part ∈ c.parts, part.Throughout IsInner) : (assemble name s c).IsFlat where
  shows := schemaParts_assemble hfits
  inner := hparts

theorem isLifted_liftedDefinition {s : Schema} (hs : s.outline.shape = .object)
    (hparts : ∀ part ∈ (content scope place 2 .object s).parts, part.Throughout IsInner) :
    (liftedDefinition scope place s).IsLifted where
  isDefinition := isDefinition_refreshImports _
  isFlat := by
    have hfits : (content scope place 2 .object s).Fits s.unwrapped.outline.shape := by
      rw [s.outline_unwrapped.1, hs]
      exact fits_content _ _ _
    have hassemble : (assemble (provisionalName scope place) s.unwrapped
        (content scope place 2 .object s)).IsFlat := isFlat_assemble hfits hparts
    refine IsFlat.refreshImports ?_
    exact hassemble.congr rfl rfl rfl

/-- A reference or a primitive type has no parts. -/
theorem throughout_isInner_of_leaf (hkind : m.kind = .reference ∨ m.kind = .primitive)
    (hparts : m.parts = []) : m.Throughout IsInner := by
  refine throughout_isInner_iff.2 ⟨fun h => ?_, ?_, ?_⟩
  · simp [h] at hkind
  · rw [hparts, schemaParts]
    rcases hkind with hkind | hkind <;> rw [hkind]
  · rw [hparts]
    exact List.forall_mem_nil _

theorem Content.BuiltFrom.isInner {ps : List Schema.Part} {c : Content}
    (hbuilt : c.BuiltFrom scope place ps)
    (h : ∀ part ∈ ps, ∀ t, part.schema? = some t → ∀ name place,
      (embed scope name place t).1.Throughout IsInner ∧
        ∀ m ∈ (embed scope name place t).2, m.IsLifted) :
    (∀ part ∈ c.parts, part.Throughout IsInner) ∧ ∀ m ∈ c.lifted, m.IsLifted := by
  refine hbuilt.forall (fun base => throughout_isInner_of_leaf (.inr rfl) rfl) ?_ h
  intro m isRequired hm
  obtain ⟨hkind, hflat⟩ := throughout_isInner_iff.1 hm
  exact throughout_isInner_iff.2 ⟨hkind, hflat.congr rfl rfl rfl⟩

/-- No object is left where a schema stands: it is lifted out, and a reference takes its place. -/
theorem isInner_embed (scope name : String) (place : List String) (s : Schema) :
    (embed scope name place s).1.Throughout IsInner ∧
      ∀ m ∈ (embed scope name place s).2, m.IsLifted := by
  induction s using Schema.induction_parts generalizing name place with
  | step s ih =>
      by_cases hs : s.outline.shape = .object
      · obtain ⟨hparts, hlifted⟩ := (builtFrom_parts_of_object scope place hs).isInner ih
        rw [embed_of_object _ _ _ hs]
        refine ⟨throughout_isInner_of_leaf (.inl rfl) rfl, ?_⟩
        exact List.forall_mem_append.2 ⟨hlifted,
          List.forall_mem_singleton.2 (isLifted_liftedDefinition hs hparts)⟩
      · obtain ⟨hparts, hlifted⟩ := (builtFrom_parts_of_not_object scope place hs).isInner ih
        rw [embed_of_not_object _ _ _ hs]
        exact ⟨throughout_isInner_iff.2 ⟨kindOf_ne_interface hs,
          isFlat_assemble (fits_content _ _ _) hparts⟩, hlifted⟩

/-- A definition is flat, and so are those that are lifted out of it. -/
theorem isLifted_definition (scope name : String) (s : Schema) (origin : Origin) :
    (definition scope name s origin).1.IsLifted ∧
      ∀ m ∈ (definition scope name s origin).2, m.IsLifted := by
  obtain ⟨hparts, hlifted⟩ := (builtFrom_content scope [name] 1 s.outline.shape s).isInner
    fun part hpart t ht name place => isInner_embed scope name place t
  have hassemble : (assemble name s (content scope [name] 1 s.outline.shape s)).IsFlat :=
    isFlat_assemble (fits_content _ _ _) hparts
  refine ⟨⟨isDefinition_refreshImports _, IsFlat.refreshImports ?_⟩, hlifted⟩
  exact hassemble.congr rfl rfl rfl

/-! ## References -/

instance : DecidablePred IsProvisionalName := fun _ => inferInstanceAs (Decidable (_ = _))

/-- The names that are not final among those that some models mention, each as often as it is
mentioned. -/
def provisionalReferences (ms : List Model) : List String :=
  (ms.flatMap references).filter IsProvisionalName

/-- The names that are not final and that some models mention, beside the definitions lifted out of
them, are the names of these definitions, each once. -/
def Balanced (ms lifted : List Model) : Prop :=
  (provisionalReferences (ms ++ lifted)).Perm (lifted.map (·.name))

theorem provisionalReferences_append (ms ns : List Model) :
    provisionalReferences (ms ++ ns) = provisionalReferences ms ++ provisionalReferences ns := by
  simp [provisionalReferences]

theorem provisionalReferences_cons (m : Model) (ms : List Model) :
    provisionalReferences (m :: ms) =
      m.references.filter IsProvisionalName ++ provisionalReferences ms := by
  simp [provisionalReferences]

theorem Balanced.append {ms ns lifted others : List Model} (h : Balanced ms lifted)
    (h' : Balanced ns others) : Balanced (ms ++ ns) (lifted ++ others) := by
  unfold Balanced at h h' ⊢
  simp only [provisionalReferences_append, List.map_append, List.append_assoc] at h h' ⊢
  have hswap := List.perm_append_comm_assoc (provisionalReferences ns)
    (provisionalReferences lifted)
    (provisionalReferences others)
  refine (hswap.append_left _).trans ?_
  rw [← List.append_assoc]
  exact h.append h'

/-- Models that mention the same names are as balanced. -/
theorem Balanced.congr {lifted : List Model} (h : Balanced [m] lifted)
    (heq : n.references = m.references) : Balanced [n] lifted := by
  unfold Balanced at h ⊢
  simp only [List.singleton_append, provisionalReferences_cons] at h ⊢
  rw [heq]
  exact h

theorem balanced_nil : Balanced [] [] := .nil

/-- A content is balanced if the model of each schema among the parts is. -/
theorem Content.BuiltFrom.balanced {ps : List Schema.Part} {c : Content}
    (hbuilt : c.BuiltFrom scope place ps)
    (h : ∀ part ∈ ps, ∀ t, part.schema? = some t → ∀ name place,
      Balanced [(embed scope name place t).1] (embed scope name place t).2) :
    Balanced c.parts c.lifted := by
  rw [hbuilt.parts_eq, hbuilt.lifted_eq]
  clear hbuilt
  induction ps with
  | nil => exact balanced_nil
  | cons part ps ih =>
      have hrest := ih fun other hother => h other (List.mem_cons_of_mem _ hother)
      have hfirst : Balanced [ofPart scope place part] (liftedOfPart scope place part) := by
        cases part with
        | plain base => exact .of_eq (by simp [provisionalReferences, ofPart, liftedOfPart])
        | inner segment name isRequired t =>
            have halike : Alike (ofPart scope place (.inner segment name isRequired t))
                (embed scope name (place ++ [segment]) t).1 := ⟨rfl, rfl, rfl⟩
            exact (h _ List.mem_cons_self t rfl name _).congr halike.references_eq
      exact hfirst.append hrest

/-- A schema mentions final names only, so that all others are mentioned by the parts. -/
theorem balanced_assemble {s : Schema} {c : Content} (h : Balanced c.parts c.lifted) :
    Balanced [assemble name s c] c.lifted := by
  have hown : ∀ other ∈ (if s.outline.shape = .reference then [s.outline.base] else []),
      ¬ IsProvisionalName other := by
    intro other hother
    split at hother
    · rename_i hshape
      obtain ⟨ref, -, hbase⟩ := Schema.exists_mentions_of_reference hshape
      rw [List.mem_singleton.1 hother, hbase]
      exact not_isProvisionalName_of_isTypeName (Naming.isTypeName_typeName _)
    · cases hother
  have hreferences : (assemble name s c).references.filter IsProvisionalName =
      provisionalReferences c.parts := by
    rw [references_assemble, List.filter_append, List.filter_eq_nil_iff.2, List.nil_append]
    · rfl
    · simpa using hown
  unfold Balanced at h ⊢
  rw [List.singleton_append, provisionalReferences_cons, hreferences,
    ← provisionalReferences_append]
  exact h

/-- The reference that an object leaves behind is the only one to its definition. -/
theorem balanced_standIn {s : Schema} {c : Content} {definition : Model}
    (h : Balanced [definition] c.lifted) (hname : definition.name = provisionalName scope place) :
    Balanced [standIn scope name place s] (c.lifted ++ [definition]) := by
  have hkey : provisionalReferences [standIn scope name place s] =
      [provisionalName scope place] := by
    simp [provisionalReferences, isProvisionalName_provisionalName]
  have hothers : (provisionalReferences (c.lifted ++ [definition])).Perm
      (c.lifted.map (·.name)) := by
    rw [provisionalReferences_append]
    refine List.perm_append_comm.trans ?_
    rw [← provisionalReferences_append]
    exact h
  rw [Balanced, provisionalReferences_append, hkey, List.map_append, List.map_singleton, hname]
  exact (hothers.append_left _).trans List.perm_append_comm

/-- What a schema leaves behind mentions each definition that is lifted out of it once. -/
theorem balanced_embed (scope name : String) (place : List String) (s : Schema) :
    Balanced [(embed scope name place s).1] (embed scope name place s).2 := by
  induction s using Schema.induction_parts generalizing name place with
  | step s ih =>
      by_cases hs : s.outline.shape = .object
      · have hcontent := (builtFrom_parts_of_object scope place hs).balanced ih
        rw [embed_of_object _ _ _ hs]
        refine balanced_standIn ?_ (name_liftedDefinition scope place s)
        exact (balanced_assemble hcontent).congr (references_asLifted place _)
      · rw [embed_of_not_object _ _ _ hs]
        exact balanced_assemble ((builtFrom_parts_of_not_object scope place hs).balanced ih)

theorem balanced_definition (scope name : String) (s : Schema) (origin : Origin) :
    Balanced [(definition scope name s origin).1] (definition scope name s origin).2 := by
  have hcontent := (builtFrom_content scope [name] 1 s.outline.shape s).balanced
    fun part hpart t ht name place => balanced_embed scope name place t
  have halike : Alike
      { assemble name s (content scope [name] 1 s.outline.shape s) with
        isDefinition := true
        origin := origin }
      (assemble name s (content scope [name] 1 s.outline.shape s)) := ⟨rfl, rfl, rfl⟩
  have hassemble : Balanced [assemble name s (content scope [name] 1 s.outline.shape s)]
      (content scope [name] 1 s.outline.shape s).lifted := balanced_assemble hcontent
  exact hassemble.congr ((references_refreshImports _).trans halike.references_eq)

/-! ## What is built -/

/-- A model is built beside the definitions that are lifted out, and nothing gets lost. -/
structure LiftsExactly (built : Model × List Model) : Prop where
  /-- An object is a definition. -/
  isDefinition : ∀ m ∈ built.1 :: built.2, m.kind = .interface → m.isDefinition = true
  /-- No object stands inside of a model. -/
  inner : ∀ m ∈ built.1 :: built.2, ∀ part ∈ m.parts, part.Throughout fun n => n.kind ≠ .interface
  /-- The references that are not final are those to the lifted definitions, one to each. -/
  references : (((built.1 :: built.2).flatMap references).filter IsProvisionalName).Perm
    (built.2.map (·.name))

theorem liftsExactly_of {m : Model} {lifted : List Model}
    (hdefinition : m.kind = .interface → m.isDefinition = true) (hflat : m.IsFlat)
    (hlifted : ∀ n ∈ lifted, n.IsLifted) (hbalanced : Balanced [m] lifted) :
    LiftsExactly (m, lifted) where
  isDefinition := List.forall_mem_cons.2 ⟨hdefinition, fun n hn _ => (hlifted n hn).isDefinition⟩
  inner := by
    have hinner : ∀ {n : Model}, n.IsFlat →
        ∀ part ∈ n.parts, part.Throughout fun n => n.kind ≠ .interface :=
      fun hflat part hpart n hwithin => (hflat.inner part hpart n hwithin).kind_ne
    exact List.forall_mem_cons.2 ⟨hinner hflat, fun n hn => hinner (hlifted n hn).isFlat⟩
  references := hbalanced

/-- Whether a schema is named or stands inside of another one: in its model and in the definitions
that are lifted out, objects are definitions and stand inside of nothing, and the names that are not
final yet are mentioned exactly as often as a definition with the name is lifted out. -/
theorem lifting_exact (scope name : String) (s : Schema) :
    (∀ origin, LiftsExactly (definition scope name s origin)) ∧
      ∀ place, LiftsExactly (inline scope name place s) := by
  constructor
  · intro origin
    obtain ⟨hmodel, hlifted⟩ := isLifted_definition scope name s origin
    exact liftsExactly_of (fun _ => hmodel.isDefinition) hmodel.isFlat hlifted
      (balanced_definition scope name s origin)
  · intro place
    obtain ⟨hmodel, hlifted⟩ := isInner_embed scope name place s
    obtain ⟨hkind, hflat⟩ := throughout_isInner_iff.1 hmodel
    have hbalanced := (balanced_embed scope name place s).congr (references_refreshImports _)
    refine liftsExactly_of (fun hinterface => ?_) hflat.refreshImports hlifted hbalanced
    exact absurd ((kind_refreshImports _).symm.trans hinterface) hkind

end TypedClient.Model
