import Mathlib.Data.List.Basic
import TypedClient.Model.Basic
import TypedClient.Proofs.Naming.TypeName

/-!
# Models and their parts

The parts of a model are its element type and its properties. `Model.induction` proves a
property of every model from the same property of its parts, and every traversal is given
one equation in terms of the parts. `mem_references_iff` says that `references` lists
exactly the bases of the references which stand in the model, at any depth. A provisional
name is told from a final one by its first character, which no type name starts with.
-/

namespace TypedClient

namespace Model

/-- The parts of a model: its element type, or its properties or members, in order. -/
def parts (m : Model) : List Model := m.link.toList ++ m.properties

/-- A property of all models holds if it passes from the parts to the whole. -/
theorem induction {P : Model → Prop} (step : ∀ m : Model, (∀ part ∈ m.parts, P part) → P m)
    (m : Model) : P m := by
  -- Models stand in models under an option and in a list, so that the recursor asks for all three.
  refine @Model.rec P (fun link => ∀ part ∈ link, P part)
    (fun properties => ∀ part ∈ properties, P part) ?mk ?none ?some ?nil ?cons m
  case mk =>
    intro _ _ _ _ _ _ _ _ _ _ _ _ _ _ _ link properties hlink hproperties
    apply step
    intro part hpart
    rcases List.mem_append.1 hpart with hpart | hpart
    · exact hlink part (by simpa using hpart)
    · exact hproperties part hpart
  case none =>
    intro part hpart
    cases hpart
  case some =>
    intro m hm part hpart
    obtain rfl : m = part := by simpa using hpart
    exact hm
  case nil =>
    intro part hpart
    cases hpart
  case cons =>
    intro m rest hm hrest part hpart
    rcases List.mem_cons.1 hpart with rfl | hpart
    · exact hm
    · exact hrest part hpart

/-- `m.Within n` says that `n` is `m` itself or stands inside it, at any depth. -/
inductive Within : Model → Model → Prop
  | self (m) : Within m m
  | part (m part n) : part ∈ m.parts → Within part n → Within m n

/-- A property holds of a model and of everything inside it. -/
def Throughout (P : Model → Prop) (m : Model) : Prop := ∀ n, m.Within n → P n

theorem throughout_iff {P : Model → Prop} {m : Model} :
    m.Throughout P ↔ P m ∧ ∀ part ∈ m.parts, part.Throughout P := by
  constructor
  · intro h
    exact ⟨h m (.self m), fun part hpart n hwithin => h n (.part m part n hpart hwithin)⟩
  · rintro ⟨hself, hparts⟩ n (_ | ⟨_, part, _, hpart, hwithin⟩)
    · exact hself
    · exact hparts part hpart n hwithin

/-- A change that is made to a model and to all its parts carries a property over. -/
theorem Throughout.map {P Q : Model → Prop} {change : Model → Model}
    (hparts : ∀ m, (change m).parts = m.parts.map change) (h : ∀ m, P m → Q (change m))
    {m : Model} : m.Throughout P → (change m).Throughout Q := by
  induction m using induction with
  | step m ih =>
      intro hm
      obtain ⟨hself, hall⟩ := throughout_iff.1 hm
      refine throughout_iff.2 ⟨h m hself, ?_⟩
      rw [hparts]
      exact List.forall_mem_map.2 fun part hpart => ih part hpart (hall part hpart)

/-! ## The traversals in terms of the parts -/

theorem referencesOfLink_eq (link : Option Model) :
    referencesOfLink link = link.toList.flatMap references := by
  cases link <;> simp [referencesOfLink]

theorem referencesOfAll_eq (ms : List Model) : referencesOfAll ms = ms.flatMap references := by
  induction ms with
  | nil => rfl
  | cons m ms ih => simp [referencesOfAll, ih]

/-- A model mentions its base if it is a reference, and what its parts mention. -/
theorem references_eq (m : Model) :
    m.references = (if m.kind = .reference then [m.base] else []) ++
      m.parts.flatMap references := by
  cases m
  simp [references, parts, referencesOfLink_eq, referencesOfAll_eq]

theorem refreshLink_eq (link : Option Model) : refreshLink link = link.map refreshImports := by
  cases link <;> rfl

theorem refreshAll_eq (ms : List Model) : refreshAll ms = ms.map refreshImports := by
  induction ms with
  | nil => rfl
  | cons m ms ih => simp [refreshAll, ih]

/-- Refreshing sets the imports and refreshes the parts. -/
theorem refreshImports_eq (m : Model) :
    m.refreshImports =
      { m with
        imports := importsOf m
        link := m.link.map refreshImports
        properties := m.properties.map refreshImports } := by
  cases m
  simp [refreshImports, refreshLink_eq, refreshAll_eq]

theorem redirectLink_eq (target : String → String) (link : Option Model) :
    redirectLink target link = link.map (redirect target) := by
  cases link <;> rfl

theorem redirectAll_eq (target : String → String) (ms : List Model) :
    redirectAll target ms = ms.map (redirect target) := by
  induction ms with
  | nil => rfl
  | cons m ms ih => simp [redirectAll, ih]

/-- Redirecting changes the base of a reference and redirects the parts. -/
theorem redirect_eq (target : String → String) (m : Model) :
    m.redirect target =
      { m with
        base := if m.kind = .reference then target m.base else m.base
        link := m.link.map (redirect target)
        properties := m.properties.map (redirect target) } := by
  cases m
  simp [redirect, redirectLink_eq, redirectAll_eq]

@[simp]
theorem parts_refreshImports (m : Model) :
    m.refreshImports.parts = m.parts.map refreshImports := by
  rw [refreshImports_eq]
  cases hlink : m.link <;> simp [parts, hlink]

@[simp]
theorem parts_redirect (target : String → String) (m : Model) :
    (m.redirect target).parts = m.parts.map (redirect target) := by
  rw [redirect_eq]
  cases hlink : m.link <;> simp [parts, hlink]

@[simp]
theorem link_refreshImports (m : Model) : m.refreshImports.link = m.link.map refreshImports := by
  rw [refreshImports_eq]

@[simp]
theorem link_redirect (target : String → String) (m : Model) :
    (m.redirect target).link = m.link.map (redirect target) := by
  rw [redirect_eq]

@[simp]
theorem kind_refreshImports (m : Model) : m.refreshImports.kind = m.kind := by
  rw [refreshImports_eq]

@[simp]
theorem base_refreshImports (m : Model) : m.refreshImports.base = m.base := by
  rw [refreshImports_eq]

@[simp]
theorem name_refreshImports (m : Model) : m.refreshImports.name = m.name := by
  rw [refreshImports_eq]

@[simp]
theorem isRequired_refreshImports (m : Model) : m.refreshImports.isRequired = m.isRequired := by
  rw [refreshImports_eq]

@[simp]
theorem isDefinition_refreshImports (m : Model) :
    m.refreshImports.isDefinition = m.isDefinition := by
  rw [refreshImports_eq]

@[simp]
theorem imports_refreshImports (m : Model) : m.refreshImports.imports = importsOf m := by
  rw [refreshImports_eq]

@[simp]
theorem kind_redirect (target : String → String) (m : Model) :
    (m.redirect target).kind = m.kind := by
  rw [redirect_eq]

@[simp]
theorem base_redirect (target : String → String) (m : Model) :
    (m.redirect target).base = if m.kind = .reference then target m.base else m.base := by
  rw [redirect_eq]

@[simp]
theorem name_redirect (target : String → String) (m : Model) :
    (m.redirect target).name = m.name := by
  rw [redirect_eq]

@[simp]
theorem isRequired_redirect (target : String → String) (m : Model) :
    (m.redirect target).isRequired = m.isRequired := by
  rw [redirect_eq]

/-! ## Names that are not final -/

/-- The name carries the mark of names that are not final. -/
def IsProvisionalName (name : String) : Prop := name.toList.head? = some provisionalMark

theorem isProvisional_iff {m : Model} : m.isProvisional = true ↔ IsProvisionalName m.name := by
  simp [isProvisional, IsProvisionalName]

/-- A type name is never provisional. -/
theorem not_isProvisionalName_of_isTypeName {name : String} (h : Naming.IsTypeName name) :
    ¬ IsProvisionalName name :=
  fun hmark => h.not_mem (by decide) (List.mem_of_mem_head? hmark)

/-! ## References -/

/-- A reference mentions its base. -/
theorem base_mem_references {m : Model} (h : m.kind = .reference) : m.base ∈ m.references := by
  rw [references_eq, if_pos h]
  exact List.mem_append_left _ List.mem_cons_self

/-- A model mentions what its parts mention. -/
theorem mem_references_of_mem_parts {m part : Model} (hpart : part ∈ m.parts) {name : String}
    (hname : name ∈ part.references) : name ∈ m.references := by
  rw [references_eq]
  exact List.mem_append_right _ (List.mem_flatMap.2 ⟨part, hpart, hname⟩)

/-- The names that a model mentions are the bases of the references inside it. -/
theorem mem_references_iff {m : Model} {name : String} :
    name ∈ m.references ↔ ∃ n, m.Within n ∧ n.kind = .reference ∧ n.base = name := by
  constructor
  · induction m using induction with
    | step m ih =>
        intro h
        rw [references_eq, List.mem_append] at h
        rcases h with h | h
        · split at h
          · rename_i hkind
            exact ⟨m, .self m, hkind, (List.mem_singleton.1 h).symm⟩
          · cases h
        · obtain ⟨part, hpart, hname⟩ := List.mem_flatMap.1 h
          obtain ⟨n, hwithin, hkind, hbase⟩ := ih part hpart hname
          exact ⟨n, .part m part n hpart hwithin, hkind, hbase⟩
  · rintro ⟨n, hwithin, hkind, rfl⟩
    induction hwithin with
    | self m => exact base_mem_references hkind
    | part m part n hpart _ ih => exact mem_references_of_mem_parts hpart (ih hkind)

/-- Redirecting redirects every name that is mentioned. -/
@[simp]
theorem references_redirect (target : String → String) (m : Model) :
    (m.redirect target).references = m.references.map target := by
  induction m using induction with
  | step m ih =>
      rw [references_eq, references_eq m, parts_redirect, List.flatMap_map, List.map_append,
        List.map_flatMap]
      congr 1
      · by_cases hkind : m.kind = .reference <;> simp [hkind]
      · exact List.flatMap_congr ih

/-- The models are of the same type: they differ at most in their names and in what is said about
them. -/
structure Alike (m n : Model) : Prop where
  kind_eq : m.kind = n.kind
  base_eq : m.base = n.base
  parts_eq : m.parts = n.parts

theorem Alike.trans {l m n : Model} (h : Alike l m) (h' : Alike m n) : Alike l n :=
  ⟨h.kind_eq.trans h'.kind_eq, h.base_eq.trans h'.base_eq, h.parts_eq.trans h'.parts_eq⟩

/-- Models of the same type mention the same names. -/
theorem Alike.references_eq {m n : Model} (h : Alike m n) : m.references = n.references := by
  rw [Model.references_eq, Model.references_eq n, h.kind_eq, h.base_eq, h.parts_eq]

theorem Alike.refreshImports {m n : Model} (h : Alike m n) :
    Alike m.refreshImports n.refreshImports :=
  ⟨by simp [h.kind_eq], by simp [h.base_eq], by simp [h.parts_eq]⟩

theorem Alike.redirect {m n : Model} (target : String → String) (h : Alike m n) :
    Alike (m.redirect target) (n.redirect target) :=
  ⟨by simp [h.kind_eq], by simp [h.kind_eq, h.base_eq], by simp [h.parts_eq]⟩

/-- Refreshing the imports changes no reference. -/
@[simp]
theorem references_refreshImports (m : Model) : m.refreshImports.references = m.references := by
  induction m using induction with
  | step m ih =>
      rw [references_eq, references_eq m, parts_refreshImports, List.flatMap_map,
        kind_refreshImports, base_refreshImports]
      congr 1
      exact List.flatMap_congr ih

/-- Setting the imports a second time changes nothing. -/
@[simp]
theorem refreshImports_refreshImports (m : Model) :
    m.refreshImports.refreshImports = m.refreshImports := by
  induction m using induction with
  | step m ih =>
      have himports : importsOf m.refreshImports = importsOf m := by
        rw [importsOf, importsOf, references_refreshImports, name_refreshImports, refreshImports_eq]
      have hlink : (m.link.map refreshImports).map refreshImports = m.link.map refreshImports := by
        rw [Option.map_map]
        exact Option.map_congr fun part hpart =>
          ih part (List.mem_append_left _ (Option.mem_toList.2 hpart))
      have hproperties : (m.properties.map refreshImports).map refreshImports =
          m.properties.map refreshImports := by
        rw [List.map_map]
        exact List.map_congr_left fun part hpart => ih part (List.mem_append_right _ hpart)
      calc m.refreshImports.refreshImports
          = { m with
              imports := importsOf m.refreshImports
              link := (m.link.map refreshImports).map refreshImports
              properties := (m.properties.map refreshImports).map refreshImports } := by
            rw [refreshImports_eq m.refreshImports, refreshImports_eq m]
        _ = m.refreshImports := by
            rw [himports, hlink, hproperties, refreshImports_eq]

/-- Redirecting every name to itself changes nothing. -/
@[simp]
theorem redirect_id (m : Model) : m.redirect id = m := by
  induction m using induction with
  | step m ih =>
      have hlink : m.link.map (redirect id) = m.link := by
        refine (Option.map_congr fun part hpart => ?_).trans Option.map_id_apply
        exact ih part (List.mem_append_left _ (Option.mem_toList.2 hpart))
      have hproperties : m.properties.map (redirect id) = m.properties := by
        refine (List.map_congr_left fun part hpart => ?_).trans (List.map_id _)
        exact ih part (List.mem_append_right _ hpart)
      rw [redirect_eq, hlink, hproperties, id_eq, ite_self]
      cases m
      rfl

/-- Only the names that a model mentions make a difference to it. -/
theorem redirect_congr {m : Model} {f g : String → String}
    (h : ∀ name ∈ m.references, f name = g name) : m.redirect f = m.redirect g := by
  induction m using induction with
  | step m ih =>
      have hparts : ∀ part ∈ m.parts, part.redirect f = part.redirect g := fun part hpart =>
        ih part hpart fun name hname => h name (mem_references_of_mem_parts hpart hname)
      have hbase : (if m.kind = .reference then f m.base else m.base) =
          if m.kind = .reference then g m.base else m.base := by
        split
        · rename_i hkind
          exact h m.base (base_mem_references hkind)
        · rfl
      have hlink : m.link.map (redirect f) = m.link.map (redirect g) :=
        Option.map_congr fun part hpart =>
          hparts part (List.mem_append_left _ (Option.mem_toList.2 hpart))
      have hproperties : m.properties.map (redirect f) = m.properties.map (redirect g) :=
        List.map_congr_left fun part hpart => hparts part (List.mem_append_right _ hpart)
      rw [redirect_eq, redirect_eq, hbase, hlink, hproperties]

theorem redirect_eq_self {m : Model} {target : String → String}
    (h : ∀ name ∈ m.references, target name = name) : m.redirect target = m :=
  (redirect_congr h).trans (redirect_id m)

end Model

end TypedClient
