import TypedClient.Proofs.Client.Drafted
import TypedClient.Proofs.Client.Position
import TypedClient.Proofs.Model.Populated

/-!
# When the schemas of a client can be compiled

The definitions of a client come from the component schemas, the promoted responses and the inline
objects. `wellFormed_definitions_iff` is the main result: their JSON Schemas are all well formed
exactly if these schemas are populated. `null` is no value of an enumeration and its schema no
member of a composition, so that a schema which lists nothing else is not.
-/

namespace TypedClient

namespace Document

/-- No schema of the document declares a property twice. -/
def HasDistinctNames (d : Document) : Prop := ∀ s, d.Declares s → s.HasDistinctNames

/-- The schemas that definitions are made from have something in them, with what is inside. -/
structure IsPopulated (d : Document) (promote : Bool) : Prop where
  named : ∀ n ∈ d.named promote, n.schema.HasContent n.parts ∧ Schema.PartsPopulated n.parts
  objects : ∀ p spot, d.object? promote p = some spot → Schema.PartsPopulated spot.schema.parts

variable {d : Document} {promote : Bool}

/-- What is attached at an anchor is declared, or a part of what is declared. -/
theorem Attached.hasDistinctNames (hd : d.HasDistinctNames) {a : Anchor} {spot : Spot}
    (h : d.Attached promote a spot) : spot.schema.HasDistinctNames := by
  cases h with
  | definition n index segment name isRequired s hn hpart =>
      have hschema := hd n.schema (Client.declares_of_mem_named hn)
      exact hschema.part (List.mem_of_getElem? hpart) rfl
  | argument service number x p identifier s hx hp hs =>
      have hitem := Operation.inline_mem_of_mem_parameters (mem_declarations_of_declaration? hx)
        (List.of_mem_zip hp).1
      exact hd s (Operation.declares_of_schemaOf? hitem hs)
  | body service number x source hx hsource =>
      obtain ⟨body, mediaType, s⟩ := source
      exact hd s (Operation.declares_of_bodySource? (mem_declarations_of_declaration? hx) hsource)
  | response service number index x status item response s hx hresponse hs =>
      obtain ⟨⟨key, entry⟩, hentry, hbuilt⟩ := List.mem_filterMap.1 (List.mem_of_getElem? hresponse)
      obtain ⟨_, -, hbuilt⟩ := Option.bind_eq_some_iff.1 hbuilt
      obtain ⟨_, hfound, hbuilt⟩ := Option.bind_eq_some_iff.1 hbuilt
      cases Option.some.inj hbuilt
      have hhas : response.content.Has s := by
        unfold Operation.inlineSchema? at hs
        split at hs
        · rename_i hcontent
          split at hs
          · cases hs
          · exact Option.some.inj hs ▸ Operation.has_of_preferred? hcontent
        · cases hs
      have hinline := Operation.inline_mem_of_response? (mem_declarations_of_declaration? hx)
        hentry hfound
      exact hd s (.response response s hinline hhas)

end Document

namespace Client

variable {d : Document} {promote : Bool}

/-! ## Definitions of the draft -/

/-- The definitions of a draft are orderly. -/
theorem orderly_of_mem_models_drafted (hd : d.HasDistinctNames) {m : Model}
    (hm : m ∈ (drafted d promote).models) : m.Orderly := by
  rw [models_drafted, List.mem_append, Document.builtComponents, List.map_map] at hm
  rcases hm with hm | hm
  · obtain ⟨n, hn, rfl⟩ := List.mem_map.1 hm
    have hschema := hd n.schema (declares_of_mem_named hn)
    exact (Model.orderlyBuild_definition n.scope n.name n.origin hschema).model
  · obtain ⟨source, hsource, hm⟩ := List.mem_flatMap.1 hm
    obtain ⟨a, spot, hattached, hm⟩ := exists_attached_of_mem_sources hsource hm
    have hschema := hattached.hasDistinctNames hd
    exact (Model.orderlyBuild_embed spot.scope "" spot.place hschema).lifted m hm

/-- The definitions of a draft are those of the components and those of the inline objects. -/
theorem forall_mem_models_drafted_iff {P : Model → Prop}
    (hnodup : (d.declaredNames promote).Nodup) :
    (∀ m ∈ (drafted d promote).models, P m) ↔
      (∀ n ∈ d.named promote, P n.define.1) ∧
        ∀ p spot, d.object? promote p = some spot → P spot.definition := by
  have hlifted : (∀ m ∈ (sources d promote).flatMap (·.2), P m) ↔
      ∀ p spot, d.object? promote p = some spot → P spot.definition := by
    rw [← liftedModels_drafted]
    constructor
    · intro h p spot hspot
      exact h _ ((mem_lifted_iff hnodup).2 ⟨p, spot, hspot, rfl⟩)
    · intro h m hm
      obtain ⟨p, spot, hspot, rfl⟩ := (mem_lifted_iff hnodup).1 hm
      exact h p spot hspot
  rw [models_drafted, List.forall_mem_append, hlifted, Document.builtComponents, List.map_map,
    List.forall_mem_map]
  rfl

/-- The definitions of a draft are populated exactly if the document is. -/
theorem populated_models_drafted_iff (hnodup : (d.declaredNames promote).Nodup) :
    (∀ m ∈ (drafted d promote).models, m.Populated) ↔ d.IsPopulated promote := by
  have hnamed : ∀ n ∈ d.named promote, n.define.1.Populated ↔
      n.schema.HasContent n.parts ∧ Schema.PartsPopulated n.parts :=
    fun _ _ => Model.populated_definition_iff
  have hobject : ∀ p spot, d.object? promote p = some spot →
      (spot.definition.Populated ↔ Schema.PartsPopulated spot.schema.parts) := by
    intro p spot hspot
    obtain ⟨start, -, hfound⟩ := Option.bind_eq_some_iff.1 hspot
    obtain ⟨segments, s, -, hs, rfl⟩ := Spot.object?_eq_some_iff.1 hfound
    exact Model.populated_liftedDefinition_iff hs
  rw [forall_mem_models_drafted_iff hnodup]
  constructor
  · rintro ⟨hdefinitions, hobjects⟩
    exact ⟨fun n hn => (hnamed n hn).1 (hdefinitions n hn),
      fun p spot hspot => (hobject p spot hspot).1 (hobjects p spot hspot)⟩
  · rintro ⟨hdefinitions, hobjects⟩
    exact ⟨fun n hn => (hnamed n hn).2 (hdefinitions n hn),
      fun p spot hspot => (hobject p spot hspot).2 (hobjects p spot hspot)⟩

/-! ## Definitions of the finished client -/

/-- What a definition has under every name, with its references redirected, the definitions of a
finished client have. -/
theorem forall_mem_models_finished_iff {c : Client} {P Q : Model → Prop}
    (h : ∀ m ∈ c.models, ∀ name, (Q (finishModel c.target (withName m name)) ↔ P m)) :
    (∀ m ∈ c.finished.models, Q m) ↔ ∀ m ∈ c.models, P m := by
  constructor
  · intro hfinished m hm
    obtain ⟨name, hname⟩ := exists_withName_mem_namedModels hm
    refine (h m hm name).1 (hfinished _ ((models_finished_perm c).mem_iff.2 ?_))
    exact List.mem_map_of_mem hname
  · intro hdrafted m hm
    obtain ⟨named, hnamed, rfl⟩ := List.mem_map.1 ((models_finished_perm c).mem_iff.1 hm)
    obtain ⟨n, hn, name, rfl⟩ := exists_withName_of_mem_namedModels hnamed
    exact (h n hn name).2 (hdrafted n hn)

/-- The schemas of the definitions of a client are well formed exactly if the document has something
in every schema that they are made from. -/
theorem wellFormed_definitions_iff (hd : d.HasDistinctNames) {c : Client}
    (h : (draft d promote >>= finish) = .ok c) :
    (∀ m ∈ c.models, m.definitionSchema.WellFormed) ↔ d.IsPopulated promote := by
  obtain ⟨hnodup, rfl⟩ := draft_bind_finish_eq_ok_iff.1 h
  rw [← populated_models_drafted_iff hnodup]
  -- A new name and new targets of references keep a model orderly and populated.
  refine forall_mem_models_finished_iff fun m hm name => ?_
  have hnamed : (withName m name).Orderly :=
    (orderly_of_mem_models_drafted hd hm).congr rfl rfl rfl rfl
  have horderly : (finishModel (drafted d promote).target (withName m name)).Orderly :=
    (hnamed.redirect _).refreshImports
  rw [Model.wellFormed_definitionSchema_iff horderly, finishModel,
    Model.populated_refreshImports, Model.populated_redirect]
  exact Model.populated_congr rfl rfl rfl rfl

/-- A size with a missing value, and a shirt with a size and a label. -/
def shirtDocument : Document where
  openapi := "3.0.0"
  components := some { schemas :=
    [("Size", { enumValues := [.string "S", .string "L", .null] }),
      ("Shirt", { required := ["size"], properties :=
        [("size", { ref := some "#/components/schemas/Size" }),
          ("label", { type := some (.multiple ["string", "integer", "null"]) })] })] }

theorem hasDistinctNames_shirtDocument : shirtDocument.HasDistinctNames := by
  rintro s (⟨key, _, hmem⟩ | ⟨p, _, hp, -⟩ | ⟨p, _, _, hp, -⟩ | ⟨body, _, hbody, -⟩ |
    ⟨response, _, hresponse, -⟩)
  case component =>
    simp only [shirtDocument, Document.schemas, Option.map_some, Option.getD_some, List.mem_cons,
      Prod.mk.injEq, List.not_mem_nil, or_false] at hmem
    rcases hmem with ⟨-, rfl⟩ | ⟨-, rfl⟩
    · exact Schema.hasDistinctNames_of_leaf rfl rfl rfl rfl rfl rfl
    · refine Schema.hasDistinctNames_iff.2 ⟨by decide, fun t ht => ?_⟩
      cases ht with
      | property name _ hproperty =>
          simp only [List.mem_cons, Prod.mk.injEq, List.not_mem_nil, or_false] at hproperty
          rcases hproperty with ⟨-, rfl⟩ | ⟨-, rfl⟩ <;>
            exact Schema.hasDistinctNames_of_leaf rfl rfl rfl rfl rfl rfl
      | items _ hitems => cases hitems
      | anyOf _ _ hms => cases hms
      | oneOf _ _ hms => cases hms
      | allOf _ _ hms => cases hms
      | additional _ hvalue => cases hvalue
  case parameter => cases hp
  case parameterContent => cases hp
  case requestBody => cases hbody
  case response => cases hresponse

theorem isPopulated_shirtDocument : shirtDocument.IsPopulated false := by
  have hnodup : (shirtDocument.declaredNames false).Nodup := by decide
  have hlifted : liftedModels (drafted shirtDocument false).models = [] := by rfl
  refine ⟨fun n hn => ?_, fun p spot hspot => ?_⟩
  · simp only [Document.named, shirtDocument, Document.schemas, Document.promoted, Option.map_some,
      Option.getD_some, List.map_cons, List.map_nil, List.append_nil, List.mem_cons,
      List.not_mem_nil, or_false, Bool.false_eq_true, if_false] at hn
    rcases hn with rfl | rfl
    · exact ⟨⟨fun _ => ⟨.string "S", by decide, by decide⟩, fun h => absurd h (by decide)⟩,
        List.forall_mem_nil _⟩
    · refine ⟨⟨fun h => absurd h (by decide), fun h => absurd h (by decide)⟩, ?_⟩
      refine List.forall_mem_cons.2 ⟨fun t ht => ?_, List.forall_mem_singleton.2 fun t ht => ?_⟩
      · obtain rfl := Option.some.inj ht
        exact .inline ⟨fun h => absurd h (by decide), fun h => absurd h (by decide)⟩
          (List.forall_mem_nil _)
      · obtain rfl := Option.some.inj ht
        refine .inline ⟨fun h => absurd h (by decide), fun _ => List.cons_ne_nil _ _⟩ ?_
        refine List.forall_mem_cons.2 ⟨fun t ht => ?_, List.forall_mem_singleton.2 fun t ht => ?_⟩
        · cases ht
        · cases ht
  · -- No inline object is lifted from this document.
    have hmem := (mem_lifted_iff hnodup).2 ⟨p, spot, hspot, rfl⟩
    rw [hlifted] at hmem
    cases hmem

theorem wellFormed_definitions_shirtDocument :
    shirtDocument.HasDistinctNames ∧
      ∃ c, (draft shirtDocument false >>= finish) = .ok c ∧ c.models.length = 2 ∧
        ∀ m ∈ c.models, m.definitionSchema.WellFormed := by
  have hclient : (draft shirtDocument false >>= finish) =
      .ok (drafted shirtDocument false).finished :=
    draft_bind_finish_eq_ok_iff.2 ⟨by decide, rfl⟩
  have hlength : (drafted shirtDocument false).finished.models.length = 2 := by
    rw [(models_finished_perm _).length_eq]
    rfl
  exact ⟨hasDistinctNames_shirtDocument, _, hclient, hlength,
    (wellFormed_definitions_iff hasDistinctNames_shirtDocument hclient).2 isPopulated_shirtDocument⟩

/-- An enumeration of `null` alone. -/
def nothingDocument : Document where
  openapi := "3.0.0"
  components := some { schemas := [("Nothing", { enumValues := [.null] })] }

/-- Its schema lists no value beside `null`. -/
theorem not_wellFormed_nothingDocument :
    ∃ c, (draft nothingDocument false >>= finish) = .ok c ∧ ∃ m ∈ c.models,
      m.definitionSchema = .object
        [("anyOf", .array [.object [("enum", .array [])], .object [("type", .string "null")]]),
          ("$id", .string "Nothing")] ∧
      ¬ m.definitionSchema.WellFormed := by
  let nothing := Model.definition "schemas" "Nothing" { enumValues := [.null] } .schema
  have hmem : finishModel (drafted nothingDocument false).target nothing.1 ∈
      (drafted nothingDocument false).finished.models :=
    (models_finished_perm _).mem_iff.2 List.mem_cons_self
  refine ⟨_, draft_bind_finish_eq_ok_iff.2 ⟨by decide, rfl⟩, _, hmem, rfl, fun hwellFormed => ?_⟩
  have hinside : (finishModel (drafted nothingDocument false).target
      nothing.1).definitionSchema.Inside (.object [("enum", .array [])]) :=
    .member List.mem_cons_self (.item List.mem_cons_self (.self _))
  exact (hwellFormed _ hinside).alternatives "enum" (by decide) List.mem_cons_self

end Client

end TypedClient
