import TypedClient.Proofs.Client.Finished
import TypedClient.Proofs.Document.Chain
import TypedClient.Proofs.Naming.Repeated
import TypedClient.Proofs.Operation.Sources

/-!
# Drafted clients

`declaredNames` are the names that a document fixes: those of its component schemas, and
those of its shared responses if they are promoted. `drafted` is the client that `draft`
gives unless a promoted response takes a name that is in use (`draft_eq_ok_iff`). The names
that are fixed in the drafted client are the declared ones: `fixedNames_drafted`.

A document has no client exactly if one of its declared names occurs twice. The check is
made in two steps. Drafting compares the promoted responses with each other and with the
component schemas, and finishing compares all fixed names, which are the declared ones.
`draft_finish_error_iff` joins the two. Lifted definitions play no part in it.
-/

namespace TypedClient

namespace Document

/-- The shared responses that become definitions. -/
def promoted (d : Document) (promote : Bool) : List Model.Promotable :=
  if promote then Model.promotables d else []

/-- What is promoted are the schemas of the inline responses. -/
theorem mem_promoted_iff {d : Document} {p : Model.Promotable} :
    p ∈ d.promoted true ↔ ∃ response media,
      (p.component, RefOr.inline response) ∈ d.sharedResponses ∧
        (p.mediaType, media) ∈ response.content ∧ media.schema = some p.schema := by
  have hpromoted : d.promoted true =
      d.sharedResponses.flatMap fun entry => Model.promotableOf entry.1 entry.2 := by
    rw [promoted, if_pos rfl, Model.promotables, sharedResponses]
    cases d.components <;> rfl
  rw [hpromoted, List.mem_flatMap]
  constructor
  · rintro ⟨⟨component, item⟩, hitem, hp⟩
    cases item with
    | ref target => cases hp
    | inline response =>
        obtain ⟨⟨mediaType, media⟩, hmedia, hp⟩ := List.mem_filterMap.1 hp
        obtain ⟨s, hs, rfl⟩ := Option.map_eq_some_iff.1 hp
        exact ⟨response, media, hitem, hmedia, hs⟩
  · rintro ⟨response, media, hitem, hmedia, hs⟩
    exact ⟨_, hitem, List.mem_filterMap.2 ⟨_, hmedia, Option.map_eq_some_iff.2 ⟨_, hs, rfl⟩⟩⟩

/-- The names that the document fixes: those of the component schemas, then those of the promoted
responses. -/
def declaredNames (d : Document) (promote : Bool) : List String :=
  d.schemas.map (fun (key, _) => Naming.typeName key) ++ (d.promoted promote).map (·.name)

/-- A schema that becomes a definition under a declared name. -/
structure Named where
  scope : String
  name : String
  schema : Schema
  origin : Model.Origin

/-- The definition, and those lifted out of it. -/
def Named.define (n : Named) : Model × List Model :=
  Model.definition n.scope n.name n.schema n.origin

/-- The component schemas, then the promoted responses. -/
def named (d : Document) (promote : Bool) : List Named :=
  (d.schemas.map fun (key, s) => ⟨"schemas", Naming.typeName key, s, .schema⟩) ++
    (d.promoted promote).map fun p => ⟨"responses", p.name, p.schema, p.origin⟩

theorem names_named (d : Document) (promote : Bool) :
    (d.named promote).map (·.name) = d.declaredNames promote := by
  rw [named, List.map_append, List.map_map, List.map_map]
  rfl

/-- The definitions of the components, each with those lifted out of it. -/
def builtComponents (d : Document) (promote : Bool) : List (Model × List Model) :=
  (d.named promote).map (·.define)

/-- The promoted definitions that stand for shared responses. -/
def promotions (d : Document) (promote : Bool) : Model.Promotions :=
  (d.promoted promote).map fun p => ((p.component, p.mediaType), p.name)

end Document

namespace Client

open Model (IsProvisionalName)

/-- The client of a document before its names are final. -/
def drafted (d : Document) (promote : Bool) : Client :=
  { version := versionNumber d.info.version
    server := serverAddress d
    models := (d.builtComponents promote).map (·.1) ++ (d.builtComponents promote).flatMap (·.2) ++
      (operations d (d.promotions promote)).flatMap (·.2)
    services := group ((operations d (d.promotions promote)).map (·.1)) }

/-- A promoted response is looked for by the search for repeated names. -/
theorem firstTaken?_eq (taken : List String) (ps : List Model.Promotable) :
    Model.firstTaken? taken ps = Naming.firstRepeat? Model.Promotable.name taken ps := by
  induction ps generalizing taken with
  | nil => rfl
  | cons p rest ih => rw [Model.firstTaken?, Naming.firstRepeat?, ih]

/-- The definitions of the component schemas and of the promoted responses. -/
theorem builtComponents_eq (d : Document) (promote : Bool) :
    d.builtComponents promote =
      Model.schemaDefinitions d ++ (d.promoted promote).map (·.define) := by
  rw [Document.builtComponents, Document.named, List.map_append, List.map_map, List.map_map]
  rfl

/-- The names of the definitions of the component schemas. -/
theorem names_schemaDefinitions (d : Document) :
    (Model.schemaDefinitions d).map (·.1.name) =
      d.schemas.map fun (key, _) => Naming.typeName key := by
  rw [Model.schemaDefinitions, List.map_map]
  apply List.map_congr_left
  rintro ⟨key, s⟩ _
  exact Model.name_definition _ _ _ _

theorem draft_eq (d : Document) (promote : Bool) :
    draft d promote =
      match Naming.firstRepeat? Model.Promotable.name
        (d.schemas.map fun (key, _) => Naming.typeName key) (d.promoted promote) with
      | some p => .error (.nameCollision p.name p.origin.text)
      | none => .ok (drafted d promote) := by
  rw [← names_schemaDefinitions, ← firstTaken?_eq]
  simp only [drafted, builtComponents_eq, draft, Model.ofComponents]
  rw [Document.promoted]
  cases Model.firstTaken? ((Model.schemaDefinitions d).map (·.1.name))
      (if promote then Model.promotables d else []) with
  | some p => rfl
  | none => rfl

/-- A document is drafted exactly if no promoted response takes a name that is in use. -/
theorem draft_eq_ok_iff {d : Document} {promote : Bool} {c : Client} :
    draft d promote = .ok c ↔
      (((d.promoted promote).map (·.name)).Nodup ∧ ∀ p ∈ d.promoted promote,
        p.name ∉ d.schemas.map fun (key, _) => Naming.typeName key) ∧ c = drafted d promote := by
  rw [draft_eq, ← Naming.firstRepeat?_eq_none_iff]
  cases hfirst : Naming.firstRepeat? Model.Promotable.name
      (d.schemas.map fun (key, _) => Naming.typeName key) (d.promoted promote) with
  | some p => simp
  | none =>
      simp only [Except.ok.injEq, true_and]
      exact eq_comm

/-- What refuses a document is a declared name that occurs twice. -/
theorem duplicate_of_draft_eq_error {d : Document} {promote : Bool} {e : Error}
    (h : draft d promote = .error e) :
    ∃ name origin, e = .nameCollision name origin ∧
      List.Duplicate name (d.declaredNames promote) := by
  rw [draft_eq] at h
  split at h
  · rename_i p hfirst
    refine ⟨p.name, p.origin.text, (Except.error.inj h).symm, ?_⟩
    obtain ⟨hmem, htaken | hduplicate⟩ := Naming.firstRepeat?_eq_some hfirst
    · rw [List.duplicate_iff_two_le_count, Document.declaredNames, List.count_append]
      have hschema := List.count_pos_iff.2 htaken
      have hpromoted := List.count_pos_iff.2 (List.mem_map_of_mem (f := (·.name)) hmem)
      omega
    · exact hduplicate.mono_sublist (List.sublist_append_right _ _)
  · cases h

/-! ## The definitions of a drafted client -/

/-- A definition of a component has its declared name. -/
theorem names_builtComponents (d : Document) (promote : Bool) :
    (d.builtComponents promote).map (·.1.name) = d.declaredNames promote := by
  rw [← Document.names_named, Document.builtComponents, List.map_map]
  apply List.map_congr_left
  intro n _
  exact Model.name_definition _ _ _ _

/-- The declared names are type names. -/
theorem isTypeName_of_mem_declaredNames {d : Document} {promote : Bool} {name : String}
    (h : name ∈ d.declaredNames promote) : Naming.IsTypeName name := by
  rcases List.mem_append.1 h with h | h
  · obtain ⟨⟨key, s⟩, _, rfl⟩ := List.mem_map.1 h
    exact Naming.isTypeName_typeName key
  · obtain ⟨p, _, rfl⟩ := List.mem_map.1 h
    exact Naming.isTypeName_typeName _

variable {known : String → Prop} {d : Document} {promote : Bool}

/-- A promoted response has a declared schema. -/
theorem declares_of_mem_promotables {p : Model.Promotable} (hp : p ∈ d.promoted promote) :
    d.Declares p.schema := by
  cases promote with
  | false => simp [Document.promoted] at hp
  | true =>
      obtain ⟨response, media, hitem, hmedia, hs⟩ := Document.mem_promoted_iff.1 hp
      have hshared : Document.RefOr.inline response ∈ d.sharedResponses.map (·.2) :=
        List.mem_map_of_mem hitem
      exact .response response p.schema (List.mem_append_left _ hshared)
        ⟨p.mediaType, media, hmedia, hs⟩

/-- Every schema that becomes a definition is declared. -/
theorem declares_of_mem_named {n : Document.Named} (hn : n ∈ d.named promote) :
    d.Declares n.schema := by
  rcases List.mem_append.1 hn with hn | hn
  · obtain ⟨⟨key, s⟩, hs, rfl⟩ := List.mem_map.1 hn
    exact .component key s hs
  · obtain ⟨p, hp, rfl⟩ := List.mem_map.1 hn
    exact declares_of_mem_promotables hp

/-- What a drafted client is built from: the definitions of the components and the models of the
operations, each with the definitions lifted out of it. -/
def sources (d : Document) (promote : Bool) : List (Model × List Model) :=
  d.builtComponents promote ++
    (Operation.declarations d).flatMap (·.sources d (d.promotions promote))

/-- Every source mentions known names and its own definitions only. -/
theorem closed_of_mem_sources {source : Model × List Model} (hsource : source ∈ sources d promote)
    (hpromoted : ∀ p ∈ d.promoted promote, known p.name)
    (h : ∀ s, d.Declares s → ∀ ref, s.Mentions ref → known (Pointer.typeName ref)) :
    Model.Closed known source := by
  rcases List.mem_append.1 hsource with hsource | hsource
  · obtain ⟨n, hn, rfl⟩ := List.mem_map.1 hsource
    exact Model.closed_definition _ _ _ (h n.schema (declares_of_mem_named hn))
  · obtain ⟨x, hx, hsource⟩ := List.mem_flatMap.1 hsource
    refine Operation.closed_source hx ?_ h hsource
    intro entry hentry
    obtain ⟨p, hp, rfl⟩ := List.mem_map.1 hentry
    exact hpromoted p hp

/-- The definitions of a drafted client: the components, and what is lifted out of the sources. -/
theorem models_drafted (d : Document) (promote : Bool) :
    (drafted d promote).models =
      (d.builtComponents promote).map (·.1) ++ (sources d promote).flatMap (·.2) := by
  simp only [drafted, sources, Operation.operations_eq, List.flatMap_map, List.flatMap_append,
    List.flatMap_assoc, Operation.Declaration.build_snd, List.append_assoc]

/-- Every lifted definition has a provisional name. -/
theorem isProvisionalName_of_mem_lifted {m : Model}
    (h : m ∈ (sources d promote).flatMap (·.2)) : IsProvisionalName m.name := by
  obtain ⟨source, hsource, hm⟩ := List.mem_flatMap.1 h
  have hclosed : Model.Closed (fun _ => True) source :=
    closed_of_mem_sources hsource (fun _ _ => trivial) fun _ _ _ _ => trivial
  exact hclosed.provisional m hm

/-- No definition of a component has one. -/
theorem not_isProvisionalName_of_mem_components {m : Model}
    (h : m ∈ (d.builtComponents promote).map (·.1)) : ¬ IsProvisionalName m.name := by
  apply Model.not_isProvisionalName_of_isTypeName
  have hname : m.name ∈ d.declaredNames promote := by
    rw [← names_builtComponents]
    obtain ⟨built, hbuilt, rfl⟩ := List.mem_map.1 h
    exact List.mem_map.2 ⟨built, hbuilt, rfl⟩
  exact isTypeName_of_mem_declaredNames hname

theorem fixedModels_drafted (d : Document) (promote : Bool) :
    fixedModels (drafted d promote).models = (d.builtComponents promote).map (·.1) := by
  rw [models_drafted, fixedModels, List.filter_append, List.filter_eq_self.2,
    List.filter_eq_nil_iff.2, List.append_nil]
  · intro m hm
    simpa [Model.isProvisional_iff] using isProvisionalName_of_mem_lifted hm
  · intro m hm
    simpa [← Model.isProvisional_iff] using not_isProvisionalName_of_mem_components hm

theorem liftedModels_drafted (d : Document) (promote : Bool) :
    liftedModels (drafted d promote).models = (sources d promote).flatMap (·.2) := by
  rw [models_drafted, liftedModels, List.filter_append, List.filter_eq_nil_iff.2,
    List.filter_eq_self.2, List.nil_append]
  · intro m hm
    exact Model.isProvisional_iff.2 (isProvisionalName_of_mem_lifted hm)
  · intro m hm
    rw [Model.isProvisional_iff]
    exact not_isProvisionalName_of_mem_components hm

/-- The fixed names of a drafted client are the declared ones. -/
theorem fixedNames_drafted (d : Document) (promote : Bool) :
    fixedNames (drafted d promote).models = d.declaredNames promote := by
  rw [fixedNames, fixedModels_drafted, List.map_map]
  exact names_builtComponents d promote

/-! ## When a document is refused -/

/-- A document has a client exactly if its declared names are pairwise different. -/
theorem draft_bind_finish_eq_ok_iff {c : Client} :
    (draft d promote >>= finish) = .ok c ↔
      (d.declaredNames promote).Nodup ∧ c = (drafted d promote).finished := by
  have hbind : (draft d promote >>= finish) = .ok c ↔
      ∃ b, draft d promote = .ok b ∧ b.finish = .ok c := by
    cases hdraft : draft d promote with
    | error e => simp [bind, Except.bind]
    | ok b => simp [bind, Except.bind]
  rw [hbind]
  constructor
  · rintro ⟨b, hdraft, hfinish⟩
    obtain ⟨_, rfl⟩ := draft_eq_ok_iff.1 hdraft
    rw [finish_eq_ok_iff, fixedNames_drafted] at hfinish
    exact hfinish
  · rintro ⟨hnodup, rfl⟩
    refine ⟨drafted d promote, draft_eq_ok_iff.2 ⟨?_, rfl⟩, finish_eq_ok_iff.2 ⟨?_, rfl⟩⟩
    · rw [Document.declaredNames, List.nodup_append'] at hnodup
      obtain ⟨_, hpromoted, hdisjoint⟩ := hnodup
      exact ⟨hpromoted, fun p hp hmem => hdisjoint hmem (List.mem_map_of_mem hp)⟩
    · rwa [fixedNames_drafted]

/-- What refuses a document is a declared name that occurs twice. -/
theorem duplicate_of_draft_bind_finish_eq_error {e : Error}
    (h : (draft d promote >>= finish) = .error e) :
    ∃ name origin, e = .nameCollision name origin ∧
      List.Duplicate name (d.declaredNames promote) := by
  cases hdraft : draft d promote with
  | error e' =>
      obtain rfl : e' = e := by simpa [hdraft, bind, Except.bind] using h
      exact duplicate_of_draft_eq_error hdraft
  | ok c =>
      obtain ⟨_, rfl⟩ := draft_eq_ok_iff.1 hdraft
      have hfinish : (drafted d promote).finish = .error e := by
        simpa [hdraft, bind, Except.bind] using h
      rw [← fixedNames_drafted]
      exact duplicate_of_finish_eq_error hfinish

/-- A document is refused exactly if a declared name occurs twice. The failure then names such a
name, so that no lifted definition is ever the cause. -/
theorem draft_finish_error_iff (d : Document) (promote : Bool) :
    ((∃ e, (draft d promote >>= finish) = .error e) ↔ ¬ (d.declaredNames promote).Nodup) ∧
      ∀ e, (draft d promote >>= finish) = .error e →
        ∃ name origin, e = .nameCollision name origin ∧
          2 ≤ (d.declaredNames promote).count name := by
  have hduplicate : ∀ e, (draft d promote >>= finish) = .error e →
      ∃ name origin, e = .nameCollision name origin ∧
        2 ≤ (d.declaredNames promote).count name := by
    intro e he
    obtain ⟨name, origin, heq, hname⟩ := duplicate_of_draft_bind_finish_eq_error he
    exact ⟨name, origin, heq, List.duplicate_iff_two_le_count.1 hname⟩
  refine ⟨⟨?_, ?_⟩, hduplicate⟩
  · rintro ⟨e, he⟩ hnodup
    obtain ⟨name, _, _, hcount⟩ := hduplicate e he
    exact List.nodup_iff_forall_not_duplicate.1 hnodup name
      (List.duplicate_iff_two_le_count.2 hcount)
  · intro hrepeated
    cases hresult : draft d promote >>= finish with
    | error e => exact ⟨e, rfl⟩
    | ok c => exact absurd (draft_bind_finish_eq_ok_iff.1 hresult).1 hrepeated

end Client

end TypedClient
