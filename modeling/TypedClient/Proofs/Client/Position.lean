import TypedClient.Proofs.Client.Drafted
import TypedClient.Proofs.Model.Position

/-!
# The positions of inline objects

An inline schema is attached to a part of a definition or to an operation, and further
schemas stand inside it. `d.spot? promote a` is the schema at an anchor and
`d.object? promote p` the object at a position, with the scope and the place that its
definition is made from. `d.Attached promote a spot` lists what may stand at an anchor. The
lifted definitions of a draft are those of the objects at all positions: `mem_lifted_iff`.
-/

namespace TypedClient

/-- Where an inline schema is attached: to a part of a definition, or to the operation with the
given number within its service. -/
inductive Anchor where
  | definition (name : String) (index : Nat)
  | argument (service : String) (number : Nat) (identifier : String)
  | body (service : String) (number : Nat)
  | response (service : String) (number index : Nat)
deriving DecidableEq, Repr

/-- A position in a document: a route from an anchor on. -/
structure Position where
  anchor : Anchor
  route : List Nat
deriving DecidableEq, Repr

/-- A schema with the scope and the place that its definition is made from. -/
structure Spot where
  scope : String
  place : List String
  schema : Schema

namespace Spot

/-- The provisional name of the definition. -/
def key (spot : Spot) : String := Model.provisionalName spot.scope spot.place

/-- The definition, with its provisional name. -/
def definition (spot : Spot) : Model :=
  Model.liftedDefinition spot.scope spot.place spot.schema

/-- The model that is left at the spot, and the definitions lifted out of it. -/
def built (spot : Spot) : Model × List Model :=
  Model.embed spot.scope "" spot.place spot.schema

/-- The name of a model makes no difference to its type. -/
theorem alike_embed (scope name : String) (place : List String) (s : Schema) :
    Model.Alike (Model.embed scope name place s).1 (Spot.mk scope place s).built.1 := by
  by_cases hs : s.outline.shape = .object
  · rw [built, Model.embed_of_object _ _ _ hs, Model.embed_of_object _ _ _ hs]
    exact ⟨rfl, rfl, rfl⟩
  · rw [built, Model.embed_of_not_object _ _ _ hs, Model.embed_of_not_object _ _ _ hs]
    exact ⟨rfl, rfl, rfl⟩

/-- A part is of the type of the model left at its spot. -/
theorem alike_ofPart (scope segment name : String) (place : List String)
    (isRequired : Bool) (s : Schema) :
    Model.Alike (Model.ofPart scope place (.inner segment name isRequired s))
      (Spot.mk scope (place ++ [segment]) s).built.1 := by
  have hpart : Model.Alike (Model.ofPart scope place (.inner segment name isRequired s))
      (Model.embed scope name (place ++ [segment]) s).1 := ⟨rfl, rfl, rfl⟩
  exact hpart.trans (alike_embed scope name (place ++ [segment]) s)

/-- An inline model is of the type of the model left at its spot, with its imports. -/
theorem alike_inline (scope name : String) (place : List String) (s : Schema) :
    Model.Alike (Model.inline scope name place s).1
      (Spot.mk scope place s).built.1.refreshImports :=
  (alike_embed scope name place s).refreshImports

/-- The same definitions are lifted out of it. -/
theorem inline_snd (scope name : String) (place : List String) (s : Schema) :
    (Model.inline scope name place s).2 = (Spot.mk scope place s).built.2 :=
  Model.embed_snd_eq scope name "" place s

/-- The object at a route. -/
def object? (spot : Spot) (route : List Nat) : Option Spot :=
  match spot.schema.at? route with
  | some (segments, s) =>
    if s.outline.shape = .object then some ⟨spot.scope, spot.place ++ segments, s⟩ else none
  | none => none

theorem object?_eq_some_iff {spot found : Spot} {route : List Nat} :
    spot.object? route = some found ↔
      ∃ segments s, spot.schema.at? route = some (segments, s) ∧ s.outline.shape = .object ∧
        found = ⟨spot.scope, spot.place ++ segments, s⟩ := by
  unfold object?
  cases spot.schema.at? route with
  | none => simp
  | some pair =>
      obtain ⟨segments, s⟩ := pair
      by_cases hs : s.outline.shape = .object
      · simp [hs, eq_comm]
      · simp [hs]

/-- An object is found at the empty route. -/
theorem object?_nil {spot : Spot} (h : spot.schema.outline.shape = .object) :
    spot.object? [] = some spot := by
  simp [object?, h]

/-- What is inside a part is found further on. -/
theorem object?_cons {spot : Spot} {index : Nat} {segment name : String} {isRequired : Bool}
    {s : Schema} (route : List Nat)
    (h : spot.schema.parts[index]? = some (.inner segment name isRequired s)) :
    spot.object? (index :: route) =
      (Spot.mk spot.scope (spot.place ++ [segment]) s).object? route := by
  unfold object?
  rw [Schema.at?_cons_of_inner route h]
  cases s.at? route <;> simp

/-- A route that leads on starts with a part that is a schema. -/
theorem exists_of_object?_cons {spot found : Spot} {index : Nat} {route : List Nat}
    (h : spot.object? (index :: route) = some found) :
    ∃ segment name isRequired s,
      spot.schema.parts[index]? = some (.inner segment name isRequired s) ∧
        (Spot.mk spot.scope (spot.place ++ [segment]) s).object? route = some found := by
  obtain ⟨_, _, hat, _, _⟩ := object?_eq_some_iff.1 h
  obtain ⟨segment, name, isRequired, s, _, hpart, _, _⟩ := Schema.exists_of_at?_cons hat
  rw [object?_cons route hpart] at h
  exact ⟨segment, name, isRequired, s, hpart, h⟩

/-- The key of an object on the way to another one is shorter. -/
theorem length_key_lt {spot mid found : Spot} {route more : List Nat} (hplace : spot.place ≠ [])
    (hmid : spot.object? route = some mid) (hfound : spot.object? (route ++ more) = some found)
    (hmore : more ≠ []) : mid.key.length < found.key.length := by
  obtain ⟨segments, t, ht, _, rfl⟩ := object?_eq_some_iff.1 hmid
  obtain ⟨place, u, hu, _, rfl⟩ := object?_eq_some_iff.1 hfound
  obtain ⟨rest, hrest, rfl⟩ := Schema.exists_of_at?_append ht hu
  -- Each step of the longer route adds a segment.
  have hne : rest ≠ [] := by
    have hlength := Schema.length_of_at? hrest
    intro hnil
    rw [hnil, List.length_nil] at hlength
    exact hmore (List.eq_nil_of_length_eq_zero hlength.symm)
  rw [key, key, ← List.append_assoc]
  exact Model.length_provisionalName_lt (List.append_ne_nil_of_left_ne_nil hplace _) hne

/-- The definitions lifted out of a spot are those of the objects inside it. -/
theorem mem_built_snd_iff {spot : Spot} {m : Model} :
    m ∈ spot.built.2 ↔ ∃ route found, spot.object? route = some found ∧ m = found.definition := by
  rw [built, Model.mem_embed_snd_iff]
  constructor
  · rintro ⟨route, segments, s, hat, hs, rfl⟩
    exact ⟨route, _, object?_eq_some_iff.2 ⟨segments, s, hat, hs, rfl⟩, rfl⟩
  · rintro ⟨route, found, hfound, rfl⟩
    obtain ⟨segments, s, hat, hs, rfl⟩ := object?_eq_some_iff.1 hfound
    exact ⟨route, segments, s, hat, hs, rfl⟩

end Spot

namespace Document

/-- The operation with the given number among those of a service. -/
def declaration? (d : Document) (service : String) (number : Nat) : Option Operation.Declaration :=
  ((Operation.declarations d).filter (·.service == service))[number]?

/-- The schema of a part. -/
def partSpot? (scope name : String) : Schema.Part → Option Spot
  | .inner segment _ _ s => some ⟨scope, [name, segment], s⟩
  | .plain _ => none

/-- What the parts of a definition are built from. -/
def Named.parts (n : Named) : List Schema.Part :=
  Schema.partsOf n.schema.outline.shape (n.schema.unwrap 1)

/-- The inline schema that is attached at an anchor. -/
def spot? (d : Document) (promote : Bool) : Anchor → Option Spot
  | .definition name index => do
    let n ← (d.named promote).find? (·.name == name)
    partSpot? n.scope n.name (← n.parts[index]?)
  | .argument service number identifier => do
    let x ← d.declaration? service number
    let (p, _) ← ((x.parameters d).zip (Operation.identifiers (x.parameters d))).find?
      (·.2 == identifier)
    let s ← Operation.schemaOf? p
    return ⟨x.scope, [x.root, Naming.pascalCase p.name], s⟩
  | .body service number => do
    let x ← d.declaration? service number
    let (_, _, s) ← x.bodySource? d
    return ⟨x.scope, [x.root, "RequestBody"], s⟩
  | .response service number index => do
    let x ← d.declaration? service number
    let (status, item, response) ← (x.responses d)[index]?
    let s ← Operation.inlineSchema? (d.promotions promote) item response
    return ⟨x.scope, [x.root, "Response" ++ status.label], s⟩

/-- The inline object at a position. -/
def object? (d : Document) (promote : Bool) (p : Position) : Option Spot :=
  (d.spot? promote p.anchor).bind (·.object? p.route)

theorem mem_declarations_of_declaration? {d : Document} {service : String} {number : Nat}
    {x : Operation.Declaration} (h : d.declaration? service number = some x) :
    x ∈ Operation.declarations d :=
  List.mem_of_mem_filter (List.mem_of_getElem? h)

/-- Every declared operation has a number within its service. -/
theorem exists_declaration?_eq {d : Document} {x : Operation.Declaration}
    (hx : x ∈ Operation.declarations d) : ∃ number, d.declaration? x.service number = some x := by
  have hmem : x ∈ (Operation.declarations d).filter (·.service == x.service) :=
    List.mem_filter.2 ⟨hx, by simp⟩
  exact List.mem_iff_getElem?.1 hmem

/-- What is attached at an anchor: a part of a definition, or a schema of an operation. -/
inductive Attached (d : Document) (promote : Bool) : Anchor → Spot → Prop
  | definition (n index segment name isRequired s) : n ∈ d.named promote →
      n.parts[index]? = some (.inner segment name isRequired s) →
      Attached d promote (.definition n.name index) ⟨n.scope, [n.name, segment], s⟩
  | argument (service number x p identifier s) : d.declaration? service number = some x →
      (p, identifier) ∈ (x.parameters d).zip (Operation.identifiers (x.parameters d)) →
      Operation.schemaOf? p = some s →
      Attached d promote (.argument service number identifier)
        ⟨x.scope, [x.root, Naming.pascalCase p.name], s⟩
  | body (service number x source) : d.declaration? service number = some x →
      x.bodySource? d = some source →
      Attached d promote (.body service number) ⟨x.scope, [x.root, "RequestBody"], source.2.2⟩
  | response (service number index x status item response s) :
      d.declaration? service number = some x →
      (x.responses d)[index]? = some (status, item, response) →
      Operation.inlineSchema? (d.promotions promote) item response = some s →
      Attached d promote (.response service number index)
        ⟨x.scope, [x.root, "Response" ++ status.label], s⟩

/-- The schema that is found at an anchor is attached there. -/
theorem attached_of_spot? {d : Document} {promote : Bool} {a : Anchor} {spot : Spot}
    (h : d.spot? promote a = some spot) : d.Attached promote a spot := by
  cases a with
  | definition name index =>
      obtain ⟨n, hn, h⟩ := Option.bind_eq_some_iff.1 h
      obtain ⟨part, hpart, h⟩ := Option.bind_eq_some_iff.1 h
      obtain rfl : n.name = name := by simpa using List.find?_some hn
      cases part with
      | plain base => cases h
      | inner segment inner isRequired s =>
          obtain rfl := Option.some.inj h
          exact .definition n index segment inner isRequired s (List.mem_of_find?_eq_some hn) hpart
  | argument service number identifier =>
      obtain ⟨x, hx, h⟩ := Option.bind_eq_some_iff.1 h
      obtain ⟨⟨p, other⟩, hp, h⟩ := Option.bind_eq_some_iff.1 h
      obtain ⟨s, hs, h⟩ := Option.bind_eq_some_iff.1 h
      obtain rfl := Option.some.inj h
      obtain rfl : other = identifier := by simpa using List.find?_some hp
      exact .argument service number x p other s hx (List.mem_of_find?_eq_some hp) hs
  | body service number =>
      obtain ⟨x, hx, h⟩ := Option.bind_eq_some_iff.1 h
      obtain ⟨source, hsource, h⟩ := Option.bind_eq_some_iff.1 h
      obtain rfl := Option.some.inj h
      exact .body service number x source hx hsource
  | response service number index =>
      obtain ⟨x, hx, h⟩ := Option.bind_eq_some_iff.1 h
      obtain ⟨⟨status, item, response⟩, hresponse, h⟩ := Option.bind_eq_some_iff.1 h
      obtain ⟨s, hs, h⟩ := Option.bind_eq_some_iff.1 h
      obtain rfl := Option.some.inj h
      exact .response service number index x status item response s hx hresponse hs

/-- What is attached at an anchor is found there, if no two definitions share a name. -/
theorem spot?_of_attached {d : Document} {promote : Bool}
    (hnodup : (d.declaredNames promote).Nodup) {a : Anchor} {spot : Spot}
    (h : d.Attached promote a spot) : d.spot? promote a = some spot := by
  cases h with
  | definition n index segment name isRequired s hn hpart =>
      rw [← names_named] at hnodup
      simp [spot?, Naming.find?_name_eq hnodup hn, hpart, partSpot?]
  | argument service number x p identifier s hx hp hs =>
      simp [spot?, hx, Operation.find?_identifier_eq hp, hs]
  | body service number x source hx hsource => simp [spot?, hx, hsource]
  | response service number index x status item response s hx hresponse hs =>
      simp [spot?, hx, hresponse, hs]

/-- The definition of what is attached at an anchor has a place. -/
theorem Attached.place_ne_nil {d : Document} {promote : Bool} {a : Anchor} {spot : Spot}
    (h : d.Attached promote a spot) : spot.place ≠ [] := by
  cases h <;> exact List.cons_ne_nil _ _

end Document

namespace Client

open Document (RefOr Parameter)
open Operation (Declaration)

variable {d : Document} {promote : Bool}

theorem mem_sources_of_declaration? {x : Declaration} {service : String} {number : Nat}
    {source : Model × List Model} (hx : d.declaration? service number = some x)
    (h : source ∈ x.sources d (d.promotions promote)) : source ∈ sources d promote :=
  List.mem_append_right _
    (List.mem_flatMap.2 ⟨x, Document.mem_declarations_of_declaration? hx, h⟩)

/-- What is lifted out of the schema at an anchor is lifted out of a source of the draft. -/
theorem exists_source_of_attached {a : Anchor} {spot : Spot} (h : d.Attached promote a spot) :
    ∃ source ∈ sources d promote, spot.built.2 ⊆ source.2 := by
  cases h with
  | definition n index segment name isRequired s hn hpart =>
      have hmem : n.define ∈ sources d promote :=
        List.mem_append_left _ (List.mem_map_of_mem hn)
      refine ⟨n.define, hmem, fun m hm => ?_⟩
      rw [Document.Named.define, Model.definition_snd]
      refine List.mem_flatMap.2 ⟨_, List.mem_of_getElem? hpart, ?_⟩
      rwa [Model.liftedOfPart, Model.embed_snd_eq _ _ ""]
  | argument service number x p identifier s hx hp hs =>
      have hsent : Operation.argumentOf x.scope x.root p identifier ∈ x.sent d :=
        List.mem_map.2 ⟨(p, identifier), hp, rfl⟩
      refine ⟨_, mem_sources_of_declaration? hx (List.mem_append_left _
        (List.mem_map.2 ⟨_, List.mem_append_left _ hsent, rfl⟩)), ?_⟩
      rw [(Operation.argumentOf_of_schemaOf? hs).2, Spot.inline_snd]
      exact List.Subset.refl _
  | body service number x source hx hsource =>
      have hsent : x.bodyArgument d source ∈ x.body? d := by
        rw [Declaration.body?_eq, hsource]
        rfl
      refine ⟨_, mem_sources_of_declaration? hx (List.mem_append_left _ (List.mem_map.2
        ⟨_, List.mem_append_right _ (Option.mem_toList.2 hsent), rfl⟩)), ?_⟩
      rw [← Spot.inline_snd _ "requestBody"]
      exact List.Subset.refl _
  | response service number index x status item response s hx hresponse hs =>
      have hmodel : x.responseModel (d.promotions promote) (status, item, response) ∈
          x.sources d (d.promotions promote) :=
        List.mem_append_right _ (List.mem_map_of_mem (List.mem_of_getElem? hresponse))
      refine ⟨_, mem_sources_of_declaration? hx hmodel, ?_⟩
      rw [Operation.responseModel_of_inlineSchema? hs, Spot.inline_snd]
      exact List.Subset.refl _

/-- What is lifted out of a source of the draft is lifted out of the schema at an anchor. -/
theorem exists_attached_of_mem_sources {source : Model × List Model}
    (hsource : source ∈ sources d promote) {m : Model} (hm : m ∈ source.2) :
    ∃ a spot, d.Attached promote a spot ∧ m ∈ spot.built.2 := by
  rcases List.mem_append.1 hsource with hsource | hsource
  · obtain ⟨n, hn, rfl⟩ := List.mem_map.1 hsource
    rw [Document.Named.define, Model.definition_snd] at hm
    obtain ⟨part, hpart, hm⟩ := List.mem_flatMap.1 hm
    obtain ⟨index, hindex⟩ := List.mem_iff_getElem?.1 hpart
    cases part with
    | plain base => cases hm
    | inner segment name isRequired s =>
        rw [Model.liftedOfPart, Model.embed_snd_eq _ _ ""] at hm
        exact ⟨_, _, .definition n index segment name isRequired s hn hindex, hm⟩
  · obtain ⟨x, hx, hsource⟩ := List.mem_flatMap.1 hsource
    obtain ⟨number, hnumber⟩ := Document.exists_declaration?_eq hx
    rcases List.mem_append.1 hsource with hsource | hsource
    · obtain ⟨built, hbuilt, rfl⟩ := List.mem_map.1 hsource
      rcases List.mem_append.1 hbuilt with hbuilt | hbuilt
      · obtain ⟨⟨p, identifier⟩, hp, rfl⟩ := List.mem_map.1 hbuilt
        cases hs : Operation.schemaOf? p with
        | none => simp [(Operation.argumentOf_of_none _ _ _ hs).2] at hm
        | some s =>
            rw [(Operation.argumentOf_of_schemaOf? hs).2, Spot.inline_snd] at hm
            exact ⟨_, _, .argument x.service number x p identifier s hnumber hp hs, hm⟩
      · rw [Option.mem_toList, Declaration.body?_eq] at hbuilt
        obtain ⟨source, hbody, rfl⟩ := Option.map_eq_some_iff.1 hbuilt
        refine ⟨_, _, .body x.service number x source hnumber hbody, ?_⟩
        rw [← Spot.inline_snd _ "requestBody"]
        exact hm
    · obtain ⟨⟨status, item, response⟩, hresponse, rfl⟩ := List.mem_map.1 hsource
      obtain ⟨index, hindex⟩ := List.mem_iff_getElem?.1 hresponse
      cases hs : Operation.inlineSchema? (d.promotions promote) item response with
      | none => simp [Operation.responseModel_of_none hs] at hm
      | some s =>
          rw [Operation.responseModel_of_inlineSchema? hs, Spot.inline_snd] at hm
          exact ⟨_, _,
            .response x.service number index x status item response s hnumber hindex hs, hm⟩

/-- The lifted definitions of a draft are those of the inline objects. -/
theorem mem_lifted_iff (hnodup : (d.declaredNames promote).Nodup) {m : Model} :
    m ∈ liftedModels (drafted d promote).models ↔
      ∃ p found, d.object? promote p = some found ∧ m = found.definition := by
  rw [liftedModels_drafted]
  constructor
  · intro hm
    obtain ⟨source, hsource, hm⟩ := List.mem_flatMap.1 hm
    obtain ⟨a, spot, hspot, hm⟩ := exists_attached_of_mem_sources hsource hm
    obtain ⟨route, found, hfound, rfl⟩ := Spot.mem_built_snd_iff.1 hm
    have hanchor := Document.spot?_of_attached hnodup hspot
    exact ⟨⟨a, route⟩, found, Option.bind_eq_some_iff.2 ⟨spot, hanchor, hfound⟩, rfl⟩
  · rintro ⟨⟨a, route⟩, found, hfound, rfl⟩
    obtain ⟨spot, hspot, hfound⟩ := Option.bind_eq_some_iff.1 hfound
    obtain ⟨source, hsource, hsub⟩ :=
      exists_source_of_attached (Document.attached_of_spot? hspot)
    exact List.mem_flatMap.2 ⟨source, hsource,
      hsub (Spot.mem_built_snd_iff.2 ⟨route, found, hfound, rfl⟩)⟩

end Client

end TypedClient
